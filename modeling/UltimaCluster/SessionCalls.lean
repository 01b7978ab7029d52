/-
  What one call of a process does to its links, and what it sends.
-/
import UltimaCluster.SessionWorld

namespace UltimaCluster

theorem Session.EndOf.unique {s : Session} {h h' : RespMessage} {initiator initiator' : Bool}
    (hs : s.EndOf h initiator) (hs' : s.EndOf h' initiator') : h = h' ∧ initiator = initiator' :=
  AesKey.transport.inj (hs.sealKey.symm.trans hs'.sealKey)

namespace SharedTransport

variable {t t' : SharedTransport} {events : List TransportEvent}
  {input : Option (NodeId × HandshakeBody)} {y : NodeId}

/-! ## One call -/

theorem Effect.steps (h : Effect input t t' events) :
    (∃ sender body, input = some (sender, body) ∧ PeersStep input t.peers t'.peers) ∨
      PeersSteps none t.peers t'.peers := by
  cases h with
  | message sender body received step => exact .inl ⟨sender, body, received, step⟩
  | peers steps => exact .inr steps
  | openedPairwise sender d c ok => exact .inr (Peers.openPairwise_steps t.peers sender d)
  | openedGroup P sender groupKey salt d b window fresh steps box key check => exact .inr steps
  | group | burnt | queued | sealedGroup | jobFailed | jobSealed => exact .inr .refl

variable {done : Option RespMessage}

theorem Effect.straight (h : Effect input t t' events)
    (hl : (t.peers.link y).Straight t.peers.selfId t.peers.bootSalt y done) :
    ∃ done', (t'.peers.link y).Straight t'.peers.selfId t'.peers.bootSalt y done' ∧
      (done' = done ∨ ∃ hd, input = some (y, .resp hd) ∧ (t.peers.link y).hs = some hd.init ∧
        done' = some hd) := by
  rcases h.steps with ⟨sender, body, -, hstep⟩ | hsteps
  · exact Peers.PeersStep.straight hstep hl
  · exact ⟨done, Peers.PeersSteps.straight hsteps hl, .inl rfl⟩

theorem Effect.parked (h : Effect input t t' events)
    (hl : (t.peers.link y).Straight t.peers.selfId t.peers.bootSalt y done) {s : Session}
    (hs : (t'.peers.link y).pending = some s) :
    (∃ c c', (t.peers.link y).current = some c ∧ (t'.peers.link y).current = some c' ∧
      c'.SameKeys c) ∧
      ((∃ s₀, (t.peers.link y).pending = some s₀ ∧ s.SameKeys s₀) ∨
        ∃ m, s.openKey = .transport (t.peers.ownResp m) true) := by
  rcases h.steps with ⟨sender, body, -, hstep⟩ | hsteps
  · obtain ⟨hcur, hold | ⟨m, -, hm⟩⟩ := Peers.PeersStep.parked hstep hl hs
    · exact ⟨hcur, .inl hold⟩
    · exact ⟨hcur, .inr ⟨m, hm⟩⟩
  · obtain ⟨hcur, hold⟩ := Peers.PeersSteps.parked hsteps hl hs
    exact ⟨hcur, .inl hold⟩

theorem Effect.holds (h : Effect input t t' events) {s : Session} (hs : (t'.peers.link y).Holds s) :
    (∃ s₀, (t.peers.link y).Holds s₀ ∧ s.SameKeys s₀) ∨
      ∃ hd initiator, input = some (y, hd.received initiator) ∧ s.EndOf hd initiator ∧
        decodePayload (hd.peerPayload initiator) = some (y, s.bootSalt) := by
  rcases h.steps with ⟨sender, body, -, hstep⟩ | hsteps
  · refine (Peers.PeersStep.holds hstep hs).imp id ?_
    rintro ⟨hd, initiator, hinput, hof, -, hpayload, -⟩
    exact ⟨hd, initiator, hinput, hof, hpayload⟩
  · exact .inl (Peers.PeersSteps.holds hsteps hs)

/-! ## What a process sends -/

/-- The process may have sent the body to `p`. -/
def Wrote (t : SharedTransport) (p : NodeId) : HandshakeBody → Prop
  | .init m => m.Of t.peers.selfId t.peers.bootSalt
  | .resp m => m.ephemeral.process = t.peers.bootSalt ∧ m.ephemeral.index < t.peers.drawn ∧
      m.payload = encodePayload t.peers.selfId t.peers.bootSalt ∧
      (∃ salt, decodePayload m.init.payload = some (p, salt)) ∧ (t.peers.link p).current ≠ none
  | .other _ => True

theorem Effect.wrote (h : Effect input t t' events) {p : NodeId} {body : HandshakeBody}
    (hw : t.Wrote p body) : t'.Wrote p body := by
  have hsame := h.same
  have hdrawn : t.peers.drawn ≤ t'.peers.drawn := by
    rcases h.steps with ⟨sender, body, -, hstep⟩ | hsteps
    · exact Peers.PeersStep.drawn_le hstep
    · exact Peers.PeersSteps.drawn_le hsteps
  cases body with
  | init m => exact ⟨hw.process.trans hsame.bootSalt.symm, by rw [hw.payload, hsame.selfId, hsame.bootSalt]⟩
  | resp m =>
    obtain ⟨hprocess, hindex, hpayload, hclaim, hcur⟩ := hw
    refine ⟨hprocess.trans hsame.bootSalt.symm, hindex.trans_le hdrawn,
      by rw [hpayload, hsame.selfId, hsame.bootSalt], hclaim, ?_⟩
    rcases h.steps with ⟨sender, body, -, hstep⟩ | hsteps
    · exact Peers.PeersStep.occupied hstep hcur
    · exact Peers.PeersSteps.occupied hsteps hcur
  | other bytes => trivial

theorem exec_wrote {c : TransportCall}
    (hown : ∀ y m, (t.peers.link y).hs = some m → m.Of t.peers.selfId t.peers.bootSalt)
    (heffect : Effect c.input t (t.exec c).1 (t.exec c).2) {p : NodeId} {kind : ℕ}
    {body : HandshakeBody} (h : .acted (.send p kind body) ∈ (t.exec c).2) :
    (t.exec c).1.Wrote p body := by
  have hinit : (∃ m, body = .init m ∧ m.Of t.peers.selfId t.peers.bootSalt) →
      (t.exec c).1.Wrote p body := by
    rintro ⟨m, rfl, hm⟩
    exact heffect.wrote (show t.Wrote p (.init m) from hm)
  have hseal : ∀ r, .acted (.send p kind body) ∉ sealEvents r := by
    intro r hmem
    obtain hr | ⟨d, -, hr⟩ := sealEvents_eq r <;> simp [hr] at hmem
  have hacted : ∀ acts : List HandshakeAction,
      .acted (.send p kind body) ∈ acts.map TransportEvent.acted → .send p kind body ∈ acts := by
    intro acts hmem
    obtain ⟨a, ha, heq⟩ := List.mem_map.mp hmem
    exact TransportEvent.acted.inj heq ▸ ha
  cases c with
  | initiate now file peer => exact hinit (Peers.initiate_sent (hacted _ h))
  | onHandshakeMessage now file sender k b =>
    obtain ⟨m, salt, rfl, hclaim, hcur, hdrawn⟩ := Peers.onMessage_sent (hacted _ h)
    have hsame := heffect.same
    refine ⟨hsame.bootSalt.symm, ?_, by rw [hsame.selfId, hsame.bootSalt]; rfl, ⟨salt, hclaim⟩, hcur⟩
    exact (Nat.lt_succ_self _).trans_eq hdrawn.symm
  | tick now file => exact hinit (Peers.tick_sent hown (hacted _ h))
  | reload now file => cases h
  | mint peers now key =>
    obtain ⟨q, -, heq⟩ := List.mem_map.mp (hacted _ h)
    cases heq
    trivial
  | onGroupKeyMessage sender b =>
    have hmem : .send p kind body ∈ (t.group.onKeyMessage sender b).2 := hacted _ h
    unfold GroupPlane.onKeyMessage at hmem
    split_ifs at hmem
    · cases List.mem_singleton.mp hmem
      trivial
    · cases hmem
    · simp at hmem
  | sealDatagram control k peer buf now =>
    change _ ∈ (t.beginSeal control k peer buf now).2.elim [] sealEvents at h
    cases hr : (t.beginSeal control k peer buf now).2 with
    | none =>
      rw [hr] at h
      cases h
    | some r =>
      rw [hr] at h
      exact absurd h (hseal r)
  | finishSeal job => exact absurd h (hseal _)
  | openDatagram slice sender d =>
    unfold exec at h
    dsimp only at h
    split at h
    · simp at h
    · cases h

theorem Effect.sealedTransport (h : Effect input t t' events) {d : Datagram} {b : Box}
    {hd : RespMessage} {initiator : Bool} (hmem : .sealed d ∈ events) (hbox : d.box = some b)
    (hkey : b.key = .transport hd initiator) :
    ∃ y s, (t.peers.link y).current = some s ∧ s.sealKey = .transport hd initiator := by
  cases h with
  | message | peers | group => exact absurd hmem (acted_not_sealed _ d)
  | burnt | queued | jobFailed => cases hmem
  | sealedGroup cache d' b' own box nonce key bound =>
    cases List.mem_singleton.mp hmem
    obtain rfl := Option.some.inj (box.symm.trans hbox)
    obtain ⟨groupKey, hown⟩ := key
    cases hkey.symm.trans hown
  | jobSealed job s d' b' mem current box nonce key =>
    cases List.mem_singleton.mp hmem
    obtain rfl := Option.some.inj (box.symm.trans hbox)
    exact ⟨job.peer, s, current, key.symm.trans hkey⟩
  | openedPairwise sender d' c ok => simp at hmem
  | openedGroup P sender groupKey salt d' b' window fresh steps box key check =>
    cases fresh <;> simp at hmem

theorem openDatagram_current (t : SharedTransport) (sender : NodeId) (d : Datagram) {c : Session}
    (hc : (t.peers.link y).current = some c) :
    (∃ c', ((t.openDatagram sender d).1.peers.link y).current = some c' ∧ c'.SameKeys c) ∨
      (y = sender ∧ ∃ s r, (t.peers.link sender).pending = some s ∧ openWith d s.openKey = .ok r) ∨
      (y = sender ∧ t.GroupPromotes sender d) := by
  have hstay : ∀ t' : SharedTransport, t'.peers = t.peers →
      ∃ c' : Session, (t'.peers.link y).current = some c' ∧ c'.SameKeys c := by
    intro t' ht'
    exact ⟨c, ht' ▸ hc, .refl c⟩
  unfold openDatagram
  split
  · exact .inl (hstay t rfl)
  split
  · rename_i hscope
    unfold openGroup
    split
    · exact .inl (hstay t rfl)
    rename_i groupKey hkey
    dsimp only
    split
    · exact .inl (hstay _ rfl)
    rename_i e herror
    split
    · rename_i salt counter hok
      obtain ⟨p, hsalt, hopen⟩ := trial_ok hok
      obtain ⟨s, hs, rfl⟩ := Option.map_eq_some_iff.mp hsalt
      by_cases hy : y = sender
      · refine .inr (.inr ⟨hy, hscope, groupKey, s, _, hkey, hs, hopen, fun c' r' hc' => ?_⟩)
        exact trial_error herror r' (Option.map_eq_some_iff.mpr ⟨c', hc', rfl⟩)
      · refine .inl ⟨c, ?_, .refl c⟩
        unfold Peers.promotePending finishGroupOpen
        dsimp only
        split
        · rw [Peers.link_setEntry, Function.update_of_ne hy]
          exact hc
        · exact hc
    · exact .inl (hstay t rfl)
  · have hopened := Peers.openPairwise_opened t.peers sender d
    generalize t.peers.openPairwise sender d = r at hopened
    cases hopened with
    | refused err => exact .inl ⟨c, hc, .refl c⟩
    | current s p slot opens =>
      left
      rw [Peers.link_setEntry, Peers.replayCheck_eq]
      by_cases hy : y = sender
      · subst hy
        obtain rfl := Option.some.inj (slot.symm.trans hc)
        rw [Function.update_self]
        exact ⟨_, rfl, rfl, rfl, rfl⟩
      · rw [Function.update_of_ne hy]
        exact ⟨c, hc, .refl c⟩
    | promoted s p slot opens fresh =>
      by_cases hy : y = sender
      · exact .inr (.inl ⟨hy, s, _, slot, opens⟩)
      · left
        rw [Peers.link_setEntry, Function.update_of_ne hy]
        exact ⟨c, hc, .refl c⟩
    | replayed s p err slot opens =>
      left
      rw [Peers.link_setEntry]
      by_cases hy : y = sender
      · subst hy
        rw [Function.update_self]
        exact ⟨c, hc, .refl c⟩
      · rw [Function.update_of_ne hy]
        exact ⟨c, hc, .refl c⟩
  · exact .inl (hstay t rfl)

theorem beginSeal_peers (t : SharedTransport) (control : Bool) (kind : ℕ) (peer : Option NodeId)
    (buf : Bytes) (now : ℕ) : (t.beginSeal control kind peer buf now).1.peers = t.peers := by
  have hgroup : (t.sealGroup buf now).1.peers = t.peers := by
    unfold sealGroup groupSealCipher nextCounter
    dsimp only
    split_ifs
    · rfl
    split
    · rfl
    split
    · rename_i heq
      split at heq
      · cases heq
      · split at heq <;> cases heq
        rfl
    · rename_i heq
      split at heq
      · cases heq
        rfl
      · split at heq <;> cases heq
        rfl
  have hcontrol : (t.sealGroupControl buf now).1.peers = t.peers := by
    unfold sealGroupControl nextCounter
    split_ifs
    · rfl
    split
    · rfl
    split <;> rfl
  unfold beginSeal
  split
  · cases control with
    | true => exact hcontrol
    | false => exact hgroup
  · split <;> rfl
  · rfl

theorem exec_current {c : TransportCall} (hc : ∀ slice sender d, c ≠ .openDatagram slice sender d)
    (hl : (t.peers.link y).Straight t.peers.selfId t.peers.bootSalt y done) {s : Session}
    (hs : (t.peers.link y).current = some s) :
    ∃ s', ((t.exec c).1.peers.link y).current = some s' ∧ s'.SameKeys s := by
  -- a call that promotes nothing may as well have had a message
  have hsome : (some (0, .other []) : Option (NodeId × HandshakeBody)) ≠ none := Option.some_ne_none _
  cases c with
  | initiate now file peer =>
    exact Peers.PeersSteps.current (Peers.initiate_steps t.peers now file peer) hsome hl hs
  | onHandshakeMessage now file sender kind body =>
    exact Peers.PeersStep.current (Peers.onMessage_step t.peers now file sender kind body)
      (Option.some_ne_none _) hl hs
  | tick now file => exact Peers.PeersSteps.current (Peers.tick_steps t.peers now file) hsome hl hs
  | sealDatagram control kind peer buf now =>
    refine ⟨s, ?_, .refl s⟩
    change ((t.beginSeal control kind peer buf now).1.peers.link y).current = some s
    rw [beginSeal_peers]
    exact hs
  | reload | mint | onGroupKeyMessage | finishSeal => exact ⟨s, hs, .refl s⟩
  | openDatagram slice sender d => exact absurd rfl (hc slice sender d)

end SharedTransport

end UltimaCluster
