/-
  The life of a link: the attempt, then the sessions.

  A process is the initiator of at most one handshake with a peer, the one that
  gave its first session (`done`); every later session it answered, and parked
  first.
-/
import UltimaCluster.HandshakeAuth
import UltimaCluster.Transport

namespace UltimaCluster

/-- The process at an end of the handshake. -/
def RespMessage.process (h : RespMessage) (initiator : Bool) : BootSalt :=
  if initiator then h.init.ephemeral.process else h.ephemeral.process

/-- Message 1 is of the process with this id and salt. -/
structure InitMessage.Of (m : InitMessage) (me : NodeId) (salt : BootSalt) : Prop where
  process : m.ephemeral.process = salt
  payload : m.payload = encodePayload me salt

namespace Link

/-- The link of the process `me`, `salt` with the peer `y`; `done` is the
    handshake that it completed as the initiator. -/
structure Straight (me : NodeId) (salt : BootSalt) (y : NodeId) (l : Link)
    (done : Option RespMessage) : Prop where
  attempt : ∀ m, l.hs = some m → l.current = none ∧ m.Of me salt
  vacant : l.current = none → l.pending = none ∧ done = none
  ended : ∀ s, l.Holds s → ∃ h initiator, s.EndOf h initiator ∧ h.process initiator = salt ∧
    decodePayload (h.peerPayload initiator) = some (y, s.bootSalt) ∧ (initiator = true → done = some h)
  parked : ∀ s, l.pending = some s → ∃ h, s.EndOf h false
  finished : ∀ h, done = some h → h.init.Of me salt ∧ ∃ salt', decodePayload h.payload = some (y, salt')

variable {me y : NodeId} {salt : BootSalt} {l l' : Link} {done : Option RespMessage}

theorem straight_new : Straight me salt y ⟨none, none, none⟩ none where
  attempt _ h := by cases h
  vacant _ := ⟨rfl, rfl⟩
  ended _ h := by rcases h with h | h <;> cases h
  parked _ h := by cases h
  finished _ h := by cases h

theorem Straight.drop (h : l.Straight me salt y done) :
    Straight me salt y { l with hs := none } done where
  attempt _ hm := by cases hm
  vacant := h.vacant
  ended := h.ended
  parked := h.parked
  finished := h.finished

theorem Straight.expire (h : l.Straight me salt y done) :
    Straight me salt y { l with pending := none } done where
  attempt := h.attempt
  vacant hc := ⟨rfl, (h.vacant hc).2⟩
  ended s hs := by
    rcases hs with hs | hs
    · exact h.ended s (.inl hs)
    · cases hs
  parked _ hs := by cases hs
  finished := h.finished

theorem Straight.start (h : l.Straight me salt y done) (hvacant : l.current = none) {m : InitMessage}
    (hm : m.Of me salt) : Straight me salt y { l with hs := some m } done where
  attempt m' hm' := by
    obtain rfl := Option.some.inj hm'
    exact ⟨hvacant, hm⟩
  vacant := h.vacant
  ended := h.ended
  parked := h.parked
  finished := h.finished

theorem Straight.touch (h : l.Straight me salt y done) {s s' : Session} (hkeys : s'.SameKeys s)
    (hl : (l.current = some s ∧ l' = { l with current := some s' }) ∨
      (l.pending = some s ∧ l' = { l with pending := some s' })) : l'.Straight me salt y done := by
  have hend : l.Holds s → ∃ h initiator, s'.EndOf h initiator ∧ h.process initiator = salt ∧
      decodePayload (h.peerPayload initiator) = some (y, s'.bootSalt) ∧
      (initiator = true → done = some h) := by
    intro hs
    obtain ⟨hd, initiator, hof, hprocess, hpayload, hdone⟩ := h.ended s hs
    exact ⟨hd, initiator, ⟨hkeys.sealKey.trans hof.sealKey, hkeys.openKey.trans hof.openKey⟩, hprocess,
      hkeys.bootSalt ▸ hpayload, hdone⟩
  rcases hl with ⟨hs, rfl⟩ | ⟨hs, rfl⟩
  · exact { h with
      attempt := by
        intro m hm
        rw [(h.attempt m hm).1] at hs
        cases hs
      vacant := fun hc => by cases hc
      ended := by
        rintro t (ht | ht)
        · obtain rfl := Option.some.inj ht
          exact hend (.inl hs)
        · exact h.ended t (.inr ht) }
  · exact { h with
      vacant := by
        intro hc
        rw [(h.vacant hc).1] at hs
        cases hs
      ended := by
        rintro t (ht | ht)
        · exact h.ended t (.inl ht)
        · obtain rfl := Option.some.inj ht
          exact hend (.inr hs)
      parked := by
        intro t ht
        obtain rfl := Option.some.inj ht
        obtain ⟨hd, hof⟩ := h.parked s hs
        exact ⟨hd, hkeys.sealKey.trans hof.sealKey, hkeys.openKey.trans hof.openKey⟩ }

theorem Straight.promote (h : l.Straight me salt y done) {s : Session} (hs : l.pending = some s) :
    Straight me salt y { l with current := some s, pending := none } done where
  attempt m hm := by
    rw [(h.vacant (h.attempt m hm).1).1] at hs
    cases hs
  vacant hc := by cases hc
  ended t ht := by
    rcases ht with ht | ht
    · obtain rfl := Option.some.inj ht
      exact h.ended s (.inr hs)
    · cases ht
  parked _ ht := by cases ht
  finished := h.finished

theorem Straight.respond (h : l.Straight me salt y done) {s : Session} {hd : RespMessage}
    (hof : s.EndOf hd false) (hprocess : hd.process false = salt)
    (hpayload : decodePayload (hd.peerPayload false) = some (y, s.bootSalt)) :
    Straight me salt y
      (match l.current with
      | none => ⟨none, some s, l.pending⟩
      | some c => ⟨none, some c, some s⟩) done := by
  have hend : ∃ h initiator, s.EndOf h initiator ∧ h.process initiator = salt ∧
      decodePayload (h.peerPayload initiator) = some (y, s.bootSalt) ∧
      (initiator = true → done = some h) :=
    ⟨hd, false, hof, hprocess, hpayload, fun hf => by cases hf⟩
  cases hc : l.current with
  | none =>
    exact { h with
      attempt := fun _ hm => by cases hm
      vacant := fun hc' => by cases hc'
      ended := by
        rintro t (ht | ht)
        · obtain rfl := Option.some.inj ht
          exact hend
        · exact h.ended t (.inr ht) }
  | some c =>
    exact {
      attempt := fun _ hm => by cases hm
      vacant := fun hc' => by cases hc'
      ended := by
        rintro t (ht | ht)
        · obtain rfl := Option.some.inj ht
          exact h.ended c (.inl hc)
        · obtain rfl := Option.some.inj ht
          exact hend
      parked := by
        intro t ht
        obtain rfl := Option.some.inj ht
        exact ⟨hd, hof⟩
      finished := h.finished }

theorem Straight.complete (h : l.Straight me salt y done) {s : Session} {hd : RespMessage}
    (hhs : l.hs = some hd.init) (hof : s.EndOf hd true)
    (hpayload : decodePayload hd.payload = some (y, s.bootSalt)) :
    Straight me salt y ⟨none, some s, none⟩ (some hd) where
  attempt _ hm := by cases hm
  vacant hc := by cases hc
  ended t ht := by
    rcases ht with ht | ht
    · obtain rfl := Option.some.inj ht
      exact ⟨hd, true, hof, (h.attempt _ hhs).2.process, hpayload, fun _ => rfl⟩
    · cases ht
  parked _ ht := by cases ht
  finished hd' hd'' := by
    obtain rfl := Option.some.inj hd''
    exact ⟨(h.attempt _ hhs).2, s.bootSalt, hpayload⟩

end Link

namespace Peers

variable {P P' : Peers} {input : Option (NodeId × HandshakeBody)} {y : NodeId}
  {done : Option RespMessage}

theorem PeersStep.straight (hstep : PeersStep input P P')
    (h : (P.link y).Straight P.selfId P.bootSalt y done) :
    ∃ done', (P'.link y).Straight P'.selfId P'.bootSalt y done' ∧
      (done' = done ∨ ∃ hd, input = some (y, .resp hd) ∧ (P.link y).hs = some hd.init ∧
        done' = some hd) := by
  have hsame := PeersStep.same hstep
  rw [hsame.selfId, hsame.bootSalt]
  cases hstep with
  | quiet same drawn link => exact ⟨done, link ▸ h, .inl rfl⟩
  | expire same drawn link =>
    rcases link y with hl | hl
    · exact ⟨done, hl ▸ h, .inl rfl⟩
    · exact ⟨done, hl ▸ h.expire, .inl rfl⟩
  | start x key same drawn vacant link =>
    obtain ⟨rfl, hl⟩ | ⟨-, hl⟩ := link_cases link y
    · exact ⟨done, hl ▸ h.start vacant ⟨rfl, rfl⟩, .inl rfl⟩
    · exact ⟨done, hl ▸ h, .inl rfl⟩
  | drop x same drawn link =>
    obtain ⟨rfl, hl⟩ | ⟨-, hl⟩ := link_cases link y
    · exact ⟨done, hl ▸ h.drop, .inl rfl⟩
    · exact ⟨done, hl ▸ h, .inl rfl⟩
  | touch x t replay same drawn grows link =>
    have hkeys : ({ t with replay } : Session).SameKeys t := ⟨rfl, rfl, rfl⟩
    rcases link with ⟨hslot, link⟩ | ⟨hslot, link⟩
    all_goals obtain ⟨rfl, hl⟩ | ⟨-, hl⟩ := link_cases link y
    · exact ⟨done, h.touch hkeys (.inl ⟨hslot, hl⟩), .inl rfl⟩
    · exact ⟨done, hl ▸ h, .inl rfl⟩
    · exact ⟨done, h.touch hkeys (.inr ⟨hslot, hl⟩), .inl rfl⟩
    · exact ⟨done, hl ▸ h, .inl rfl⟩
  | promote x t datagram same drawn pending link =>
    obtain ⟨rfl, hl⟩ | ⟨-, hl⟩ := link_cases link y
    · exact ⟨done, hl ▸ h.promote pending, .inl rfl⟩
    · exact ⟨done, hl ▸ h, .inl rfl⟩
  | respond x m salt now same received drawn remote payload allowed link =>
    obtain ⟨rfl, hl⟩ | ⟨-, hl⟩ := link_cases link y
    · have hof : (Session.fromFinishedHandshake (P.ownResp m) false salt now).EndOf (P.ownResp m) false :=
        ⟨rfl, rfl⟩
      exact ⟨done, hl ▸ h.respond hof rfl payload, .inl rfl⟩
    · exact ⟨done, hl ▸ h, .inl rfl⟩
  | complete x m salt now same received drawn hhs payload allowed link =>
    obtain ⟨rfl, hl⟩ | ⟨-, hl⟩ := link_cases link y
    · have hof : (Session.fromFinishedHandshake m true salt now).EndOf m true := ⟨rfl, rfl⟩
      exact ⟨some m, hl ▸ h.complete hhs hof payload, .inr ⟨m, received, hhs, rfl⟩⟩
    · exact ⟨done, hl ▸ h, .inl rfl⟩

theorem PeersSteps.straight (hsteps : PeersSteps none P P')
    (h : (P.link y).Straight P.selfId P.bootSalt y done) :
    (P'.link y).Straight P'.selfId P'.bootSalt y done := by
  induction hsteps with
  | refl => exact h
  | tail _ hstep ih =>
    obtain ⟨done', h', rfl | ⟨hd, hinput, -⟩⟩ := PeersStep.straight hstep ih
    · exact h'
    · cases hinput

/-- What is parked after a step was parked before, or was just answered; the
    current session stays. -/
theorem PeersStep.parked (hstep : PeersStep input P P')
    (h : (P.link y).Straight P.selfId P.bootSalt y done) {s : Session}
    (hs : (P'.link y).pending = some s) :
    (∃ c c', (P.link y).current = some c ∧ (P'.link y).current = some c' ∧ c'.SameKeys c) ∧
      ((∃ s₀, (P.link y).pending = some s₀ ∧ s.SameKeys s₀) ∨
        ∃ m, input = some (y, .init m) ∧ s.openKey = .transport (P.ownResp m) true) := by
  -- a link that stays, at least in its sessions
  have hstay : (P'.link y).current = (P.link y).current →
      (P'.link y).pending = (P.link y).pending →
      (∃ c c', (P.link y).current = some c ∧ (P'.link y).current = some c' ∧ c'.SameKeys c) ∧
      ((∃ s₀, (P.link y).pending = some s₀ ∧ s.SameKeys s₀) ∨
        ∃ m, input = some (y, .init m) ∧ s.openKey = .transport (P.ownResp m) true) := by
    intro hcur hpend
    rw [hpend] at hs
    cases hc : (P.link y).current with
    | none =>
      rw [(h.vacant hc).1] at hs
      cases hs
    | some c => exact ⟨⟨c, c, rfl, hcur.trans hc, .refl c⟩, .inl ⟨s, hs, .refl s⟩⟩
  cases hstep with
  | quiet same drawn link => exact hstay (by rw [link]) (by rw [link])
  | expire same drawn link =>
    rcases link y with hl | hl
    · exact hstay (by rw [hl]) (by rw [hl])
    · rw [hl] at hs
      cases hs
  | start x key same drawn vacant link =>
    obtain ⟨rfl, hl⟩ | ⟨-, hl⟩ := link_cases link y
    · exact hstay (by rw [hl]) (by rw [hl])
    · exact hstay (by rw [hl]) (by rw [hl])
  | drop x same drawn link =>
    obtain ⟨rfl, hl⟩ | ⟨-, hl⟩ := link_cases link y
    · exact hstay (by rw [hl]) (by rw [hl])
    · exact hstay (by rw [hl]) (by rw [hl])
  | touch x t replay same drawn grows link =>
    rcases link with ⟨hslot, link⟩ | ⟨hslot, link⟩
    all_goals obtain ⟨rfl, hl⟩ | ⟨-, hl⟩ := link_cases link y
    · rw [hl] at hs ⊢
      exact ⟨⟨t, _, hslot, rfl, rfl, rfl, rfl⟩, .inl ⟨s, hs, .refl s⟩⟩
    · exact hstay (by rw [hl]) (by rw [hl])
    · rw [hl] at hs ⊢
      obtain rfl := Option.some.inj hs
      cases hc : (P.link y).current with
      | none =>
        rw [(h.vacant hc).1] at hslot
        cases hslot
      | some c => exact ⟨⟨c, c, rfl, rfl, .refl c⟩, .inl ⟨t, hslot, rfl, rfl, rfl⟩⟩
    · exact hstay (by rw [hl]) (by rw [hl])
  | promote x t datagram same drawn pending link =>
    obtain ⟨rfl, hl⟩ | ⟨-, hl⟩ := link_cases link y
    · rw [hl] at hs
      cases hs
    · exact hstay (by rw [hl]) (by rw [hl])
  | respond x m salt now same received drawn remote payload allowed link =>
    obtain ⟨rfl, hl⟩ | ⟨-, hl⟩ := link_cases link y
    · rw [hl] at hs ⊢
      cases hc : (P.link y).current with
      | none =>
        simp only [hc] at hs
        rw [(h.vacant hc).1] at hs
        cases hs
      | some c =>
        simp only [hc] at hs ⊢
        obtain rfl := Option.some.inj hs
        exact ⟨⟨c, c, rfl, rfl, .refl c⟩, .inr ⟨m, received, rfl⟩⟩
    · exact hstay (by rw [hl]) (by rw [hl])
  | complete x m salt now same received drawn hhs payload allowed link =>
    obtain ⟨rfl, hl⟩ | ⟨-, hl⟩ := link_cases link y
    · rw [hl] at hs
      cases hs
    · exact hstay (by rw [hl]) (by rw [hl])

theorem PeersSteps.parked (hsteps : PeersSteps none P P')
    (h : (P.link y).Straight P.selfId P.bootSalt y done) {s : Session}
    (hs : (P'.link y).pending = some s) :
    (∃ c c', (P.link y).current = some c ∧ (P'.link y).current = some c' ∧ c'.SameKeys c) ∧
      ∃ s₀, (P.link y).pending = some s₀ ∧ s.SameKeys s₀ := by
  induction hsteps generalizing s with
  | refl =>
    cases hc : (P.link y).current with
    | none =>
      rw [(h.vacant hc).1] at hs
      cases hs
    | some c => exact ⟨⟨c, c, rfl, rfl, .refl c⟩, s, hs, .refl s⟩
  | tail hprev hstep ih =>
    obtain ⟨⟨c, c', hc, hc', hkeys⟩, ⟨s₁, hs₁, hs₁s⟩ | ⟨m, hinput, -⟩⟩ :=
      PeersStep.parked hstep (PeersSteps.straight hprev h) hs
    · obtain ⟨⟨d, d', hd, hd', hkeys'⟩, s₀, hs₀, hs₀s⟩ := ih hs₁
      obtain rfl := Option.some.inj (hd'.symm.trans hc)
      exact ⟨⟨d, c', hd, hc', hkeys.trans hkeys'⟩, s₀, hs₀, hs₁s.trans hs₀s⟩
    · cases hinput

theorem PeersStep.current (hstep : PeersStep input P P') (hinput : input ≠ none)
    (h : (P.link y).Straight P.selfId P.bootSalt y done) {c : Session}
    (hc : (P.link y).current = some c) :
    ∃ c', (P'.link y).current = some c' ∧ c'.SameKeys c := by
  have hstay : (P'.link y).current = (P.link y).current →
      ∃ c', (P'.link y).current = some c' ∧ c'.SameKeys c := fun heq => ⟨c, heq.trans hc, .refl c⟩
  cases hstep with
  | quiet same drawn link => exact hstay (by rw [link])
  | expire same drawn link => rcases link y with hl | hl <;> exact hstay (by rw [hl])
  | start x key same drawn vacant link =>
    obtain ⟨rfl, hl⟩ | ⟨-, hl⟩ := link_cases link y <;> exact hstay (by rw [hl])
  | drop x same drawn link =>
    obtain ⟨rfl, hl⟩ | ⟨-, hl⟩ := link_cases link y <;> exact hstay (by rw [hl])
  | touch x t replay same drawn grows link =>
    rcases link with ⟨hslot, link⟩ | ⟨hslot, link⟩
    all_goals obtain ⟨rfl, hl⟩ | ⟨-, hl⟩ := link_cases link y
    · obtain rfl := Option.some.inj (hslot.symm.trans hc)
      refine ⟨{ t with replay }, ?_, rfl, rfl, rfl⟩
      rw [hl]
    all_goals exact hstay (by rw [hl])
  | promote x t datagram same drawn pending link => exact absurd datagram hinput
  | respond x m salt now same received drawn remote payload allowed link =>
    obtain ⟨rfl, hl⟩ | ⟨-, hl⟩ := link_cases link y
    · refine hstay ?_
      rw [hl]
      simp only [hc]
    · exact hstay (by rw [hl])
  | complete x m salt now same received drawn hhs payload allowed link =>
    obtain ⟨rfl, hl⟩ | ⟨-, hl⟩ := link_cases link y
    · rw [(h.attempt _ hhs).1] at hc
      cases hc
    · exact hstay (by rw [hl])

theorem PeersSteps.current (hsteps : PeersSteps input P P') (hinput : input ≠ none)
    (h : (P.link y).Straight P.selfId P.bootSalt y done) {c : Session}
    (hc : (P.link y).current = some c) :
    ∃ c', (P'.link y).current = some c' ∧ c'.SameKeys c := by
  have hboth : (∃ done', (P'.link y).Straight P'.selfId P'.bootSalt y done') ∧
      ∃ c', (P'.link y).current = some c' ∧ c'.SameKeys c := by
    induction hsteps with
    | refl => exact ⟨⟨done, h⟩, c, hc, .refl c⟩
    | tail _ hstep ih =>
      obtain ⟨⟨done₁, h₁⟩, c₁, hc₁, hkeys⟩ := ih
      obtain ⟨done', h', -⟩ := PeersStep.straight hstep h₁
      obtain ⟨c', hc', hkeys'⟩ := PeersStep.current hstep hinput h₁ hc₁
      exact ⟨⟨done', h'⟩, c', hc', hkeys'.trans hkeys⟩
  exact hboth.2

theorem PeersStep.occupied (hstep : PeersStep input P P') (hc : (P.link y).current ≠ none) :
    (P'.link y).current ≠ none := by
  cases hstep with
  | quiet same drawn link => rwa [link]
  | expire same drawn link => rcases link y with hl | hl <;> rwa [hl]
  | start x key same drawn vacant link =>
    obtain ⟨rfl, hl⟩ | ⟨-, hl⟩ := link_cases link y <;> rwa [hl]
  | drop x same drawn link =>
    obtain ⟨rfl, hl⟩ | ⟨-, hl⟩ := link_cases link y <;> rwa [hl]
  | touch x t replay same drawn grows link =>
    rcases link with ⟨hslot, link⟩ | ⟨hslot, link⟩
    all_goals obtain ⟨rfl, hl⟩ | ⟨-, hl⟩ := link_cases link y
    · rw [hl]
      exact Option.some_ne_none _
    all_goals rwa [hl]
  | promote x t datagram same drawn pending link =>
    obtain ⟨rfl, hl⟩ | ⟨-, hl⟩ := link_cases link y
    · rw [hl]
      exact Option.some_ne_none _
    · rwa [hl]
  | respond x m salt now same received drawn remote payload allowed link =>
    obtain ⟨rfl, hl⟩ | ⟨-, hl⟩ := link_cases link y
    · rw [hl]
      split <;> exact Option.some_ne_none _
    · rwa [hl]
  | complete x m salt now same received drawn hhs payload allowed link =>
    obtain ⟨rfl, hl⟩ | ⟨-, hl⟩ := link_cases link y
    · rw [hl]
      exact Option.some_ne_none _
    · rwa [hl]

theorem PeersSteps.occupied (hsteps : PeersSteps input P P') (hc : (P.link y).current ≠ none) :
    (P'.link y).current ≠ none := by
  induction hsteps with
  | refl => exact hc
  | tail _ hstep ih => exact PeersStep.occupied hstep ih

theorem PeersStep.drawn_le (hstep : PeersStep input P P') : P.drawn ≤ P'.drawn := by
  cases hstep <;> omega

theorem PeersSteps.drawn_le (hsteps : PeersSteps input P P') : P.drawn ≤ P'.drawn := by
  induction hsteps with
  | refl => exact le_rfl
  | tail _ hstep ih => exact ih.trans (PeersStep.drawn_le hstep)

/-! ## What is sent -/

variable {body : HandshakeBody} {file : Option AllowlistFile} {kind : ℕ} {now : ℕ} {peer p : NodeId}

theorem startInitiator_sent (h : .send p kind body ∈ (P.startInitiator now file peer).2) :
    ∃ m, body = .init m ∧ m.Of P.selfId P.bootSalt := by
  dsimp only [startInitiator] at h
  split at h
  · simp at h
  · rename_i P₁ key hauth
    obtain ⟨hsame, -⟩ := authorizedKey_spec hauth
    cases List.mem_singleton.mp h
    exact ⟨_, rfl, hsame.bootSalt, by dsimp only; rw [hsame.selfId, hsame.bootSalt]; rfl⟩

theorem initiate_sent (h : .send p kind body ∈ (P.initiate now file peer).2) :
    ∃ m, body = .init m ∧ m.Of P.selfId P.bootSalt := by
  unfold initiate at h
  split at h
  · simp at h
  dsimp only at h
  split at h
  · cases h
  · obtain ⟨m, rfl, hof⟩ := startInitiator_sent h
    exact ⟨m, rfl, hof.process, hof.payload⟩

theorem startInitiator_same (P : Peers) (now : ℕ) (file : Option AllowlistFile) (peer : NodeId) :
    P.Same (P.startInitiator now file peer).1 := by
  dsimp only [startInitiator]
  split
  all_goals
    rename_i P₁ _ hauth
    obtain ⟨hsame, -⟩ := authorizedKey_spec hauth
    exact ⟨hsame.identity, hsame.selfId, hsame.bootSalt⟩

theorem restart_sent (peers : List NodeId) (r : Peers × List HandshakeAction) (hsame : P.Same r.1)
    (hr : .send p kind body ∈ r.2 → ∃ m, body = .init m ∧ m.Of P.selfId P.bootSalt)
    (h : .send p kind body ∈ (peers.foldl (fun r peer =>
      ((r.1.startInitiator now file peer).1, r.2 ++ (r.1.startInitiator now file peer).2)) r).2) :
    ∃ m, body = .init m ∧ m.Of P.selfId P.bootSalt := by
  induction peers generalizing r with
  | nil => exact hr h
  | cons peer peers ih =>
    rw [List.foldl_cons] at h
    refine ih ((r.1.startInitiator now file peer).1, r.2 ++ (r.1.startInitiator now file peer).2)
      (hsame.trans (startInitiator_same r.1 now file peer)) (fun hmem => ?_) h
    rcases List.mem_append.mp hmem with hmem | hmem
    · exact hr hmem
    · obtain ⟨m, rfl, hof⟩ := startInitiator_sent hmem
      exact ⟨m, rfl, hof.process.trans hsame.bootSalt, by rw [hof.payload, hsame.selfId, hsame.bootSalt]⟩

theorem tickEntry_sent {e : PeerEntry} (h : .send p kind body ∈ (tickEntry now peer e).2.1) :
    ∃ m, body = .init m ∧ e.hs = some m := by
  unfold tickEntry at h
  dsimp only at h
  split_ifs at h <;> split at h <;> simp_all
  all_goals grind

theorem tick_sent (hown : ∀ y m, (P.link y).hs = some m → m.Of P.selfId P.bootSalt)
    (h : .send p kind body ∈ (P.tick now file).2) :
    ∃ m, body = .init m ∧ m.Of P.selfId P.bootSalt := by
  unfold tick at h
  dsimp only at h
  have hsame : P.Same { P.allowlistReloadIfStale now file with
      entry := fun peer => (tickEntry now peer ((P.allowlistReloadIfStale now file).entry peer)).1 } :=
    ⟨rfl, rfl, rfl⟩
  refine restart_sent _ (_, _) hsame (fun hmem => ?_) h
  obtain ⟨y, -, hy⟩ := List.mem_flatMap.mp hmem
  obtain ⟨m, rfl, hm⟩ := tickEntry_sent hy
  exact ⟨m, rfl, hown y m hm⟩

theorem onMessage_sent {sender p : NodeId} {kind k : ℕ} {body sent : HandshakeBody}
    (h : .send p k sent ∈ (P.onMessage now file sender kind body).2) :
    ∃ m salt, sent = .resp (P.ownResp m) ∧ decodePayload m.payload = some (p, salt) ∧
      ((P.onMessage now file sender kind body).1.link p).current ≠ none ∧
      (P.onMessage now file sender kind body).1.drawn = P.drawn + 1 := by
  unfold onMessage at h ⊢
  split_ifs at h ⊢
  · simp at h
  · generalize hr : P.onInit now file sender body = r at h ⊢
    unfold onInit at hr
    split at hr
    · subst hr
      simp at h
    rename_i P₁ expected hauth
    obtain ⟨hsame, hdrawn, -, -⟩ := authorizedKey_spec hauth
    dsimp only at hr
    split at hr
    · subst hr
      cases h
    split at hr
    · subst hr
      simp at h
    rename_i m hread
    split at hr
    · subst hr
      simp at h
    rename_i claimed salt hpayload
    split at hr
    · subst hr
      simp at h
    rename_i hid
    split at hr
    · subst hr
      simp at h
    obtain rfl := not_not.mp hid
    subst hr
    simp only [List.mem_cons, HandshakeAction.send.injEq, reduceCtorEq, List.not_mem_nil, or_false] at h
    obtain ⟨rfl, rfl, rfl⟩ := h
    refine ⟨m, salt, ?_, hpayload, ?_, ?_⟩
    · unfold ownResp
      rw [hsame.selfId, hsame.bootSalt, hdrawn]
    · rw [link_setEntry, Function.update_self]
      dsimp only
      unfold PeerEntry.answered
      split <;> simp_all
    · rw [← hdrawn]
      rfl
  · unfold onResp at h
    dsimp only at h
    split at h
    · cases h
    split at h
    · simp at h
    split at h
    · simp at h
    split at h
    · simp at h
    split at h <;> simp at h
  · cases h

end Peers

end UltimaCluster
