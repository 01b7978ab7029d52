/-
  The keys and the windows of the sessions of a process.

  A process seals only under keys that it has a part in (`sealer`), and no two of
  its sessions ever have the same key: each has a key pair of its own that was
  drawn for it (`Ledger`).
-/
import UltimaCluster.HandshakeAuth
import UltimaCluster.Transport

namespace UltimaCluster

open Function (update update_of_ne update_self)

/-- The process that seals under a key. -/
def AesKey.sealer : AesKey → BootSalt
  | .transport h true => h.init.ephemeral.process
  | .transport h false => h.ephemeral.process
  | .send _ _ salt => salt

/-- The key pair of the process that opens under a session key: the responder
    opens what goes to it. -/
def AesKey.ownIndex : AesKey → Option ℕ
  | .transport h true => some h.ephemeral.index
  | .transport h false => some h.init.ephemeral.index
  | .send _ _ _ => none

def Link.slot (l : Link) (current : Bool) : Option Session :=
  if current then l.current else l.pending

namespace Peers

variable {P P' : Peers} {input : Option (NodeId × HandshakeBody)}

/-- Where each key pair of the process is: in an attempt or in a slot of a
    peer.  `A` are the keys and counters under which datagrams were opened. -/
structure Ledger (A : AesKey → ℕ → Prop) (P : Peers) (place : ℕ → Option (NodeId × Option Bool)) :
    Prop where
  slot : ∀ x b s, (P.link x).slot b = some s →
    ∃ i, s.openKey.ownIndex = some i ∧ place i = some (x, some b)
  hs : ∀ x m, (P.link x).hs = some m → place m.ephemeral.index = some (x, none)
  drawn : ∀ i, place i ≠ none → i < P.drawn
  opened : ∀ k c, A k c → ∀ i, k.ownIndex = some i → i < P.drawn ∧ ∀ x, place i ≠ some (x, none)
  seen : ∀ x b s, (P.link x).slot b = some s → ∀ c, A s.openKey c → s.replay.Seen c
  sealer : ∀ x b s, (P.link x).slot b = some s → s.sealKey.sealer = P.bootSalt
  own : ∀ x m, (P.link x).hs = some m → m.ephemeral.process = P.bootSalt

variable {A : AesKey → ℕ → Prop} {place : ℕ → Option (NodeId × Option Bool)}

theorem Ledger.shrink (h : Ledger A P place) (hsame : P.Same P') (hdrawn : P'.drawn = P.drawn)
    (hslot : ∀ x b s', (P'.link x).slot b = some s' → ∃ s, (P.link x).slot b = some s ∧
      s'.sealKey = s.sealKey ∧ s'.openKey = s.openKey ∧ ∀ c, s.replay.Seen c → s'.replay.Seen c)
    (hhs : ∀ x m, (P'.link x).hs = some m → (P.link x).hs = some m) : Ledger A P' place where
  slot x b s' hs' := by
    obtain ⟨s, hs, -, hopen, -⟩ := hslot x b s' hs'
    rw [hopen]
    exact h.slot x b s hs
  hs x m hm := h.hs x m (hhs x m hm)
  drawn i hi := hdrawn ▸ h.drawn i hi
  opened k c hA i hi := hdrawn ▸ h.opened k c hA i hi
  seen x b s' hs' c hA := by
    obtain ⟨s, hs, -, hopen, hseen⟩ := hslot x b s' hs'
    rw [hopen] at hA
    exact hseen c (h.seen x b s hs c hA)
  sealer x b s' hs' := by
    obtain ⟨s, hs, hseal, -, -⟩ := hslot x b s' hs'
    rw [hseal, hsame.bootSalt]
    exact h.sealer x b s hs
  own x m hm := hsame.bootSalt ▸ h.own x m (hhs x m hm)

theorem Ledger.enter (h : Ledger A P place) (hsame : P.Same P') (hdrawn : P.drawn ≤ P'.drawn)
    (x : NodeId) (b : Bool) {i : ℕ} {t : Session} (hidx : t.openKey.ownIndex = some i)
    (hseal : t.sealKey.sealer = P.bootSalt) (hi : i < P'.drawn)
    (hnew : (P'.link x).slot b = some t) (hseen : ∀ c, A t.openKey c → t.replay.Seen c)
    (hslot : ∀ y b' s, (P'.link y).slot b' = some s → (y = x ∧ b' = b) ∨
      ((P.link y).slot b' = some s ∧ place i ≠ some (y, some b')))
    (hhs : ∀ y m, (P'.link y).hs = some m → (P.link y).hs = some m ∧ place i ≠ some (y, none)) :
    Ledger A P' (update place i (some (x, some b))) where
  slot y b' s hs := by
    rcases hslot y b' s hs with ⟨rfl, rfl⟩ | ⟨hold, hne⟩
    · obtain rfl := Option.some.inj (hnew.symm.trans hs)
      exact ⟨i, hidx, update_self _ _ _⟩
    · obtain ⟨j, hj, hplace⟩ := h.slot y b' s hold
      refine ⟨j, hj, ?_⟩
      rw [update_of_ne, hplace]
      rintro rfl
      exact hne hplace
  hs y m hm := by
    obtain ⟨hold, hne⟩ := hhs y m hm
    have hplace := h.hs y m hold
    rw [update_of_ne, hplace]
    rintro rfl
    exact hne hplace
  drawn j hj := by
    by_cases hji : j = i
    · exact hji ▸ hi
    · rw [update_of_ne hji] at hj
      exact (h.drawn j hj).trans_le hdrawn
  opened k c hA j hj := by
    obtain ⟨hlt, hne⟩ := h.opened k c hA j hj
    refine ⟨hlt.trans_le hdrawn, fun y => ?_⟩
    by_cases hji : j = i
    · rw [hji, update_self]
      simp
    · rw [update_of_ne hji]
      exact hne y
  seen y b' s hs c hA := by
    rcases hslot y b' s hs with ⟨rfl, rfl⟩ | ⟨hold, -⟩
    · obtain rfl := Option.some.inj (hnew.symm.trans hs)
      exact hseen c hA
    · exact h.seen y b' s hold c hA
  sealer y b' s hs := by
    rw [hsame.bootSalt]
    rcases hslot y b' s hs with ⟨rfl, rfl⟩ | ⟨hold, -⟩
    · obtain rfl := Option.some.inj (hnew.symm.trans hs)
      exact hseal
    · exact h.sealer y b' s hold
  own y m hm := hsame.bootSalt ▸ h.own y m (hhs y m hm).1

theorem Ledger.start (h : Ledger A P place) (hsame : P.Same P') (hdrawn : P'.drawn = P.drawn + 1)
    {x : NodeId} {m : InitMessage} (hm : m.ephemeral = ⟨P.bootSalt, P.drawn⟩)
    (hlink : P'.link = update P.link x { P.link x with hs := some m }) :
    Ledger A P' (update place P.drawn (some (x, none))) := by
  have hslot : ∀ y b, (P'.link y).slot b = (P.link y).slot b := by
    intro y b
    rw [hlink]
    by_cases hy : y = x
    · subst hy
      rw [update_self]
      rfl
    · rw [update_of_ne hy]
  have hplace : ∀ j v, place j = some v →
      update place P.drawn (some (x, none)) j = some v := by
    intro j v hj
    have := h.drawn j (by simp [hj])
    rw [update_of_ne (by omega), hj]
  have hhs : ∀ y m', (P'.link y).hs = some m' → (P.link y).hs = some m' ∨ (y = x ∧ m' = m) := by
    intro y m' hm'
    rw [hlink] at hm'
    by_cases hy : y = x
    · subst hy
      rw [update_self] at hm'
      exact .inr ⟨rfl, (Option.some.inj hm').symm⟩
    · rw [update_of_ne hy] at hm'
      exact .inl hm'
  exact {
    slot := by
      intro y b s hs
      obtain ⟨i, hi, hpl⟩ := h.slot y b s (hslot y b ▸ hs)
      exact ⟨i, hi, hplace i _ hpl⟩
    hs := by
      intro y m' hm'
      rcases hhs y m' hm' with hold | ⟨rfl, rfl⟩
      · exact hplace _ _ (h.hs y m' hold)
      · rw [hm]
        exact update_self _ _ _
    drawn := by
      intro j hj
      by_cases hjd : j = P.drawn
      · omega
      · rw [update_of_ne hjd] at hj
        have := h.drawn j hj
        omega
    opened := by
      intro k c hA j hj
      obtain ⟨hlt, hne⟩ := h.opened k c hA j hj
      refine ⟨by omega, fun y => ?_⟩
      rw [update_of_ne (by omega)]
      exact hne y
    seen := fun y b s hs c hA => h.seen y b s (hslot y b ▸ hs) c hA
    sealer := fun y b s hs => hsame.bootSalt ▸ h.sealer y b s (hslot y b ▸ hs)
    own := by
      intro y m' hm'
      rw [hsame.bootSalt]
      rcases hhs y m' hm' with hold | ⟨rfl, rfl⟩
      · exact h.own y m' hold
      · rw [hm] }

theorem PeersStep.ledger (hstep : PeersStep input P P') (h : Ledger A P place) :
    ∃ place', Ledger A P' place' := by
  have hid : ∀ s : Session, s.sealKey = s.sealKey ∧ s.openKey = s.openKey ∧
      ∀ c, s.replay.Seen c → s.replay.Seen c := fun s => ⟨rfl, rfl, fun _ h => h⟩
  cases hstep with
  | quiet same drawn link =>
    refine ⟨place, h.shrink same drawn (fun x b s hs => ⟨s, link ▸ hs, hid s⟩) fun x m hm => link ▸ hm⟩
  | expire same drawn link =>
    refine ⟨place, h.shrink same drawn (fun x b s hs => ⟨s, ?_, hid s⟩) fun x m hm => ?_⟩
    · rcases link x with hl | hl
      · exact hl ▸ hs
      · rw [hl] at hs
        cases b with
        | true => exact hs
        | false => cases hs
    · rcases link x with hl | hl <;> rw [hl] at hm <;> exact hm
  | start x key same drawn vacant link => exact ⟨_, h.start same drawn rfl link⟩
  | drop x same drawn link =>
    refine ⟨place, h.shrink same drawn (fun y b s hs => ⟨s, ?_, hid s⟩) fun y m hm => ?_⟩
    all_goals obtain ⟨rfl, hl⟩ | ⟨-, hl⟩ := link_cases link y
    · rw [hl] at hs
      exact hs
    · exact hl ▸ hs
    · rw [hl] at hm
      cases hm
    · exact hl ▸ hm
  | touch x t replay same drawn grows link =>
    rcases link with ⟨hslot, link⟩ | ⟨hslot, link⟩
    all_goals refine ⟨place, h.shrink same drawn (fun y b s hs => ?_) fun y m hm => ?_⟩
    all_goals obtain ⟨rfl, hl⟩ | ⟨-, hl⟩ := link_cases link y
    · rw [hl] at hs
      cases b with
      | true =>
        obtain rfl := Option.some.inj hs
        exact ⟨t, hslot, rfl, rfl, grows⟩
      | false => exact ⟨s, hs, hid s⟩
    · exact ⟨s, hl ▸ hs, hid s⟩
    · rw [hl] at hm
      exact hm
    · exact hl ▸ hm
    · rw [hl] at hs
      cases b with
      | true => exact ⟨s, hs, hid s⟩
      | false =>
        obtain rfl := Option.some.inj hs
        exact ⟨t, hslot, rfl, rfl, grows⟩
    · exact ⟨s, hl ▸ hs, hid s⟩
    · rw [hl] at hm
      exact hm
    · exact hl ▸ hm
  | promote x t datagram same drawn pending link =>
    have ht : (P.link x).slot false = some t := pending
    obtain ⟨i, hi, hplace⟩ := h.slot x false t ht
    refine ⟨_, h.enter same drawn.ge x true hi (h.sealer x false t ht)
      (drawn ▸ h.drawn i (by simp [hplace])) ?_ (h.seen x false t ht) ?_ ?_⟩
    · rw [link, update_self]
      rfl
    · intro y b s hs
      obtain ⟨rfl, hl⟩ | ⟨hy, hl⟩ := link_cases link y
      · rw [hl] at hs
        cases b with
        | true => exact .inl ⟨rfl, rfl⟩
        | false => cases hs
      · refine .inr ⟨hl ▸ hs, ?_⟩
        rw [hplace]
        simp [Ne.symm hy]
    · intro y m hm
      obtain ⟨rfl, hl⟩ | ⟨hy, hl⟩ := link_cases link y
      · rw [hl] at hm
        exact ⟨hm, by simp [hplace]⟩
      · exact ⟨hl ▸ hm, by simp [hplace]⟩
  | respond x m salt now same received drawn remote payload allowed link =>
    -- the new session is current where there was none, and pending otherwise
    have hfree : place P.drawn = none := by
      by_contra hne
      exact absurd (h.drawn _ hne) (lt_irrefl _)
    have hnew : (P'.link x).slot (P.link x).current.isNone =
        some (.fromFinishedHandshake (P.ownResp m) false salt now) := by
      rw [link, update_self]
      cases hcur : (P.link x).current <;> rfl
    have hother : ∀ b s, (P'.link x).slot b = some s → b ≠ (P.link x).current.isNone →
        (P.link x).slot b = some s := by
      intro b s hs hb
      rw [link, update_self] at hs
      cases hcur : (P.link x).current with
      | none =>
        rw [hcur] at hs hb
        cases b with
        | true => exact absurd rfl hb
        | false => exact hs
      | some c =>
        rw [hcur] at hs hb
        cases b with
        | true => exact hcur.trans hs
        | false => exact absurd rfl hb
    refine ⟨_, h.enter same (by omega) x _ (i := P.drawn) rfl rfl (by omega) hnew ?_ ?_ ?_⟩
    · intro c hA
      exact absurd (h.opened _ c hA P.drawn rfl).1 (lt_irrefl _)
    · intro y b s hs
      obtain ⟨rfl, -⟩ | ⟨hy, hl⟩ := link_cases link y
      · by_cases hb : b = (P.link y).current.isNone
        · exact .inl ⟨rfl, hb⟩
        · exact .inr ⟨hother b s hs hb, by simp [hfree]⟩
      · exact .inr ⟨hl ▸ hs, by simp [hfree]⟩
    · intro y m' hm'
      obtain ⟨rfl, hl⟩ | ⟨hy, hl⟩ := link_cases link y
      · rw [hl] at hm'
        dsimp only at hm'
        split at hm' <;> cases hm'
      · exact ⟨hl ▸ hm', by simp [hfree]⟩
  | complete x m salt now same received drawn hhs payload allowed link =>
    have hplace := h.hs x m.init hhs
    refine ⟨_, h.enter same drawn.ge x true (t := .fromFinishedHandshake m true salt now)
      rfl (h.own x m.init hhs) (drawn ▸ h.drawn _ (by simp [hplace])) ?_ ?_ ?_ ?_⟩
    · rw [link, update_self]
      rfl
    · intro c hA
      exact absurd hplace ((h.opened _ c hA _ rfl).2 x)
    · intro y b s hs
      obtain ⟨rfl, hl⟩ | ⟨hy, hl⟩ := link_cases link y
      · rw [hl] at hs
        cases b with
        | true => exact .inl ⟨rfl, rfl⟩
        | false => cases hs
      · refine .inr ⟨hl ▸ hs, ?_⟩
        rw [hplace]
        simp
    · intro y m' hm'
      obtain ⟨rfl, hl⟩ | ⟨hy, hl⟩ := link_cases link y
      · rw [hl] at hm'
        cases hm'
      · refine ⟨hl ▸ hm', ?_⟩
        rw [hplace]
        simp [Ne.symm hy]

theorem PeersSteps.ledger (hsteps : PeersSteps input P P') (h : Ledger A P place) :
    ∃ place', Ledger A P' place' := by
  induction hsteps with
  | refl => exact ⟨place, h⟩
  | tail _ hstep ih =>
    obtain ⟨place', h'⟩ := ih
    exact PeersStep.ledger hstep h'

theorem ledger_new (identity : PublicKey) (allowlist : Allowlist) {selfId : NodeId}
    (hid : selfId < 2 ^ 32) (salt : BootSalt) :
    Ledger (fun _ _ => False) (new identity allowlist selfId hid salt) fun _ => none where
  slot x b s hs := by cases b <;> cases hs
  hs x m hm := by cases hm
  drawn i hi := absurd rfl hi
  opened k c hA := hA.elim
  seen x b s hs c hA := hA.elim
  sealer x b s hs := by cases b <;> cases hs
  own x m hm := by cases hm

/-! ## Opens -/

theorem Ledger.widen {A' : AesKey → ℕ → Prop} (h : Ledger A P place)
    (hA : ∀ k c, A' k c → A k c ∨ k.ownIndex = none) : Ledger A' P place where
  slot := h.slot
  hs := h.hs
  drawn := h.drawn
  opened k c hk i hi := by
    rcases hA k c hk with hk | hnone
    · exact h.opened k c hk i hi
    · rw [hnone] at hi
      cases hi
  seen x b s hs c hk := by
    rcases hA _ c hk with hk | hnone
    · exact h.seen x b s hs c hk
    · obtain ⟨i, hi, -⟩ := h.slot x b s hs
      rw [hnone] at hi
      cases hi
  sealer := h.sealer
  own := h.own

theorem Ledger.accept (h : Ledger A P place) {x : NodeId} {b : Bool} {s : Session} {c : ℕ}
    (hs : (P.link x).slot b = some s) (hseen : s.replay.Seen c) :
    Ledger (fun k c' => A k c' ∨ (k = s.openKey ∧ c' = c)) P place where
  slot := h.slot
  hs := h.hs
  drawn := h.drawn
  opened k c' hA i hi := by
    rcases hA with hA | ⟨rfl, rfl⟩
    · exact h.opened k c' hA i hi
    · obtain ⟨j, hj, hplace⟩ := h.slot x b s hs
      obtain rfl := Option.some.inj (hj.symm.trans hi)
      exact ⟨h.drawn j (by simp [hplace]), fun y => by simp [hplace]⟩
  seen y b' s' hs' c' hA := by
    rcases hA with hA | ⟨hkey, rfl⟩
    · exact h.seen y b' s' hs' c' hA
    · -- the same key pair is in the same slot
      obtain ⟨i, hi, hplace⟩ := h.slot x b s hs
      obtain ⟨j, hj, hplace'⟩ := h.slot y b' s' hs'
      rw [hkey] at hj
      obtain rfl := Option.some.inj (hi.symm.trans hj)
      obtain ⟨rfl, hb⟩ := Prod.mk.inj (Option.some.inj (hplace.symm.trans hplace'))
      obtain rfl := Option.some.inj hb
      obtain rfl := Option.some.inj (hs.symm.trans hs')
      exact hseen
  sealer := h.sealer
  own := h.own

/-- A pairwise open that succeeds: the key is of a session, and the counter is
    new under it. -/
theorem Ledger.openPairwise (h : Ledger A P place) {peer : NodeId} {d : Datagram} {c : ℕ}
    (hok : (P.openPairwise peer d).2 = .ok c) :
    ∃ k bx, bx ∈ d.box ∧ bx.key = k ∧ k.ownIndex ≠ none ∧ ¬ A k d.counter ∧
      ∃ place', Ledger (fun k' c' => A k' c' ∨ (k' = k ∧ c' = d.counter))
        (P.openPairwise peer d).1 place' := by
  have hsteps : PeersSteps none P (P.openPairwise peer d).1 := openPairwise_steps P peer d
  obtain ⟨place', h'⟩ := PeersSteps.ledger hsteps h
  have hopened := openPairwise_opened P peer d
  generalize P.openPairwise peer d = r at hok hopened h'
  -- the session, before and after
  obtain ⟨s, b, b', p, hslot, hopen, hfresh, hslot'⟩ : ∃ s b b' p, (P.link peer).slot b = some s ∧
      openWith d s.openKey = .ok (d.counter, p) ∧ (s.replay.checkAndSet d.counter).2 = true ∧
      (r.1.link peer).slot b' = some { s with replay := (s.replay.checkAndSet d.counter).1 } := by
    cases hopened with
    | refused err => cases hok
    | current s p slot opens =>
      refine ⟨s, true, true, p, slot, opens, ?_, ?_⟩
      · rw [replayCheck_eq] at hok
        cases hf : (s.replay.checkAndSet d.counter).2 with
        | true => rfl
        | false =>
          rw [hf] at hok
          cases hok
      · rw [link_setEntry, update_self, replayCheck_eq]
        rfl
    | promoted s p slot opens fresh =>
      refine ⟨s, false, true, p, slot, opens, fresh, ?_⟩
      rw [link_setEntry, update_self, replayCheck_eq]
      rfl
    | replayed s p err slot opens => cases hok
  obtain ⟨-, bx, hbx, hkey⟩ := openWith_ok hopen
  have haccept := h'.accept hslot' (ReplayWindow.seen_checkAndSet hfresh)
  refine ⟨s.openKey, bx, hbx, hkey, ?_, ?_, place', haccept⟩
  · obtain ⟨i, hi, -⟩ := h.slot peer b s hslot
    simp [hi]
  · intro hA
    have hseen := h.seen peer b s hslot _ hA
    rw [ReplayWindow.checkAndSet_seen hseen] at hfresh
    cases hfresh

end Peers

end UltimaCluster
