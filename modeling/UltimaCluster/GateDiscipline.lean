/-
  The discipline of the intake gate over whole runs: the calls of the consensus
  agent, the acks and the steps of the archive agent keep `GateInv`.
-/
import UltimaCluster.IntakeGate
import UltimaCluster.Run

namespace UltimaCluster

open ElectionSm (adoptIfHigher adoptSnapshotLineage andThen_snd finishValidation_out issueTruncate
  noCommonPrefixReason reconcileTermMap refuted stepBody)

namespace NodeAgents

open ElectionSm (Boot genesisNode genesisNode_boot)

variable {sm s s' : ElectionSm} {n : NodeAgents}

/-! ## The calls of the consensus agent -/

/-- `feed` of an event that is no map. -/
theorem feed_eq (n : NodeAgents) {ev : Event} (hev : ∀ term entries, ev ≠ .termMapReceived term entries) :
    n.feed ev = execAll { n with sm := (n.sm.step ev).1 } (n.sm.step ev).2 := by
  cases ev with
  | termMapReceived term entries => exact absurd rfl (hev term entries)
  | _ => rfl

theorem exec_sm (n : NodeAgents) (a : Action) : (n.exec a).sm = n.sm := by
  cases a with
  | becomeFollower term leader =>
    simp only [exec, closeGate]
    split <;> rfl
  | _ => rfl

theorem execAll_sm (n : NodeAgents) (out : List Action) : (n.execAll out).sm = n.sm := by
  induction out generalizing n with
  | nil => rfl
  | cons a out ih => exact (ih (n.exec a)).trans (exec_sm n a)

/-- The node's invariant: `GateInv` at its own state machine. -/
def GateOk (sm : ElectionSm) (n : NodeAgents) : Prop := GateInv sm n.sm n

theorem GateInv.at_sm (hi : GateInv sm s n) (hs : n.sm = s) : GateOk sm n := by
  subst hs
  exact hi

theorem GateOk.of_parts {n' : NodeAgents} (hi : GateOk sm n) (hs : n'.sm = n.sm)
    (hp : n'.gateParts = n.gateParts) : GateOk sm n' := by
  unfold GateOk
  rw [hs]
  exact GateInv.of_parts hi hp

theorem GateOk.feed_plain (hi : GateOk sm n) {ev : Event} (hev : Plain ev) :
    GateOk sm (n.feed ev) := by
  rw [feed_eq n (by rintro term entries rfl; exact hev)]
  unfold GateOk
  rw [execAll_sm]
  have hn : GateInv sm n.sm { n with sm := (n.sm.step ev).1 } := GateInv.of_parts hi rfl
  exact hn.steps (ElectionSm.step_steps n.sm ev) hev

theorem reconcileTermMap_cases (entries : TermMap) (s : ElectionSm) :
    (s.refuted entries = none ∧ (∀ a ∈ (s.reconcileTermMap entries).2, Neutral a) ∧
      (s.reconcileTermMap entries).1.currentTerm = s.currentTerm ∧
      (s.reconcileTermMap entries).1.role = s.role ∧
      (s.reconcileTermMap entries).1.truncatingEpoch = s.truncatingEpoch ∧
      (s.reconcileTermMap entries).1.newTermPos = s.newTermPos) ∨
    (∃ pre epoch target newMap, s.refuted entries = some target ∧
      (s.reconcileTermMap entries).2 = pre ++ [.truncate epoch target newMap] ∧
      (∀ a ∈ pre, a = .countWipe) ∧ (s.reconcileTermMap entries).1.currentTerm = s.currentTerm ∧
      (s.reconcileTermMap entries).1.role = s.role ∧
      (s.reconcileTermMap entries).1.truncatingEpoch = some epoch ∧
      (s.reconcileTermMap entries).1.newTermPos = s.newTermPos) ∨
    (s.reconcileTermMap entries) = (s, [.fatal noCommonPrefixReason]) := by
  cases hrec : reconcile s.termMap s.durable entries with
  | noCommonPrefix =>
    have href : s.refuted entries = some 0 := by simp only [refuted, hrec]
    by_cases hw : s.wipeOnNoCommonPrefix
    · refine .inr (.inl ⟨[.countWipe], s.truncationEpoch + 1, 0, [], href, ?_⟩)
      simp [reconcileTermMap, hrec, hw, issueTruncate]
    · refine .inr (.inr ?_)
      simp [reconcileTermMap, hrec, hw]
  | ok o =>
    by_cases hlt : o.validUpTo < s.durable
    · have href : s.refuted entries = some o.validUpTo := by
        simp [refuted, hrec, hlt]
      refine .inr (.inl ⟨[], s.truncationEpoch + 1, o.validUpTo, o.newMap, href, ?_⟩)
      simp [reconcileTermMap, hrec, hlt, issueTruncate]
    · have href : s.refuted entries = none := by
        simp [refuted, hrec, hlt]
      obtain ⟨c, src, hf⟩ := s.reconcileTermMap_clean hrec (not_lt.mp hlt)
      refine .inl ⟨href, ?_, ?_⟩
      · intro a ha
        simp only [reconcileTermMap, hrec, hlt, if_false, andThen_snd, List.mem_append] at ha
        rcases ha with (ha | ha) | ha
        · obtain ⟨_, rfl⟩ := ElectionSm.advanceGossipCommit_out _ a ha
          trivial
        · obtain ⟨_, rfl⟩ := finishValidation_out _ a ha
          trivial
        · split at ha
          · cases ha
          · rw [List.mem_singleton.mp ha]
            trivial
      · rw [hf]
        exact ⟨rfl, rfl, rfl, rfl⟩

theorem exec_panicked {a : Action} (ha : ∀ r, a ≠ .fatal r) (n : NodeAgents) :
    (n.exec a).panicked = n.panicked := by
  cases a with
  | fatal r => exact absurd rfl (ha r)
  | becomeFollower term leader =>
    simp only [exec, closeGate]
    split <;> rfl
  | _ => rfl

theorem execAll_panicked {out : List Action} (ho : ∀ r, .fatal r ∉ out) (n : NodeAgents) :
    (n.execAll out).panicked = n.panicked := by
  induction out generalizing n with
  | nil => rfl
  | cons a out ih =>
    have hcons : n.execAll (a :: out) = (n.exec a).execAll out := rfl
    rw [hcons, ih fun r hr => ho r (List.mem_cons_of_mem a hr)]
    refine exec_panicked ?_ n
    rintro r rfl
    exact ho r List.mem_cons_self

theorem GateInv.no_truncs (hi : GateInv sm s n) (hnone : n.pendingTruncation = none) :
    ∀ epoch target, .truncate epoch target ∉ n.unexecuted := by
  intro epoch target hm
  have hmem : epoch ∈ n.truncsInFlight := by
    refine List.mem_append_right _ ?_
    exact List.mem_filterMap.mpr ⟨_, hm, rfl⟩
  rw [hi.truncs, hnone] at hmem
  cases hmem

theorem GateInv.reopen (hi : GateInv sm s n) (htr : n.pendingTruncation = none)
    (ho : n.pendingLeaderOpen = none) (hs : Settled sm n.adoptedTerm n.marks) (aw : Bool) :
    GateInv sm s (openGate { n with awaitingReconcile := aw }) := by
  refine { hi with opening := ?_, gate_truncs := ?_, settled := ?_, due := ?_ }
  · intro o ho'
    have : n.pendingLeaderOpen = some o := ho'
    rw [ho] at this
    cases this
  · intro _ epoch target hm
    exact absurd hm (hi.no_truncs htr epoch target)
  · exact fun _ => hs
  · intro epoch he
    have : n.pendingTruncation = some epoch := he
    rw [htr] at this
    cases this

theorem feed_map_eq (n : NodeAgents) (term : ℕ) (entries : TermMap) {n' : NodeAgents}
    {out : List Action} (hout : (n.sm.step (.termMapReceived term entries)).2 = out)
    (hn : execAll { n with sm := (n.sm.step (.termMapReceived term entries)).1 } out = n') :
    n.feed (.termMapReceived term entries) =
      if n'.panicked then n' else reopenOnMap n.sm out term (noteMap n.sm term entries n') := by
  subst hn hout
  rfl

theorem GateOk.feed_dropped (hi : GateOk sm n) {term : ℕ} {entries : TermMap}
    (hproc : ¬ (n.sm.truncatingEpoch = none ∧ n.sm.currentTerm ≤ term)) :
    GateOk sm (n.feed (.termMapReceived term entries)) := by
  have hstep : n.sm.step (.termMapReceived term entries) = (n.sm, []) := by
    unfold ElectionSm.step
    by_cases hl : n.sm.truncatingEpoch = none
    · have hlt : term < n.sm.currentTerm := by
        by_contra hge
        exact hproc ⟨hl, not_lt.mp hge⟩
      simp [hl, stepBody, hlt]
    · have hsome := Option.isSome_iff_ne_none.mpr hl
      simp [hsome, Event.passesLatch]
  have hsame : execAll { n with sm := (n.sm.step (.termMapReceived term entries)).1 } [] = n := by
    rw [hstep]
    rfl
  rw [feed_map_eq n term entries (by rw [hstep]) hsame]
  have hno : reopenOnMap n.sm [] term (noteMap n.sm term entries n) = n := by
    rw [noteMap, if_neg hproc, reopenOnMap, if_neg]
    rintro ⟨-, -, hnone, hle, -⟩
    exact hproc ⟨hi.truncating ▸ hnone, hle⟩
  rw [hno, ite_self]
  exact hi

theorem GateOk.clean_map (hi : GateOk sm n) (before : ElectionSm) (out : List Action) (term : ℕ)
    (hterm : n.sm.currentTerm = term) :
    GateOk sm (reopenOnMap before out term { n with marks := .map term none :: n.marks }) := by
  have hinv := GateInv.mark hi (.map term none)
  unfold reopenOnMap
  split
  · rename_i hre
    obtain ⟨haw, -, hnone, -, hcur⟩ := hre
    have hcur : term = n.adoptedTerm := hterm.symm.trans hcur
    refine GateInv.reopen hinv hnone ?_ ?_ false
    · cases ho : n.pendingLeaderOpen with
      | none => rfl
      | some o =>
        have haw' : n.awaitingReconcile = true := haw
        rw [(hi.opening o ho).2.2.2.1] at haw'
        cases haw'
    · rw [hcur]
      rcases hi.known with hk | hk
      · exact .inr (.inl (.of_clean hk))
      · exact .inl (List.mem_cons_of_mem _ hk)
  · exact hinv

theorem GateOk.feed_map (hi : GateOk sm n) (hp : n.panicked = false) (term : ℕ)
    (entries : TermMap) : GateOk sm (n.feed (.termMapReceived term entries)) := by
  by_cases hproc : n.sm.truncatingEpoch = none ∧ n.sm.currentTerm ≤ term
  swap
  · exact hi.feed_dropped hproc
  obtain ⟨hidle, hle⟩ := hproc
  set s1 := (adoptIfHigher term n.sm).1 with hs1
  have hterm : s1.currentTerm = term := ElectionSm.adoptIfHigher_currentTerm (not_lt.mpr hle)
  have hstep : n.sm.step (.termMapReceived term entries) = ((s1.reconcileTermMap entries).1,
        (adoptIfHigher term n.sm).2 ++ (s1.reconcileTermMap entries).2) := by
    rw [ElectionSm.step_of_idle hidle]
    simp only [stepBody, not_lt.mpr hle, if_false]
    rfl
  have href : n.sm.refuted entries = s1.refuted entries := by
    simp [refuted, hs1]
  have hadopt : GateInv sm s1 (execAll { n with sm := (s1.reconcileTermMap entries).1 }
      (adoptIfHigher term n.sm).2) := by
    have hn : GateInv sm n.sm { n with sm := (s1.reconcileTermMap entries).1 } :=
      GateInv.of_parts hi rfl
    have hev : Plain (.leaderSeen term) := trivial
    exact hn.steps (ElectionSm.adoptIfHigher_steps rfl) hev
  have hidle1 : s1.truncatingEpoch = none :=
    (ElectionSm.adoptIfHigher_truncatingEpoch n.sm term).trans hidle
  have hnofatal : ∀ r, .fatal r ∉ (adoptIfHigher term n.sm).2 := by
    intro r hr
    unfold adoptIfHigher at hr
    split at hr
    · rcases ElectionSm.adoptTerm_out _ _ _ _ hr with hr | hr <;> cases hr
    · cases hr
  generalize hm : execAll { n with sm := (s1.reconcileTermMap entries).1 }
    (adoptIfHigher term n.sm).2 = m at hadopt
  have hmsm : m.sm = (s1.reconcileTermMap entries).1 := by rw [← hm, execAll_sm]
  have hmp : m.panicked = false := by
    rw [← hm, execAll_panicked hnofatal]
    exact hp
  have hnote : ∀ k : NodeAgents, noteMap n.sm term entries k =
      { k with marks := .map term (s1.refuted entries) :: k.marks } := by
    intro k
    rw [noteMap, if_pos ⟨hidle, hle⟩, href]
  have hexec : execAll { n with sm := (n.sm.step (.termMapReceived term entries)).1 }
      ((adoptIfHigher term n.sm).2 ++ (s1.reconcileTermMap entries).2) =
      m.execAll (s1.reconcileTermMap entries).2 := by
    rw [hstep, execAll_append, hm]
  rw [feed_map_eq n term entries (by rw [hstep]) hexec, hnote]
  rcases reconcileTermMap_cases entries s1 with
    ⟨hnone, hneu, hcur, hrole, htr, hpos⟩ |
    ⟨pre, epoch, target, newMap, hsome, hout, hpre, hcur, hrole, htr, hpos⟩ | hfatal
  · -- nothing refuted
    have hinv : GateOk sm (m.execAll (s1.reconcileTermMap entries).2) := by
      unfold GateOk
      rw [execAll_sm, hmsm]
      exact (hadopt.of_sm hcur hrole htr hpos).neutral hneu
    split
    · exact hinv
    · rw [hnone]
      refine hinv.clean_map n.sm _ term ?_
      rw [execAll_sm, hmsm, hcur, hterm]
  · -- a cut: the gate stays closed
    have hneu : ∀ a ∈ pre, Neutral a := by
      intro a ha
      rw [hpre a ha]
      trivial
    have hnf : ∀ r, .fatal r ∉ (s1.reconcileTermMap entries).2 := by
      rw [hout]
      intro r hr
      rcases List.mem_append.mp hr with hr | hr
      · cases hpre _ hr
      · rw [List.mem_singleton] at hr
        cases hr
    rw [if_neg (by rw [execAll_panicked hnf, hmp]; simp), hsome, hout, execAll_append]
    have hcut := (hadopt.neutral hneu).truncate epoch target newMap hidle1 hcur hrole htr hpos
    have hno : reopenOnMap n.sm ((adoptIfHigher term n.sm).2 ++
        (pre ++ [.truncate epoch target newMap])) term
        { (m.execAll pre).execAll [.truncate epoch target newMap] with
          marks := .map term (some target) ::
            ((m.execAll pre).execAll [.truncate epoch target newMap]).marks } =
        { (m.execAll pre).exec (.truncate epoch target newMap) with
          marks := .map term (some target) :: (m.execAll pre).marks } := by
      rw [reopenOnMap, if_neg]
      · rfl
      · rintro ⟨haw, -⟩
        cases haw
    rw [hno]
    unfold GateOk
    have hsm : ((m.execAll pre).exec (.truncate epoch target newMap)).sm =
        (s1.reconcileTermMap entries).1 := by rw [exec_sm, execAll_sm, hmsm]
    rw [hterm] at hcut
    exact hsm ▸ hcut
  · rw [hfatal]
    have hp' : (m.execAll [.fatal noCommonPrefixReason]).panicked = true := rfl
    rw [if_pos hp']
    have hneu : ∀ a ∈ [Action.fatal noCommonPrefixReason], Neutral a := by
      simp [Neutral]
    have hinv := hadopt.neutral hneu
    unfold GateOk
    rw [execAll_sm, hmsm, hfatal]
    exact hinv

/-! ## Acks -/

variable {epoch target : ℕ}

theorem GateInv.slot (hi : GateInv sm s n) (hslot : n.truncSlot = some (epoch, target)) :
    n.pendingTruncation = some epoch ∧ n.unexecuted.filterMap ArchiveCmd.truncEpoch? = [] := by
  have hts := hi.truncs
  rw [truncsInFlight, hslot] at hts
  cases hp : n.pendingTruncation with
  | none =>
    rw [hp] at hts
    cases hts
  | some e =>
    rw [hp] at hts
    simp only [Option.map_some, Option.toList_some, List.singleton_append, List.cons.injEq] at hts
    exact ⟨by rw [hts.1], hts.2⟩

theorem GateInv.acked (hi : GateInv sm s n) (hslot : n.truncSlot = some (epoch, target))
    (hterm : s'.currentTerm = s.currentTerm) (hrole : s'.role = s.role)
    (htr : s'.truncatingEpoch = none) (hpos : s'.newTermPos = s.newTermPos) :
    GateInv sm s' { n with truncSlot := none, pendingTruncation := none } := by
  constructor
  · exact hi.handle
  · rw [hterm]
    exact hi.adopted_le
  · exact htr.symm
  · exact hi.known
  · rw [hterm, hrole]
    exact hi.leading
  · rw [hrole, hpos]
    exact hi.opening
  · exact (hi.slot hslot).2
  · exact hi.collapses_nodup
  · exact hi.collapses_lt
  · exact hi.collapses
  · exact hi.gate_truncs
  · exact hi.settled
  · intro _ he
    cases he

/-- By the time of the ack the adopted term is settled, if it was the one the
    cut was for. -/
theorem GateInv.acked_settled (hi : GateInv sm s n) (hslot : n.truncSlot = some (epoch, target))
    (haw : n.awaitingReconcile = false) (hcur : s.currentTerm = n.adoptedTerm)
    (ho : n.pendingLeaderOpen = none) : Settled sm n.adoptedTerm n.marks := by
  obtain ⟨hp, hnone⟩ := hi.slot hslot
  rcases hi.due epoch hp haw hcur ho with hs | ⟨t, -, hc⟩
  · exact hs
  · have hmem : epoch ∈ n.unexecuted.filterMap ArchiveCmd.truncEpoch? :=
      List.mem_filterMap.mpr ⟨_, List.mem_append_right _ hc, rfl⟩
    rw [hnone] at hmem
    cases hmem

theorem step_truncated_frame {s : ElectionSm} (target : ℕ) (h : s.truncatingEpoch = some epoch) :
    (s.step (.truncated epoch target)).1.currentTerm = s.currentTerm ∧
      (s.step (.truncated epoch target)).1.role = s.role ∧
      (s.step (.truncated epoch target)).1.truncatingEpoch = none ∧
      (s.step (.truncated epoch target)).1.newTermPos = s.newTermPos ∧
      ∀ a ∈ (s.step (.truncated epoch target)).2, Neutral a := by
  rw [ElectionSm.step_truncated]
  obtain ⟨c, src, -, heq⟩ := s.onTruncated_matching target h
  obtain ⟨_, _, _, _, _, _, _, _, _, hr⟩ := ElectionSm.revertConfig_frame { s with
    durable := min s.durable target
    termMap := s.pendingNewMap.getD s.termMap, pendingNewMap := none, truncatingEpoch := none
    awaitingReconcile := false, commitSeen := c, commitSource := src } target
  rw [heq, hr]
  refine ⟨rfl, rfl, rfl, rfl, ?_⟩
  intro a ha
  unfold ElectionSm.onTruncated at ha
  dsimp only at ha
  rw [if_neg (not_not.mpr h), andThen_snd, List.mem_append] at ha
  rcases ha with ha | ha
  · obtain ⟨_, rfl⟩ := finishValidation_out _ a ha
    trivial
  · obtain ⟨_, _, _, _, rfl⟩ := ElectionSm.revertConfig_out _ _ a ha
    trivial

theorem gateParts_truncation {n m : NodeAgents} (h : n.gateParts = m.gateParts)
    (pending : Option ℕ) :
    ({ n with pendingTruncation := pending } : NodeAgents).gateParts =
      ({ m with pendingTruncation := pending } : NodeAgents).gateParts := by
  simp only [gateParts, Prod.mk.injEq] at h ⊢
  obtain ⟨h1, h2, h3, h4, -, h6, h7, h8, h9, h10, h11, h12, h13, h14⟩ := h
  exact ⟨h1, h2, h3, h4, trivial, h6, h7, h8, h9, h10, h11, h12, h13, h14⟩

theorem GateOk.truncAck (hi : GateOk sm n) (hslot : n.truncSlot = some (epoch, target)) :
    GateOk sm (onTruncated { n with truncSlot := none } epoch target) := by
  obtain ⟨hp, -⟩ := hi.slot hslot
  obtain ⟨hterm, hrole, htr, hpos, hneu⟩ :=
    step_truncated_frame target ((hi.truncating).symm.trans hp)
  set r := n.sm.step (.truncated epoch target) with hr
  set m := execAll { n with truncSlot := none, durableSeen := target, sm := r.1 } r.2 with hm
  have hparts : ({ m with pendingTruncation := none } : NodeAgents).gateParts =
      ({ n with truncSlot := none, pendingTruncation := none } : NodeAgents).gateParts :=
    gateParts_truncation (execAll_gateParts hneu _) none
  have hmsm : m.sm = r.1 := execAll_sm _ _
  have hinv : GateInv sm r.1 { m with pendingTruncation := none } :=
    (hi.acked hslot hterm hrole htr hpos).of_parts hparts
  have hfeed : onTruncated { n with truncSlot := none } epoch target =
      if m.awaitingReconcile = false ∧ m.sm.currentTerm = m.adoptedTerm
          ∧ m.pendingLeaderOpen = none then openGate { m with pendingTruncation := none }
      else { m with pendingTruncation := none } := by
    unfold onTruncated
    rw [if_pos hp, feed_eq _ (by simp)]
  rw [hfeed]
  split
  · rename_i hre
    obtain ⟨haw, hcur, ho⟩ := hre
    simp only [gateParts, Prod.mk.injEq] at hparts
    obtain ⟨-, -, h3, h4, -, h6, -, -, -, -, -, h12, -, -⟩ := hparts
    have h4 : m.awaitingReconcile = n.awaitingReconcile := h4
    have h3 : m.adoptedTerm = n.adoptedTerm := h3
    have h6 : m.pendingLeaderOpen = n.pendingLeaderOpen := h6
    have h12 : m.marks = n.marks := h12
    have hset : Settled sm m.adoptedTerm m.marks := by
      rw [h3, h12]
      refine hi.acked_settled hslot (h4 ▸ haw) ?_ (h6 ▸ ho)
      rw [← hterm, ← hmsm, ← h3]
      exact hcur
    have hre := hinv.reopen rfl ho hset false
    have haw' : ({ m with pendingTruncation := none, awaitingReconcile := false } : NodeAgents) =
        { m with pendingTruncation := none } := by rw [← haw]
    rw [haw'] at hre
    exact GateInv.at_sm hre hmsm
  · exact GateInv.at_sm hinv hmsm

theorem GateInv.takeCollapse (hi : GateInv sm s n) :
    GateInv sm s { n with collapseSlot := none } := by
  have hsub : ∀ epoch ∈ ({ n with collapseSlot := none } : NodeAgents).collapsesInFlight,
      epoch ∈ n.collapsesInFlight := by
    intro epoch he
    exact List.mem_append_right _ he
  refine { hi with collapses_nodup := ?_, collapses_lt := ?_, collapses := ?_ }
  · exact hi.collapses_nodup.sublist (List.sublist_append_right _ _)
  · exact fun epoch he => hi.collapses_lt epoch (hsub epoch he)
  · exact fun epoch he => hi.collapses epoch (hsub epoch he)

variable {o : PendingLeaderOpen}

theorem GateInv.opened (hi : GateInv sm s n) (hslot : n.collapseSlot = some (o.epoch, target))
    (ho : n.pendingLeaderOpen = some o) (hterm : s'.currentTerm = s.currentTerm)
    (hrole : s'.role = s.role) (htr : s'.truncatingEpoch = s.truncatingEpoch) :
    GateInv sm s' { n with collapseSlot := none, pendingLeaderOpen := none, intakeGate := true } := by
  obtain ⟨-, -, -, -, hlead, pre, post, heq, hpre, hpost⟩ := hi.opening o ho
  have hfresh : o.epoch ∉ n.unexecuted.filterMap ArchiveCmd.collapseEpoch? := by
    have hnd := hi.collapses_nodup
    rw [collapsesInFlight, hslot] at hnd
    exact (List.nodup_cons.mp hnd).1
  have hnil : pre = [] := by
    rcases hpre with hpre | ⟨q, t, hpre⟩
    · exact hpre
    · refine absurd ?_ hfresh
      rw [heq, hpre]
      exact List.mem_filterMap.mpr ⟨.collapse o.epoch t, by simp, rfl⟩
  have hall : ∀ epoch target, .truncate epoch target ∈ n.unexecuted → epoch ∈ n.duringOpen := by
    rw [heq, hnil]
    exact hpost
  have hin := hi.takeCollapse
  constructor
  · exact hi.handle
  · rw [hterm]
    exact hi.adopted_le
  · exact hi.truncating.trans htr.symm
  · exact hi.known
  · rw [hterm, hrole]
    exact hi.leading
  · intro o' ho'
    cases ho'
  · exact hi.truncs
  · exact hin.collapses_nodup
  · exact hin.collapses_lt
  · intro epoch he
    rcases hin.collapses epoch he with ha | ⟨o', ho', rfl⟩
    · exact .inl ha
    · have : n.pendingLeaderOpen = some o' := ho'
      rw [ho, Option.some.injEq] at this
      subst this
      exact absurd he hfresh
  · exact fun _ => hall
  · exact fun _ => .inl hlead
  · exact fun _ _ _ _ _ => .inl (.inl hlead)

theorem step_newTerm_frame (s : ElectionSm) (position : ℕ) :
    (s.step (.newTermAppended position)).1.currentTerm = s.currentTerm ∧
      (s.step (.newTermAppended position)).1.role = s.role ∧
      (s.step (.newTermAppended position)).1.truncatingEpoch = s.truncatingEpoch ∧
      (s.step (.newTermAppended position)).2 = [] := by
  unfold ElectionSm.step
  split
  · exact ⟨rfl, rfl, rfl, rfl⟩
  · simp only [stepBody]
    split <;> exact ⟨rfl, rfl, rfl, rfl⟩

theorem GateOk.collapseAck (capacity : ℕ) (hi : GateOk sm n)
    (hslot : n.collapseSlot = some (epoch, target)) :
    GateOk sm (onCollapsed capacity { n with collapseSlot := none } epoch target) := by
  have htake : GateOk sm { n with collapseSlot := none, durableSeen := target } :=
    GateOk.of_parts (n := { n with collapseSlot := none }) (GateInv.takeCollapse hi) rfl rfl
  unfold onCollapsed
  dsimp only
  split
  · exact htake
  · rename_i o ho
    split
    · exact htake
    · rename_i hne
      have heq : o.epoch = epoch := not_not.mp hne
      subst heq
      generalize hend : n.append + newTermPad capacity n.append + newTermLen = position
      obtain ⟨hterm, hrole, htr, hout⟩ := step_newTerm_frame n.sm position
      have hopen := GateInv.opened hi hslot ho hterm hrole htr
      rw [feed_eq _ (by simp)]
      rw [hout]
      exact GateInv.at_sm (hopen.of_parts rfl) rfl

/-! ## Commands -/

theorem Behind.append {cmds : List ArchiveCmd} {during : List ℕ} (hb : Behind o cmds during)
    {cmd : ArchiveCmd} (hc : cmd.truncEpoch? = none) : Behind o (cmds ++ [cmd]) during := by
  obtain ⟨pre, post, rfl, hpre, hpost⟩ := hb
  refine ⟨pre, post ++ [cmd], List.append_assoc _ _ _, hpre, ?_⟩
  intro epoch target ht
  rcases List.mem_append.mp ht with ht | ht
  · exact hpost epoch target ht
  · rw [← List.mem_singleton.mp ht] at hc
    cases hc

theorem Behind.suffix {gone cmds : List ArchiveCmd} {during : List ℕ}
    (hb : Behind o (gone ++ cmds) during) : Behind o cmds during := by
  obtain ⟨pre, post, heq, hpre, hpost⟩ := hb
  rcases List.append_eq_append_iff.mp heq with ⟨more, hpre', hcmds⟩ | ⟨more, hgone, hpost'⟩
  · -- the whole of `gone` lies in front of the collapse
    refine ⟨more, post, hcmds, ?_, hpost⟩
    rcases hpre with hpre | ⟨q, t, hpre⟩
    · rw [hpre] at hpre'
      exact .inl (List.append_eq_nil_iff.mp hpre'.symm).2
    · rcases List.eq_nil_or_concat more with rfl | ⟨init, last, rfl⟩
      · exact .inl rfl
      · right
        rw [hpre, List.concat_eq_append, ← List.append_assoc] at hpre'
        refine ⟨init, t, ?_⟩
        rw [List.concat_eq_append, List.append_inj_right' hpre' rfl]
  · refine ⟨[], cmds, rfl, .inl rfl, ?_⟩
    intro epoch target ht
    refine hpost epoch target ?_
    rw [hpost']
    exact List.mem_append_right _ ht

theorem GateInv.send (hi : GateInv sm s n) {cmd : ArchiveCmd} (ht : cmd.truncEpoch? = none)
    (hc : cmd.collapseEpoch? = none) : GateInv sm s { n with commands := n.commands ++ [cmd] } := by
  have hu : ({ n with commands := n.commands ++ [cmd] } : NodeAgents).unexecuted =
      n.unexecuted ++ [cmd] := (List.append_assoc _ _ _).symm
  have hts : ({ n with commands := n.commands ++ [cmd] } : NodeAgents).truncsInFlight =
      n.truncsInFlight := by
    rw [truncsInFlight, hu, List.filterMap_append]
    simp [ht, truncsInFlight]
  have hcs : ({ n with commands := n.commands ++ [cmd] } : NodeAgents).collapsesInFlight =
      n.collapsesInFlight := by
    rw [collapsesInFlight, hu, List.filterMap_append]
    simp [hc, collapsesInFlight]
  constructor
  · exact hi.handle
  · exact hi.adopted_le
  · exact hi.truncating
  · exact hi.known
  · exact hi.leading
  · intro o ho
    obtain ⟨h1, h2, h3, h4, h5, h6⟩ := hi.opening o ho
    refine ⟨h1, h2, h3, h4, h5, ?_⟩
    rw [hu]
    exact h6.append ht
  · rw [hts]
    exact hi.truncs
  · rw [hcs]
    exact hi.collapses_nodup
  · rw [hcs]
    exact hi.collapses_lt
  · rw [hcs]
    exact hi.collapses
  · rw [hu]
    intro hg epoch target hm
    rcases List.mem_append.mp hm with hm | hm
    · exact hi.gate_truncs hg epoch target hm
    · rw [← List.mem_singleton.mp hm] at ht
      cases ht
  · exact hi.settled
  · intro epoch he haw hcur ho
    rcases hi.due epoch he haw hcur ho with hs | ⟨target, ha, hm⟩
    · exact .inl hs
    · exact .inr ⟨target, ha, List.mem_append_left _ hm⟩

/-- The archive takes a step: it drops commands from the front, moves acks to
    their slots, and notes its cuts. -/
theorem GateInv.archive (hi : GateInv sm s n) (gone commands : List ArchiveCmd) (pc : ArchivePc)
    (truncSlot collapseSlot : Option (ℕ × ℕ)) (new : List GateMark)
    (hu : n.unexecuted = gone ++ ({ n with commands, pc } : NodeAgents).unexecuted)
    (hts : ({ n with commands, pc, truncSlot } : NodeAgents).truncsInFlight = n.truncsInFlight)
    (hcs : ({ n with commands, pc, collapseSlot } : NodeAgents).collapsesInFlight.Sublist
      n.collapsesInFlight)
    (hnew : ∀ epoch target, .truncate epoch target ∈ n.commands →
      .truncate epoch target ∈ commands ∨ new = [.cut target]) :
    GateInv sm s { n with commands, pc, truncSlot, collapseSlot, marks := new ++ n.marks } := by
  have hm : ∀ {m : GateMark}, m ∈ n.marks → m ∈ new ++ n.marks := List.mem_append_right new
  constructor
  · exact hi.handle
  · exact hi.adopted_le
  · exact hi.truncating
  · exact hi.known.imp hm hm
  · exact fun hr ht => hm (hi.leading hr ht)
  · intro o ho
    obtain ⟨h1, h2, h3, h4, h5, h6⟩ := hi.opening o ho
    rw [hu] at h6
    exact ⟨h1, h2, h3, h4, hm h5, h6.suffix⟩
  · exact hts.trans hi.truncs
  · exact hi.collapses_nodup.sublist hcs
  · exact fun epoch he => hi.collapses_lt epoch (hcs.subset he)
  · exact fun epoch he => hi.collapses epoch (hcs.subset he)
  · intro hg epoch target ht
    refine hi.gate_truncs hg epoch target ?_
    rw [hu]
    exact List.mem_append_right _ ht
  · exact fun hg => (hi.settled hg).append new
  · intro epoch he haw hcur ho
    rcases hi.due epoch he haw hcur ho with hs | ⟨target, ha, hc⟩
    · exact .inl (hs.append new)
    · rcases hnew epoch target hc with hc | rfl
      · exact .inr ⟨target, ha.append new, hc⟩
      · exact .inl (.inr (.inl ha.cut))

theorem GateOk.command (hi : GateOk sm n) (hpc : n.pc = .idle) (floor : ℕ) :
    GateOk sm (n.archiveCommand floor) := by
  have hexe : n.executing = [] := by rw [executing, hpc]
  unfold archiveCommand
  split
  · exact hi
  · rename_i cmd rest hcmds
    have hu : n.unexecuted = cmd :: rest := by rw [unexecuted, hexe, hcmds]; rfl
    -- a command that is executed in several writes stays in flight
    have hmove : ∀ pos (new : List GateMark), (∀ epoch target,
        .truncate epoch target ∈ n.commands → .truncate epoch target ∈ rest ∨ new = [.cut target]) →
        GateInv sm n.sm { n with commands := rest, pc := .prime cmd pos, marks := new ++ n.marks } := by
      intro pos new hnew
      have hsame : ({ n with commands := rest, pc := .prime cmd pos } : NodeAgents).unexecuted =
          n.unexecuted := by rw [hu]; rfl
      refine GateInv.archive hi [] rest (.prime cmd pos) n.truncSlot n.collapseSlot new ?_ ?_ ?_ hnew
      · rw [hsame]
        rfl
      · exact congrArg (fun u => _ ++ List.filterMap ArchiveCmd.truncEpoch? u) hsame
      · have hc : ({ n with commands := rest, pc := .prime cmd pos } : NodeAgents).collapsesInFlight =
            n.collapsesInFlight :=
          congrArg (fun u => _ ++ List.filterMap ArchiveCmd.collapseEpoch? u) hsame
        exact hc ▸ List.Sublist.refl _
    cases cmd with
    | truncate epoch target =>
      dsimp only
      split
      · exact hi.of_parts rfl rfl
      · refine GateInv.at_sm ((hmove target [.cut target] ?_).of_parts rfl) rfl
        intro e t ht
        rw [hcmds] at ht
        rcases List.mem_cons.mp ht with ht | ht
        · cases ht
          exact .inr rfl
        · exact .inl ht
    | collapse epoch target =>
      dsimp only
      split
      · exact hi.of_parts rfl rfl
      · refine GateInv.at_sm ((hmove (min target n.archive.durablePos) [] ?_).of_parts rfl) rfl
        intro e t ht
        rw [hcmds] at ht
        exact .inl ((List.mem_cons.mp ht).resolve_left (by simp))
    | purge below =>
      have hrest : ({ n with commands := rest, pc := n.pc } : NodeAgents).unexecuted = rest := by
        show n.executing ++ rest = rest
        rw [hexe, List.nil_append]
      have hts : ({ n with commands := rest, pc := n.pc } : NodeAgents).truncsInFlight =
          n.truncsInFlight := by
        rw [truncsInFlight, truncsInFlight, hrest, hu]
        rfl
      have hcs : ({ n with commands := rest, pc := n.pc } : NodeAgents).collapsesInFlight =
          n.collapsesInFlight := by
        rw [collapsesInFlight, collapsesInFlight, hrest, hu]
        rfl
      have harch := GateInv.archive hi [.purge below] rest n.pc n.truncSlot n.collapseSlot []
        (by rw [hrest, hu]; rfl) hts (hcs ▸ List.Sublist.refl _) (by
          intro e t ht
          rw [hcmds] at ht
          exact .inl ((List.mem_cons.mp ht).resolve_left (by simp)))
      exact GateInv.at_sm (harch.of_parts rfl) rfl
    | adoptFloor pos =>
      refine GateInv.at_sm ((hmove (n.archive.adoptFloor pos).durablePos [] ?_).of_parts rfl) rfl
      intro e t ht
      rw [hcmds] at ht
      exact .inl ((List.mem_cons.mp ht).resolve_left (by simp))

theorem GateOk.prime (hi : GateOk sm n) : GateOk sm n.primeCounters := by
  unfold primeCounters
  split
  · rename_i cmd pos hpc
    refine hi.of_parts rfl ?_
    simp [gateParts, executing, hpc]
  · exact hi

theorem GateOk.postAck (hi : GateOk sm n) : GateOk sm n.postAck := by
  unfold NodeAgents.postAck
  split
  · rename_i epoch target pos hpc
    have hu : n.unexecuted = .truncate epoch target :: n.commands := by
      rw [unexecuted, executing, hpc]
      rfl
    have hslot : n.truncSlot = none := by
      have hts := hi.truncs
      rw [truncsInFlight, hu] at hts
      cases hs : n.truncSlot with
      | none => rfl
      | some slot =>
        rw [hs] at hts
        have hlen := congrArg List.length hts
        cases hp : n.pendingTruncation <;> simp [hp, ArchiveCmd.truncEpoch?] at hlen
    have harch := GateInv.archive hi [.truncate epoch target] n.commands .idle (some (epoch, pos))
      n.collapseSlot [] hu (by rw [truncsInFlight, truncsInFlight, hu, hslot]; rfl)
      (by rw [collapsesInFlight, collapsesInFlight, hu]; exact List.Sublist.refl _)
      (fun _ _ ht => .inl ht)
    exact GateInv.at_sm (harch.of_parts rfl) rfl
  · rename_i epoch target pos hpc
    have hu : n.unexecuted = .collapse epoch target :: n.commands := by
      rw [unexecuted, executing, hpc]
      rfl
    have harch := GateInv.archive hi [.collapse epoch target] n.commands .idle n.truncSlot
      (some (epoch, pos)) [] hu (by rw [truncsInFlight, truncsInFlight, hu]; rfl)
      (by rw [collapsesInFlight, collapsesInFlight, hu]; exact List.sublist_append_right _ _)
      (fun _ _ ht => .inl ht)
    exact GateInv.at_sm (harch.of_parts rfl) rfl
  · rename_i cmd pos hnt hnc hpc
    have hu : n.unexecuted = cmd :: n.commands := by
      rw [unexecuted, executing, hpc]
      rfl
    have ht : cmd.truncEpoch? = none := by
      cases cmd with
      | truncate epoch target => exact (hnt epoch target rfl).elim
      | _ => rfl
    have hc : cmd.collapseEpoch? = none := by
      cases cmd with
      | collapse epoch target => exact (hnc epoch target rfl).elim
      | _ => rfl
    have harch := GateInv.archive hi [cmd] n.commands .idle n.truncSlot n.collapseSlot [] hu
      (by rw [truncsInFlight, truncsInFlight, hu, List.filterMap_cons_none ht]; rfl)
      (by
        rw [collapsesInFlight, collapsesInFlight, hu, List.filterMap_cons_none hc]
        exact List.Sublist.refl _)
      (fun _ _ ht => .inl ht)
    exact GateInv.at_sm (harch.of_parts rfl) rfl
  · exact hi

/-! ## Whole runs -/

theorem GateOk.refreshDurable (hi : GateOk sm n) : GateOk sm n.refreshDurable := by
  unfold NodeAgents.refreshDurable
  split
  · exact hi
  · dsimp only
    split
    · exact hi
    · have hn : GateOk sm { n with durableSeen := min n.durable n.obsFrontier } :=
        hi.of_parts rfl rfl
      exact hn.feed_plain trivial

theorem GateOk.drainObs (hi : GateOk sm n) : GateOk sm n.drainObs := by
  unfold NodeAgents.drainObs
  dsimp only
  split
  · exact hi.of_parts rfl rfl
  · have hn : GateOk sm { n with obs := [], pendingObs := [] } := hi.of_parts rfl rfl
    generalize n.pendingObs ++ n.obs = obs
    generalize ({ n with obs := [], pendingObs := [] } : NodeAgents) = m at hn
    induction obs generalizing m with
    | nil => exact hn
    | cons o obs ih => exact ih (m.feed (.dataTermObserved o.1 o.2)) (hn.feed_plain trivial)

theorem GateOk.install (hi : GateOk sm n) (pos : ℕ) (lineage : TermMap) (config : ClusterConfig)
    (sent : Bool) : GateOk sm (n.installSnapshot pos lineage config sent) := by
  unfold installSnapshot
  split
  swap
  · exact hi
  obtain ⟨tr, hcfg⟩ := ElectionSm.rebuildMembership_frame { adoptSnapshotLineage lineage n.sm with
      config, prevConfig := config, configPosition := pos, prevPosition := pos } false
  set s' := ElectionSm.adoptSnapshotConfig pos config (adoptSnapshotLineage lineage n.sm) with hs'
  have hs : s' = _ := hcfg
  have hrole : s'.role = n.sm.role := by
    rw [hs]
    unfold adoptSnapshotLineage
    split <;> rfl
  have htr : s'.truncatingEpoch = n.sm.truncatingEpoch := by
    rw [hs]
    unfold adoptSnapshotLineage
    split <;> rfl
  have hpos : s'.newTermPos = n.sm.newTermPos := by
    rw [hs]
    unfold adoptSnapshotLineage
    split <;> rfl
  have hle : n.sm.currentTerm ≤ s'.currentTerm := by
    rw [hs]
    unfold adoptSnapshotLineage
    split
    · exact le_rfl
    · exact le_max_left _ _
  -- a lineage may raise the machine's term above the data-plane term
  have hcur : s'.currentTerm = n.adoptedTerm → n.sm.currentTerm = n.adoptedTerm := by
    have := hi.adopted_le
    omega
  have hinv : GateInv sm s' n := by
    refine { hi with adopted_le := ?_, truncating := ?_, leading := ?_, opening := ?_, due := ?_ }
    · exact hi.adopted_le.trans hle
    · rw [htr]
      exact hi.truncating
    · rw [hrole]
      exact fun hr ht => hi.leading hr (hcur ht)
    · rw [hrole, hpos]
      exact hi.opening
    · exact fun epoch he haw ht => hi.due epoch he haw (hcur ht)
  cases sent with
  | false => exact GateInv.at_sm (hinv.of_parts rfl) rfl
  | true =>
    have hsend := @GateInv.send _ _ _ hinv (.adoptFloor pos) rfl rfl
    exact GateInv.at_sm (hsend.of_parts rfl) rfl

theorem GateOk.step (capacity : ℕ) (hi : GateOk sm n) {st : AgentStep} (hok : Possible n st) :
    GateOk sm (n.step capacity st) := by
  cases st with
  | feed ev =>
    obtain ⟨hp, hev⟩ := hok
    cases ev with
    | termMapReceived term entries => exact hi.feed_map hp term entries
    | truncated | newTermAppended => exact hev.elim
    | _ => exact hi.feed_plain trivial
  | requestVote src newTerm lastTerm lastDurable => exact hi.refreshDurable.feed_plain trivial
  | refreshDurable => exact hi.refreshDurable
  | drainObs => exact hi.drainObs
  | truncAck =>
    obtain ⟨slot, hslot⟩ := Option.isSome_iff_exists.mp hok.2
    unfold NodeAgents.step
    rw [hslot]
    exact hi.truncAck hslot
  | collapseAck =>
    obtain ⟨slot, hslot⟩ := Option.isSome_iff_exists.mp hok.2
    unfold NodeAgents.step
    rw [hslot]
    exact hi.collapseAck capacity hslot
  | install pos lineage config sent => exact hi.install pos lineage config sent
  | sendPurge below =>
    exact GateInv.at_sm (@GateInv.send _ _ _ hi (.purge below) rfl rfl) rfl
  | command floor => exact hi.command hok.2 floor
  | prime => exact hi.prime
  | postAck => exact hi.postAck
  | record k =>
    refine hi.of_parts rfl ?_
    simp [gateParts, NodeAgents.step, recordBlock, executing, hok.2.1]
  | publishDurable =>
    refine hi.of_parts rfl ?_
    have hpc : n.pc = .durable := hok
    simp [gateParts, NodeAgents.step, executing, hpc]
  | handOver k =>
    refine hi.of_parts rfl ?_
    simp only [gateParts, NodeAgents.step, NodeAgents.handOver, executing, hok.2.1]
    split_ifs <;> rfl
  | publishFrontier =>
    refine hi.of_parts rfl ?_
    have hpc : n.pc = .frontier := hok
    simp [gateParts, NodeAgents.step, executing, hpc]
  | receive fs => exact hi.of_parts rfl rfl
  | append fs => exact hi.of_parts rfl rfl

theorem boot_gateOk (hb : Boot sm) (archive : ArchiveLog) : GateOk sm (boot sm archive) := by
  have hstate := hb.state
  constructor
  · rfl
  · exact le_rfl
  · exact hstate.notTruncating.symm
  · exact .inl List.mem_cons_self
  · intro hr
    have hr : sm.role = .leader := hr
    rw [hstate.role] at hr
    cases hr
  · intro o ho
    cases ho
  · rfl
  · exact List.nodup_nil
  · intro epoch he
    cases he
  · intro epoch he
    cases he
  · intro _ epoch target ht
    cases ht
  · intro hg
    have hg : (!sm.awaitingReconcile) = true := hg
    exact .inr (.inr ⟨rfl, by simpa using hg⟩)
  · intro epoch he
    cases he

theorem run_gateOk (capacity : ℕ) (hb : Boot sm) (archive : ArchiveLog) {sts : List AgentStep}
    (hr : Runs capacity (boot sm archive) sts) : GateOk sm (run capacity (boot sm archive) sts) := by
  refine Trace.Admits.rule (P := fun sts => GateOk sm (run capacity (boot sm archive) sts))
    (boot_gateOk hb archive) ?_ hr
  intro is i hi hok
  have hrun : run capacity (boot sm archive) (is ++ [i]) =
      (run capacity (boot sm archive) is).step capacity i := by
    simp [run, List.foldl_append]
  rw [hrun]
  exact hi.step capacity hok

/-- In every run of the node's agents from boot, an open intake gate at the
    data-plane term `h` says: every truncation that the archive has not
    executed was asked for while a leader open was waiting for its collapse;
    every collapse that it has not executed belongs to a leader open that was
    abandoned; and the node opened `h` as leader, or since it adopted `h` it
    reconciled its log with a map of a leader of `h` and cut what that map
    refuted, or it booted at `h` with a map that reaches its vote. -/
theorem open_gate_discipline (capacity : ℕ) {sm : ElectionSm} (hb : Boot sm) (archive : ArchiveLog)
    {sts : List AgentStep} (hr : Runs capacity (boot sm archive) sts)
    (hg : (run capacity (boot sm archive) sts).intakeGate = true) :
    (∀ epoch target, .truncate epoch target ∈ (run capacity (boot sm archive) sts).unexecuted →
      epoch ∈ (run capacity (boot sm archive) sts).duringOpen) ∧
    (∀ epoch target, .collapse epoch target ∈ (run capacity (boot sm archive) sts).unexecuted →
      epoch ∈ (run capacity (boot sm archive) sts).abandoned) ∧
    Settled sm (run capacity (boot sm archive) sts).termHandle
      (run capacity (boot sm archive) sts).marks := by
  have hi := run_gateOk capacity hb archive hr
  generalize run capacity (boot sm archive) sts = n at hi hg
  refine ⟨hi.gate_truncs hg, ?_, ?_⟩
  · intro epoch target hc
    have hmem : epoch ∈ n.collapsesInFlight :=
      List.mem_append_right _ (List.mem_filterMap.mpr ⟨_, hc, rfl⟩)
    rcases hi.collapses epoch hmem with ha | ⟨o, ho, -⟩
    · exact ha
    · rw [(hi.opening o ho).2.2.1] at hg
      cases hg
  · rw [hi.handle]
    exact hi.settled hg

/-- A follower whose tail the new leader's map refutes: the map asks for a cut
    to 0, the archive executes it, the ack reopens the gate. -/
def cutRun : List AgentStep :=
  [.feed (.termMapReceived 2 [(2, 0)]), .command 0, .prime, .postAck, .truncAck]

def oneBlock : ArchiveLog := ⟨0, List.replicate 64 1, 1, []⟩

/-- The gate reopens at the leader's term, and the bytes its map refuted were
    cut since that term was adopted. -/
theorem open_gate_after_cut :
    (run 4096 (boot (genesisNode 1 [1, 2, 3] none [(1, 0)] 64) oneBlock) cutRun).termHandle = 2 ∧
      Settled (genesisNode 1 [1, 2, 3] none [(1, 0)] 64) 2
        (run 4096 (boot (genesisNode 1 [1, 2, 3] none [(1, 0)] 64) oneBlock) cutRun).marks := by
  have hh : (run 4096 (boot (genesisNode 1 [1, 2, 3] none [(1, 0)] 64) oneBlock) cutRun).termHandle
      = 2 := by decide +kernel
  have hr : Runs 4096 (boot (genesisNode 1 [1, 2, 3] none [(1, 0)] 64) oneBlock) cutRun := by
    decide +kernel
  have hs := (open_gate_discipline 4096 (genesisNode_boot 1 1 [2, 3] none [(1, 0)] 64) oneBlock hr
    (by decide +kernel)).2.2
  rw [hh] at hs
  exact ⟨hh, hs⟩

/-- A candidate wins term 1, a leader of term 2 takes over before the archive
    executed the collapse, and its map refutes nothing. -/
def abandonRun : List AgentStep :=
  [.feed (.tick 100000000000), .feed (.vote 2 1 true), .feed (.leaderSeen 2),
    .feed (.termMapReceived 2 [(2, 0)])]

def emptyArchive : ArchiveLog := ⟨0, [], 0, []⟩

/-- A map of the very term that the node opens as leader asks for a cut; the ack of the
    collapse opens the gate before the archive has executed it. -/
def ownTermRun : List AgentStep :=
  [.feed (.tick 100000000000), .feed (.vote 2 2 true), .feed (.termMapReceived 2 [(2, 0)]), .command 0,
    .prime, .postAck, .collapseAck]

/-- The gate of a node that boots for the first time is open at term 0 before
    any map was processed; after an abandoned leader open it is open while the
    collapse is still to be executed, and after an own one while a truncation is. -/
theorem open_gate_unsettled :
    ((boot (genesisNode 1 [1, 2, 3] none [] 0) emptyArchive).intakeGate = true ∧
      ¬ (.lead 0 ∈ (boot (genesisNode 1 [1, 2, 3] none [] 0) emptyArchive).marks ∨
        Reconciled 0 (boot (genesisNode 1 [1, 2, 3] none [] 0) emptyArchive).marks)) ∧
    Runs 4096 (boot (genesisNode 1 [1, 2, 3] none [] 0) emptyArchive) abandonRun ∧
      (run 4096 (boot (genesisNode 1 [1, 2, 3] none [] 0) emptyArchive) abandonRun).intakeGate ∧
      .collapse 0 0 ∈
        (run 4096 (boot (genesisNode 1 [1, 2, 3] none [] 0) emptyArchive) abandonRun).unexecuted ∧
    Runs 4096 (boot (genesisNode 1 [1, 2, 3] none [(1, 0)] 64) oneBlock) ownTermRun ∧
      (run 4096 (boot (genesisNode 1 [1, 2, 3] none [(1, 0)] 64) oneBlock) ownTermRun).intakeGate ∧
      .truncate 1 0 ∈
        (run 4096 (boot (genesisNode 1 [1, 2, 3] none [(1, 0)] 64) oneBlock) ownTermRun).unexecuted := by
  refine ⟨⟨by decide +kernel, ?_⟩, by decide +kernel, by decide +kernel, by decide +kernel,
    by decide +kernel, by decide +kernel, by decide +kernel⟩
  have hm : (boot (genesisNode 1 [1, 2, 3] none [] 0) emptyArchive).marks = [.adopt 0] := by
    decide +kernel
  rw [hm]
  rintro (hl | ⟨recent, before, heq, hrec⟩)
  · simp at hl
  · have hnil : recent = [] := by
      cases recent with
      | nil => rfl
      | cons m recent =>
        have hlen := congrArg List.length heq
        simp at hlen
    subst hnil
    rcases hrec with hrec | ⟨p, later, earlier, hrec, -⟩
    · cases hrec
    · simp at hrec

end NodeAgents

end UltimaCluster
