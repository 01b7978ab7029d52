/-
  The discipline of the intake gate: what an open gate says about the commands
  in flight to the archive and about the reconciliation of the adopted term.

  `GateInv` relates the node's gate, its brackets (`pendingTruncation`,
  `pendingLeaderOpen`) and its adopted term to the state machine and to the
  commands that the archive has not executed.  It is kept by every action that
  a step of the state machine emits.
-/
import UltimaCluster.Emission
import UltimaCluster.NodeAgents

namespace UltimaCluster

open List (append_assoc append_of_mem filterMap_append mem_cons_of_mem mem_cons_self)

def ArchiveCmd.truncEpoch? : ArchiveCmd → Option ℕ
  | .truncate epoch _ => some epoch
  | _ => none

def ArchiveCmd.collapseEpoch? : ArchiveCmd → Option ℕ
  | .collapse epoch _ => some epoch
  | _ => none

namespace NodeAgents

open ElectionSm (Trans Steps)

/-! ## Commands in flight -/

/-- The command that the archive is in the middle of. -/
def executing (n : NodeAgents) : List ArchiveCmd :=
  match n.pc with
  | .prime cmd _ | .ack cmd _ => [cmd]
  | _ => []

/-- The commands that were sent and whose effect is not complete. -/
def unexecuted (n : NodeAgents) : List ArchiveCmd := n.executing ++ n.commands

/-- The epochs of the truncations that were not acked. -/
def truncsInFlight (n : NodeAgents) : List ℕ :=
  (n.truncSlot.map Prod.fst).toList ++ n.unexecuted.filterMap ArchiveCmd.truncEpoch?

/-- The epochs of the collapses that were not acked. -/
def collapsesInFlight (n : NodeAgents) : List ℕ :=
  (n.collapseSlot.map Prod.fst).toList ++ n.unexecuted.filterMap ArchiveCmd.collapseEpoch?

/-- What the discipline reads of a node. -/
def gateParts (n : NodeAgents) :=
  (n.intakeGate, n.termHandle, n.adoptedTerm, n.awaitingReconcile, n.pendingTruncation,
    n.pendingLeaderOpen, n.nextCollapseEpoch, n.executing, n.commands, n.truncSlot,
    n.collapseSlot, n.marks, n.abandoned, n.duringOpen)

/-! ## Reconciled terms -/

/-- Since the node adopted `h`, it reconciled its log with a map of a leader of
    `h` that refuted the bytes from `p` on. -/
def Asked (h p : ℕ) (marks : List GateMark) : Prop :=
  ∃ recent before, marks = recent ++ .adopt h :: before ∧ .map h (some p) ∈ recent

/-- Since the node adopted `h`, it reconciled its log with a map of a leader of
    `h`, and what that map refuted was cut. -/
def Reconciled (h : ℕ) (marks : List GateMark) : Prop :=
  ∃ recent before, marks = recent ++ .adopt h :: before ∧
    (.map h none ∈ recent ∨
      ∃ p later earlier, recent = later ++ .map h (some p) :: earlier ∧ .cut p ∈ later)

/-- The node opened `h`, or reconciled it, or booted at `h` with a map that
    reaches its vote. -/
def Settled (sm : ElectionSm) (h : ℕ) (marks : List GateMark) : Prop :=
  .lead h ∈ marks ∨ Reconciled h marks ∨ (h = sm.currentTerm ∧ sm.awaitingReconcile = false)

variable {sm s s' : ElectionSm} {n : NodeAgents} {h p : ℕ} {marks : List GateMark}

theorem Asked.cons (m : GateMark) (ha : Asked h p marks) : Asked h p (m :: marks) := by
  obtain ⟨recent, before, rfl, hm⟩ := ha
  exact ⟨m :: recent, before, rfl, mem_cons_of_mem m hm⟩

theorem Asked.cut (ha : Asked h p marks) : Reconciled h (.cut p :: marks) := by
  obtain ⟨recent, before, rfl, hm⟩ := ha
  obtain ⟨later, earlier, rfl⟩ := append_of_mem hm
  exact ⟨.cut p :: (later ++ .map h (some p) :: earlier), before, rfl,
    .inr ⟨p, .cut p :: later, earlier, rfl, mem_cons_self⟩⟩

theorem Reconciled.cons (m : GateMark) (hr : Reconciled h marks) : Reconciled h (m :: marks) := by
  obtain ⟨recent, before, rfl, hm | ⟨p, later, earlier, rfl, hc⟩⟩ := hr
  · exact ⟨m :: recent, before, rfl, .inl (mem_cons_of_mem m hm)⟩
  · exact ⟨m :: (later ++ .map h (some p) :: earlier), before, rfl,
      .inr ⟨p, m :: later, earlier, rfl, mem_cons_of_mem m hc⟩⟩

theorem Settled.cons (m : GateMark) (hs : Settled sm h marks) : Settled sm h (m :: marks) := by
  rcases hs with hl | hr | hb
  · exact .inl (mem_cons_of_mem m hl)
  · exact .inr (.inl (hr.cons m))
  · exact .inr (.inr hb)

theorem Asked.append (new : List GateMark) (ha : Asked h p marks) : Asked h p (new ++ marks) := by
  induction new with
  | nil => exact ha
  | cons m new ih => exact ih.cons m

theorem Settled.append (new : List GateMark) (hs : Settled sm h marks) :
    Settled sm h (new ++ marks) := by
  induction new with
  | nil => exact hs
  | cons m new ih => exact ih.cons m

theorem Reconciled.of_clean (ha : .adopt h ∈ marks) : Reconciled h (.map h none :: marks) := by
  obtain ⟨recent, before, rfl⟩ := append_of_mem ha
  exact ⟨.map h none :: recent, before, rfl, .inl mem_cons_self⟩

theorem Asked.of_refuted (ha : .adopt h ∈ marks) : Asked h p (.map h (some p) :: marks) := by
  obtain ⟨recent, before, rfl⟩ := append_of_mem ha
  exact ⟨.map h (some p) :: recent, before, rfl, mem_cons_self⟩

/-! ## The invariant -/

/-- The commands behind the collapse of the leader open `o`: every truncation
    among them was asked for while `o` was waiting. -/
def Behind (o : PendingLeaderOpen) (cmds : List ArchiveCmd) (duringOpen : List ℕ) : Prop :=
  ∃ pre post, cmds = pre ++ post ∧
    (pre = [] ∨ ∃ q target, pre = q ++ [.collapse o.epoch target]) ∧
    ∀ epoch target, .truncate epoch target ∈ post → epoch ∈ duringOpen

/-- `sm` is the boot state, `s` the state machine as far as it has stepped. -/
structure GateInv (sm s : ElectionSm) (n : NodeAgents) : Prop where
  handle : n.termHandle = n.adoptedTerm
  adopted_le : n.adoptedTerm ≤ s.currentTerm
  truncating : n.pendingTruncation = s.truncatingEpoch
  known : .adopt n.adoptedTerm ∈ n.marks ∨ .lead n.adoptedTerm ∈ n.marks
  /-- A leader at its data-plane term opened it. -/
  leading : s.role = .leader → s.currentTerm = n.adoptedTerm → .lead n.adoptedTerm ∈ n.marks
  opening : ∀ o, n.pendingLeaderOpen = some o → s.role = .leader ∧ s.newTermPos = none ∧
    n.intakeGate = false ∧ n.awaitingReconcile = false ∧ .lead n.adoptedTerm ∈ n.marks ∧
    Behind o n.unexecuted n.duringOpen
  truncs : n.truncsInFlight = n.pendingTruncation.toList
  collapses_nodup : n.collapsesInFlight.Nodup
  collapses_lt : ∀ epoch ∈ n.collapsesInFlight, epoch < n.nextCollapseEpoch
  collapses : ∀ epoch ∈ n.collapsesInFlight,
    epoch ∈ n.abandoned ∨ ∃ o, n.pendingLeaderOpen = some o ∧ o.epoch = epoch
  gate_truncs : n.intakeGate → ∀ epoch target, .truncate epoch target ∈ n.unexecuted →
    epoch ∈ n.duringOpen
  settled : n.intakeGate → Settled sm n.adoptedTerm n.marks
  /-- The ack of the truncation in flight will reopen the gate for a term that
      is settled by then. -/
  due : ∀ epoch, n.pendingTruncation = some epoch → n.awaitingReconcile = false →
    s.currentTerm = n.adoptedTerm → n.pendingLeaderOpen = none →
    Settled sm n.adoptedTerm n.marks ∨
      ∃ target, Asked n.adoptedTerm target n.marks ∧ .truncate epoch target ∈ n.commands

namespace GateInv

theorem of_parts {n' : NodeAgents} (hi : GateInv sm s n) (hp : n'.gateParts = n.gateParts) :
    GateInv sm s n' := by
  simp only [gateParts, Prod.mk.injEq] at hp
  obtain ⟨h1, h2, h3, h4, h5, h6, h7, h8, h9, h10, h11, h12, h13, h14⟩ := hp
  have hu : n'.unexecuted = n.unexecuted := by rw [unexecuted, unexecuted, h8, h9]
  have ht : n'.truncsInFlight = n.truncsInFlight := by
    rw [truncsInFlight, truncsInFlight, h10, hu]
  have hc : n'.collapsesInFlight = n.collapsesInFlight := by
    rw [collapsesInFlight, collapsesInFlight, h11, hu]
  constructor
  · rw [h2, h3]; exact hi.handle
  · rw [h3]; exact hi.adopted_le
  · rw [h5]; exact hi.truncating
  · rw [h3, h12]; exact hi.known
  · rw [h3, h12]; exact hi.leading
  · rw [h1, h3, h4, h6, h12, h14, hu]; exact hi.opening
  · rw [ht, h5]; exact hi.truncs
  · rw [hc]; exact hi.collapses_nodup
  · rw [hc, h7]; exact hi.collapses_lt
  · rw [hc, h6, h13]; exact hi.collapses
  · rw [h1, hu, h14]; exact hi.gate_truncs
  · rw [h1, h3, h12]; exact hi.settled
  · rw [h3, h4, h5, h6, h9, h12]; exact hi.due

/-- Only the term, the role, the latch and the NewTerm position of the state
    machine matter. -/
theorem of_sm (hi : GateInv sm s n) (hterm : s'.currentTerm = s.currentTerm)
    (hrole : s'.role = s.role) (htr : s'.truncatingEpoch = s.truncatingEpoch)
    (hpos : s'.newTermPos = s.newTermPos) : GateInv sm s' n := by
  refine { hi with adopted_le := ?_, truncating := ?_, leading := ?_, opening := ?_, due := ?_ }
  · rw [hterm]; exact hi.adopted_le
  · rw [htr]; exact hi.truncating
  · rw [hterm, hrole]; exact hi.leading
  · rw [hrole, hpos]; exact hi.opening
  · rw [hterm]; exact hi.due

theorem mark (hi : GateInv sm s n) (m : GateMark) :
    GateInv sm s { n with marks := m :: n.marks } := by
  refine { hi with known := ?_, leading := ?_, opening := ?_, settled := ?_, due := ?_ }
  · exact hi.known.imp (mem_cons_of_mem m) (mem_cons_of_mem m)
  · intro hr ht
    exact mem_cons_of_mem m (hi.leading hr ht)
  · intro o ho
    obtain ⟨h1, h2, h3, h4, h5, h6⟩ := hi.opening o ho
    exact ⟨h1, h2, h3, h4, mem_cons_of_mem m h5, h6⟩
  · intro hg
    exact (hi.settled hg).cons m
  · intro epoch he haw hterm ho
    rcases hi.due epoch he haw hterm ho with hs | ⟨target, ha, hc⟩
    · exact .inl (hs.cons m)
    · exact .inr ⟨target, ha.cons m, hc⟩

end GateInv

/-! ## Actions -/

/-- The actions that touch neither the gate nor the archive channel. -/
def Neutral : Action → Prop
  | .becomeLeader .. | .becomeFollower .. | .truncate .. => False
  | _ => True

theorem exec_gateParts {a : Action} (ha : Neutral a) (n : NodeAgents) :
    (n.exec a).gateParts = n.gateParts := by
  cases a with
  | becomeLeader | becomeFollower | truncate => exact ha.elim
  | _ => rfl

theorem execAll_append (n : NodeAgents) (out out' : List Action) :
    n.execAll (out ++ out') = (n.execAll out).execAll out' := List.foldl_append

variable {out : List Action}

theorem execAll_gateParts (ho : ∀ a ∈ out, Neutral a) (n : NodeAgents) :
    (n.execAll out).gateParts = n.gateParts := by
  induction out generalizing n with
  | nil => rfl
  | cons a out ih =>
    have hcons : n.execAll (a :: out) = (n.exec a).execAll out := rfl
    rw [hcons, ih fun b hb => ho b (mem_cons_of_mem a hb)]
    exact exec_gateParts (ho a mem_cons_self) n

theorem GateInv.neutral (hi : GateInv sm s n) (ho : ∀ a ∈ out, Neutral a) :
    GateInv sm s (n.execAll out) :=
  hi.of_parts (execAll_gateParts ho n)

theorem GateInv.becomeFollower (hi : GateInv sm s n) {term : ℕ} (leader : Option NodeId)
    (hle : s.currentTerm ≤ term) (hterm : s'.currentTerm = term) (hrole : s'.role ≠ .leader)
    (htr : s'.truncatingEpoch = s.truncatingEpoch) :
    GateInv sm s' (n.exec (.becomeFollower term leader)) := by
  have hcol : ∀ epoch ∈ n.collapsesInFlight,
      epoch ∈ (n.pendingLeaderOpen.map PendingLeaderOpen.epoch).toList ++ n.abandoned := by
    intro epoch he
    rcases hi.collapses epoch he with ha | ⟨o, ho, rfl⟩
    · exact List.mem_append_right _ ha
    · exact List.mem_append_left _ (by simp [ho])
  by_cases hlt : n.adoptedTerm < term
  · have hn : n.exec (.becomeFollower term leader) = { n with
        termHandle := term, leaderFlag := false, appender := none
        abandoned := (n.pendingLeaderOpen.map PendingLeaderOpen.epoch).toList ++ n.abandoned
        pendingLeaderOpen := none, intakeGate := false, awaitingReconcile := true
        marks := .adopt term :: n.marks, adoptedTerm := term } := by
      simp [exec, closeGate, hlt]
    rw [hn]
    constructor
    · rfl
    · exact hterm.ge
    · exact hi.truncating.trans htr.symm
    · exact .inl mem_cons_self
    · exact fun hr => absurd hr hrole
    · intro o ho
      cases ho
    · exact hi.truncs
    · exact hi.collapses_nodup
    · exact hi.collapses_lt
    · exact fun epoch he => .inl (hcol epoch he)
    · intro hg
      cases hg
    · intro hg
      cases hg
    · intro _ _ haw
      cases haw
  · -- a step-down within the adopted term
    obtain rfl : n.adoptedTerm = term := by
      have := hi.adopted_le
      omega
    have hn : n.exec (.becomeFollower n.adoptedTerm leader) = { n with
        termHandle := n.adoptedTerm, leaderFlag := false, appender := none
        abandoned := (n.pendingLeaderOpen.map PendingLeaderOpen.epoch).toList ++ n.abandoned
        pendingLeaderOpen := none } := by
      simp only [exec, lt_irrefl, if_false]
    rw [hn]
    constructor
    · rfl
    · exact hterm.ge
    · exact hi.truncating.trans htr.symm
    · exact hi.known
    · exact fun hr => absurd hr hrole
    · intro o ho
      cases ho
    · exact hi.truncs
    · exact hi.collapses_nodup
    · exact hi.collapses_lt
    · exact fun epoch he => .inl (hcol epoch he)
    · exact hi.gate_truncs
    · exact hi.settled
    · intro epoch he haw _ _
      cases ho : n.pendingLeaderOpen with
      | none =>
        have hcur : s.currentTerm = n.adoptedTerm := le_antisymm hle hi.adopted_le
        exact hi.due epoch he haw hcur ho
      | some o => exact .inl (.inl (hi.opening o ho).2.2.2.2.1)

theorem GateInv.becomeLeader (hi : GateInv sm s n) (base : ℕ) (hcand : s.role ≠ .leader)
    (hterm : s'.currentTerm = s.currentTerm) (hrole : s'.role = .leader)
    (htr : s'.truncatingEpoch = s.truncatingEpoch) (hpos : s'.newTermPos = none) :
    GateInv sm s' (n.exec (.becomeLeader s.currentTerm base)) := by
  have hnone : n.pendingLeaderOpen = none := by
    cases ho : n.pendingLeaderOpen with
    | none => rfl
    | some o => exact absurd (hi.opening o ho).1 hcand
  have hu : (n.exec (.becomeLeader s.currentTerm base)).unexecuted =
      n.unexecuted ++ [.collapse n.nextCollapseEpoch base] := by
    simp [exec, closeGate, unexecuted, executing]
  have hcs : (n.exec (.becomeLeader s.currentTerm base)).collapsesInFlight =
      n.collapsesInFlight ++ [n.nextCollapseEpoch] := by
    rw [collapsesInFlight, hu, filterMap_append, ← append_assoc]
    rfl
  constructor
  · rfl
  · exact hterm.ge
  · exact hi.truncating.trans htr.symm
  · exact .inr mem_cons_self
  · exact fun _ _ => mem_cons_self
  · intro o ho
    refine ⟨hrole, hpos, rfl, rfl, mem_cons_self, ?_⟩
    rw [hu]
    cases ho
    refine ⟨n.unexecuted ++ [.collapse n.nextCollapseEpoch base], [], by simp,
      .inr ⟨n.unexecuted, base, rfl⟩, ?_⟩
    intro epoch target ht
    cases ht
  · rw [truncsInFlight, hu, filterMap_append, ← append_assoc]
    have hone : ([ArchiveCmd.collapse n.nextCollapseEpoch base]).filterMap
        ArchiveCmd.truncEpoch? = [] := rfl
    rw [hone, List.append_nil]
    exact hi.truncs
  · rw [hcs, List.nodup_append]
    refine ⟨hi.collapses_nodup, List.nodup_singleton _, ?_⟩
    intro a ha b hb hab
    rw [List.mem_singleton] at hb
    have := hi.collapses_lt a ha
    omega
  · rw [hcs]
    intro epoch he
    have hnext : (n.exec (.becomeLeader s.currentTerm base)).nextCollapseEpoch =
      n.nextCollapseEpoch + 1 := rfl
    rw [hnext]
    rcases List.mem_snoc.mp he with he | rfl
    · exact Nat.lt_succ_of_lt (hi.collapses_lt epoch he)
    · exact Nat.lt_succ_self _
  · rw [hcs]
    intro epoch he
    rcases List.mem_snoc.mp he with he | rfl
    · rcases hi.collapses epoch he with ha | ⟨o, ho, -⟩
      · exact .inl ha
      · rw [hnone] at ho
        cases ho
    · exact .inr ⟨_, rfl, rfl⟩
  · intro hg
    cases hg
  · intro hg
    cases hg
  · intro _ _ _ _ ho
    cases ho

theorem GateInv.truncate (hi : GateInv sm s n) (epoch target : ℕ) (newMap : TermMap)
    (hidle : s.truncatingEpoch = none) (hterm : s'.currentTerm = s.currentTerm)
    (hrole : s'.role = s.role) (htr : s'.truncatingEpoch = some epoch)
    (hpos : s'.newTermPos = s.newTermPos) :
    GateInv sm s' { n.exec (.truncate epoch target newMap) with
      marks := .map s.currentTerm (some target) :: n.marks } := by
  have hnone : n.truncsInFlight = [] := by
    rw [hi.truncs, hi.truncating, hidle]
    rfl
  have hu : (n.exec (.truncate epoch target newMap)).unexecuted =
      n.unexecuted ++ [.truncate epoch target] := by
    simp [exec, closeGate, unexecuted, executing]
  have hcs : (n.exec (.truncate epoch target newMap)).collapsesInFlight = n.collapsesInFlight := by
    rw [collapsesInFlight, hu, filterMap_append, ← append_assoc]
    exact List.append_nil _
  constructor
  · exact hi.handle
  · rw [hterm]
    exact hi.adopted_le
  · exact htr.symm
  · exact hi.known.imp (mem_cons_of_mem _) (mem_cons_of_mem _)
  · rw [hterm, hrole]
    intro hr ht
    exact mem_cons_of_mem _ (hi.leading hr ht)
  · intro o ho
    obtain ⟨h1, h2, -, -, h5, pre, post, heq, hpre, hpost⟩ := hi.opening o ho
    refine ⟨hrole.trans h1, hpos.trans h2, rfl, rfl, mem_cons_of_mem _ h5, pre,
      post ++ [.truncate epoch target], ?_, hpre, ?_⟩
    · have : (n.exec (.truncate epoch target newMap)).unexecuted = n.unexecuted ++ _ := hu
      rw [← append_assoc, ← heq]
      exact this
    · intro e t ht
      have hso : n.pendingLeaderOpen.isSome := by
        have : n.pendingLeaderOpen = some o := ho
        rw [this]
        rfl
      have hd : (n.exec (.truncate epoch target newMap)).duringOpen = epoch :: n.duringOpen := by
        simp [exec, closeGate, hso]
      rw [hd]
      rcases List.mem_append.mp ht with ht | ht
      · exact mem_cons_of_mem _ (hpost e t ht)
      · rw [List.mem_singleton, ArchiveCmd.truncate.injEq] at ht
        rw [ht.1]
        exact mem_cons_self
  · show (n.exec (.truncate epoch target newMap)).truncsInFlight = [epoch]
    rw [truncsInFlight, hu, filterMap_append, ← append_assoc]
    have : (n.exec (.truncate epoch target newMap)).truncSlot = n.truncSlot := rfl
    rw [this]
    change n.truncsInFlight ++ [epoch] = [epoch]
    rw [hnone, List.nil_append]
  · show (n.exec (.truncate epoch target newMap)).collapsesInFlight.Nodup
    rw [hcs]
    exact hi.collapses_nodup
  · show ∀ e ∈ (n.exec (.truncate epoch target newMap)).collapsesInFlight, e < n.nextCollapseEpoch
    rw [hcs]
    exact hi.collapses_lt
  · show ∀ e ∈ (n.exec (.truncate epoch target newMap)).collapsesInFlight,
      e ∈ n.abandoned ∨ ∃ o, n.pendingLeaderOpen = some o ∧ o.epoch = e
    rw [hcs]
    exact hi.collapses
  · intro hg
    cases hg
  · intro hg
    cases hg
  · intro e he _ hcur _
    cases he
    have hcur : s.currentTerm = n.adoptedTerm := hterm.symm.trans hcur
    rcases hi.known with hk | hk
    · refine .inr ⟨target, ?_, List.mem_append_right _ mem_cons_self⟩
      rw [hcur]
      exact .of_refuted hk
    · exact .inl (.inl (mem_cons_of_mem _ hk))

/-! ## Steps of the state machine -/

/-- The events that neither reconcile nor ack. -/
def Plain : Event → Prop
  | .termMapReceived .. | .truncated .. | .newTermAppended _ => False
  | _ => True

/-- A ranking either only pushes neutral actions or ends the leadership within
    the term. -/
theorem rankLeader_cases (nowNs : ℕ) (s : ElectionSm) :
    ((∀ a ∈ (s.rankLeader nowNs).2, Neutral a) ∧ (s.rankLeader nowNs).1.role = s.role) ∨
      ∃ pre, (s.rankLeader nowNs).2 = pre ++ [.becomeFollower s.currentTerm none] ∧
        (∀ a ∈ pre, Neutral a) ∧ (s.rankLeader nowNs).1.role = .follower := by
  unfold ElectionSm.rankLeader
  dsimp only
  split
  · split_ifs
    · refine .inl ⟨?_, rfl⟩
      simp [Neutral]
    · refine .inr ⟨_, rfl, ?_, rfl⟩
      simp [Neutral]
    · refine .inl ⟨?_, rfl⟩
      simp [Neutral]
    · exact .inl ⟨by simp, rfl⟩
  · exact .inl ⟨by simp, rfl⟩

theorem GateInv.trans {ev : Event} (hi : GateInv sm s n) (ht : Trans ev s s' out) (hev : Plain ev) :
    GateInv sm s' (n.execAll out) := by
  cases ht with
  | timers | countVote | carryReport | trackReport | deferCommit =>
    exact hi.of_sm rfl rfl rfl rfl
  | floor =>
    refine GateInv.neutral ?_ ?_
    · exact hi.of_sm rfl rfl rfl rfl
    · simp [Neutral]
  | adopt term hlt hterm =>
    obtain ⟨halt, hout, hneu⟩ : ∃ halt, (ElectionSm.adoptTerm term none s).2 =
        .becomeFollower term none :: halt ∧ ∀ a ∈ halt, Neutral a := by
      refine ⟨_, rfl, ?_⟩
      simp only [ElectionSm.haltIfRemovedFollower]
      split <;> simp [Neutral]
    rw [hout]
    have hf : GateInv sm (ElectionSm.adoptTerm term none s).1
        (n.exec (.becomeFollower term none)) :=
      hi.becomeFollower none hlt.le rfl (by simp) rfl
    exact hf.neutral hneu
  | stepDown hrole hterm =>
    obtain ⟨halt, hout, hneu⟩ : ∃ halt, s.stepDownToFollower.2 =
        .becomeFollower s.currentTerm none :: halt ∧ ∀ a ∈ halt, Neutral a := by
      refine ⟨_, rfl, ?_⟩
      simp only [ElectionSm.haltIfRemovedFollower]
      split <;> simp [Neutral]
    rw [hout]
    have hf : GateInv sm s.stepDownToFollower.1 (n.exec (.becomeFollower s.currentTerm none)) :=
      hi.becomeFollower none le_rfl rfl (by simp) rfl
    exact hf.neutral hneu
  | candidacy nowNs _ hrole _ hidle =>
    refine GateInv.neutral ?_ (by simp [Neutral])
    refine { hi with adopted_le := ?_, leading := ?_, opening := ?_, due := ?_ }
    · exact Nat.le_succ_of_le hi.adopted_le
    · intro hr
      cases hr
    · intro o ho
      exact absurd (hi.opening o ho).1 hrole
    · intro epoch he
      rw [hi.truncating, hidle] at he
      cases he
  | win _ hrole _ =>
    have hl : GateInv sm s.becomeLeader.1 (n.exec (.becomeLeader s.currentTerm s.durable)) :=
      hi.becomeLeader s.durable (by simp [hrole]) rfl rfl rfl rfl
    have hship : ∀ a ∈ [Action.shipTermMap s.becomeLeader.1.termMapWireTail], Neutral a := by
      simp [Neutral]
    exact hl.neutral hship
  | grant =>
    refine GateInv.neutral ?_ ?_
    · exact hi.of_sm rfl rfl rfl rfl
    · simp [Neutral, ElectionSm.grantVote]
  | reject => exact hi.neutral (by simp [Neutral])
  | rank nowNs _ _ =>
    obtain ⟨_, _, _, _, _, _, _, _, hf⟩ := ElectionSm.rankLeader_frame s nowNs
    have hterm : (s.rankLeader nowNs).1.currentTerm = s.currentTerm := by rw [hf]
    have htr : (s.rankLeader nowNs).1.truncatingEpoch = s.truncatingEpoch := by rw [hf]
    have hpos : (s.rankLeader nowNs).1.newTermPos = s.newTermPos := by rw [hf]
    rcases rankLeader_cases nowNs s with ⟨hneu, hrole⟩ | ⟨pre, hout, hneu, hrole⟩
    · exact (hi.of_sm hterm hrole htr hpos).neutral hneu
    · rw [hout, execAll_append]
      exact (hi.neutral hneu).becomeFollower none le_rfl hterm (by simp [hrole]) htr
  | durableAdvance durable _ =>
    refine hi.of_sm ?_ ?_ ?_ ?_ <;>
    · unfold ElectionSm.onDurableAdvanced
      dsimp only
      split <;> rfl
  | openTerm _ hev' => subst hev'; exact hev.elim
  | gossip _ _ =>
    obtain ⟨_, _, hf⟩ := ElectionSm.advanceGossipCommit_frame s
    refine (hi.of_sm ?_ ?_ ?_ ?_).neutral ?_
    any_goals rw [hf]
    intro a ha
    obtain ⟨_, rfl⟩ := ElectionSm.advanceGossipCommit_out s a ha
    trivial
  | cut _ _ hev' => subst hev'; exact hev.elim
  | wipe _ hev' => subst hev'; exact hev.elim
  | fatal => exact hi.neutral (by simp [Neutral])
  | clean _ _ hev' => subst hev'; exact hev.elim
  | finish _ hev' =>
    rcases hev' with ⟨_, _, rfl, -⟩ | ⟨_, _, rfl⟩
    · exact hev.elim
    · exact hev.elim
  | shrink _ _ hev' => subst hev'; exact hev.elim
  | observeTerm term base _ hlt _ =>
    have hs : (ElectionSm.onDataTermObserved term base s) = ({ s with
        termMap := s.termMap ++ [(term, base)], validatedUpTo := min s.validatedUpTo base
        unconfirmedBoundary := true }, [.persistTermMap (s.termMap ++ [(term, base)])]) := by
      simp [ElectionSm.onDataTermObserved, hlt]
    rw [hs]
    refine GateInv.neutral ?_ ?_
    · exact hi.of_sm rfl rfl rfl rfl
    · simp [Neutral]
  | clamp _ _ hev' => subst hev'; exact hev.elim
  | settle _ _ hev' => subst hev'; exact hev.elim
  | revert _ _ hev' => subst hev'; exact hev.elim
  | observeConfig position config _ _ =>
    obtain ⟨_, _, hf⟩ := ElectionSm.adoptConfig_frame s position config
    refine (hi.of_sm ?_ ?_ ?_ ?_).neutral ?_
    any_goals rw [hf]
    intro a ha
    rcases ElectionSm.adoptConfig_out _ _ _ a ha with ⟨_, _, _, _, rfl⟩ | rfl <;> trivial

theorem GateInv.steps {ev : Event} (hi : GateInv sm s n) (hs : Steps ev s s' out) (hev : Plain ev) :
    GateInv sm s' (n.execAll out) := by
  induction hs generalizing n with
  | nil => exact hi
  | cons ht _ ih =>
    rw [execAll_append]
    exact ih (hi.trans ht hev)

end NodeAgents

end UltimaCluster
