/-
  The lag barrier across the services of a node (`uc_service/src/lag.rs` and the plan
  loop of `apply_cycle`).

  Every service is cut into the steps between which another one may run: the loads at the
  top of a cycle, the reads of the slots one by one, the plan, every frame of a batch, and
  the store of `applied` at its end.  A frame moves the service's own cursor at once.  A
  `resume` is an attach or the end of a journal replay.  Left out: a poisoned or failed row,
  which takes no step, and what a frame does to the state machine.
-/
import UltimaCluster.ServiceApply

namespace UltimaCluster

/-- What the page declares. -/
structure LagPage where
  declared : List ℕ
  fsmLagBytes : ℕ
deriving DecidableEq

/-- `mode_from_page`. -/
def LagPage.mode (page : LagPage) : LagMode :=
  if page.declared = [] then .off else if page.fsmLagBytes = 0 then .lockstep else .bounded page.fsmLagBytes

/-- The slots, read at one instant. -/
def lagFloor (applied : ℕ → ℕ) (declared : List ℕ) : ℕ :=
  declared.foldl (fun f j => min f (applied j)) (2 ^ 64 - 1)

/-- The slots are read one by one; `least` is what one read of them all would have given when
    the first was read. -/
structure LagScan where
  counters : Counters
  least : ℕ
  todo : List ℕ
  floor : ℕ
  turns : ℕ
deriving DecidableEq

/-- A batch under way: the frames that are left of the run, where it began and where the
    last frame that was yielded starts. -/
structure LagBatch where
  counters : Counters
  least : ℕ
  target : ℕ
  oneFrame : Bool
  before : ℕ
  start : ℕ
  frames : List LogFrame
deriving DecidableEq

/-- What a service is at. -/
inductive LagPhase where
  | idle
  | scan (k : LagScan)
  | batch (k : LagBatch)
deriving DecidableEq

/-- One service. -/
structure LagRow where
  cursor : ℕ
  phase : LagPhase
  /-- The span of the frame that was passed last. -/
  last : ℕ
  /-- Where the row attached, or came out of a replay. -/
  resumedAt : ℕ

/-- The services of a node. -/
structure LagFleet where
  applied : ℕ → ℕ
  row : ℕ → LagRow

/-- A step of one service. -/
inductive LagStep where
  | begin_ (c : Counters)
  | look
  | decide (read : RingRun)
  | frame
  /-- A version record that is not decided yet, or that ends the service. -/
  | hold
  | publish
  | resume (pos : ℕ)
deriving DecidableEq

/-- A run ends with a padding, if it has one. -/
def paddingEnds : List LogFrame → Bool
  | [] => true
  | f :: fs => (f.frameType != frameTypePadding || fs.isEmpty) && paddingEnds fs

namespace LagFleet

variable (page : LagPage)

def freshScan (s : LagFleet) (c : Counters) (turns : ℕ) : LagPhase :=
  .scan ⟨c, lagFloor s.applied page.declared, page.declared, 2 ^ 64 - 1, turns⟩

def set (s : LagFleet) (i : ℕ) (row : LagRow) : LagFleet := { s with row := Function.update s.row i row }

def store (s : LagFleet) (i applied : ℕ) : LagFleet :=
  { s with applied := Function.update s.applied i applied }

/-- Nothing more is yielded. -/
def Over (row : LagRow) (k : LagBatch) : Prop := ∀ f ∈ k.frames.head?, k.target < row.cursor + f.span

instance (row : LagRow) (k : LagBatch) : Decidable (Over row k) :=
  inferInstanceAs (Decidable (∀ f ∈ k.frames.head?, k.target < row.cursor + f.span))

/-- The plan, after the last slot is read. -/
def decidePlan (s : LagFleet) (row : LagRow) (k : LagScan) (read : RingRun) : LagPhase :=
  match lagPlan page.mode k.floor row.cursor k.counters with
  | none =>
    if page.mode = .lockstep ∧ 0 < k.turns then s.freshScan page k.counters (k.turns - 1) else .idle
  | some (target, oneFrame) =>
    if target ≤ row.cursor then .idle
    else
      match read with
      | .run frames => .batch ⟨k.counters, k.least, target, oneFrame, row.cursor, row.cursor, frames⟩
      | .notCommitted | .overrun => .idle

/-- `FrameIter::next`, and the end of a one-frame batch. -/
def passFrame (row : LagRow) (k : LagBatch) : LagRow :=
  match k.frames with
  | [] => row
  | f :: fs =>
    if k.target < row.cursor + f.span then row
    else if f.frameType = frameTypePadding then
      { row with cursor := row.cursor + f.span, last := f.span, phase := .batch { k with frames := fs } }
    else
      { row with
        cursor := row.cursor + f.span, last := f.span
        phase := .batch { k with start := row.cursor, frames := if k.oneFrame then [] else fs } }

/-- One step of a service. -/
def exec (s : LagFleet) : ℕ × LagStep → LagFleet
  | (i, step) =>
    let row := s.row i
    match step, row.phase with
    | .begin_ c, .idle => s.set i { row with phase := s.freshScan page c lagWaitTurns }
    | .look, .scan k =>
      match k.todo with
      | j :: todo =>
        s.set i { row with phase := .scan { k with todo, floor := min k.floor (s.applied j) } }
      | [] => s
    | .decide read, .scan k =>
      if k.todo = [] then s.set i { row with phase := s.decidePlan page row k read } else s
    | .frame, .batch k => s.set i (passFrame row k)
    | .hold, .batch k => (s.store i k.start).set i { row with cursor := k.start, phase := .idle }
    | .publish, .batch k =>
      let s := s.store i row.cursor
      s.set i
        { row with
          phase := if row.cursor = k.before then .idle else s.freshScan page k.counters lagWaitTurns }
    | .resume pos, _ => (s.store i pos).set i { row with cursor := pos, phase := .idle, resumedAt := pos }
    | _, _ => s

def run (s : LagFleet) (steps : List (ℕ × LagStep)) : LagFleet := steps.foldl (exec page) s

/-- The counters are words; a run is what the ring gives; a batch is published at its end;
    no slot is lowered. -/
def Valid (s : LagFleet) : ℕ × LagStep → Prop
  | (_, .begin_ c) => c.commit < 2 ^ 64 ∧ c.durable < 2 ^ 64
  | (_, .decide (.run frames)) => paddingEnds frames = true
  | (i, .publish) =>
    match (s.row i).phase with
    | .batch k => Over (s.row i) k
    | _ => True
  | (i, .resume pos) => s.applied i ≤ pos
  | _ => True

instance (s : LagFleet) : (step : ℕ × LagStep) → Decidable (s.Valid step)
  | (_, .begin_ _) => inferInstanceAs (Decidable (_ ∧ _))
  | (_, .decide (.run _)) => inferInstanceAs (Decidable (_ = true))
  | (i, .publish) =>
    match h : (s.row i).phase with
    | .batch k => decidable_of_iff (Over (s.row i) k) (by simp [Valid, h])
    | .idle => .isTrue (by simp [Valid, h])
    | .scan _ => .isTrue (by simp [Valid, h])
  | (_, .resume _) => inferInstanceAs (Decidable (_ ≤ _))
  | (_, .look) | (_, .frame) | (_, .hold) | (_, .decide .notCommitted) | (_, .decide .overrun) =>
    .isTrue trivial

def Runs (s : LagFleet) (steps : List (ℕ × LagStep)) : Prop := Trace.Admits (exec page) Valid s steps

instance (s : LagFleet) (steps : List (ℕ × LagStep)) : Decidable (s.Runs page steps) :=
  inferInstanceAs (Decidable (Trace.Admits (exec page) Valid s steps))

/-- The barrier tells a service to wait: `Plan::Wait`, or a cap within the next frame. -/
def ToldToWait (row : LagRow) : Prop :=
  match row.phase with
  | .idle => False
  | .scan k => k.todo = [] ∧ lagPlan page.mode k.floor row.cursor k.counters = none
  | .batch k => Over row k ∧ row.cursor = k.before ∧ k.target < k.counters.head

/-- When it began to read the slots, no declared one was below the cursor. -/
def AtMinimum (row : LagRow) : Prop :=
  match row.phase with
  | .idle => False
  | .scan k => row.cursor ≤ k.least
  | .batch k => k.before ≤ k.least

/-- The frame at the cursor, where it is known, has at most `lag` bytes. -/
def SmallNext (row : LagRow) : Prop :=
  match row.phase with
  | .batch k => ∃ f ∈ k.frames.head?, page.mode = .lockstep ∨ f.span ≤ page.fsmLagBytes
  | _ => True

/-- How far a live cursor may be past a slot. -/
def slack (row : LagRow) : ℕ := page.fsmLagBytes + if page.mode = .lockstep then row.last else 0

/-! ## The invariant -/

/-- What a phase of the row `i` rests on. -/
def PhaseInv (applied : ℕ → ℕ) (i : ℕ) (row : LagRow) : Prop :=
  match row.phase with
  | .idle => applied i = row.cursor
  | .scan k =>
    applied i = row.cursor ∧ (∃ seen, page.declared = seen ++ k.todo ∧ ∀ j ∈ seen, k.floor ≤ applied j) ∧
      (∀ j ∈ page.declared, k.least ≤ applied j) ∧ k.least ≤ k.floor ∧ k.counters.head < 2 ^ 64
  | .batch k =>
    applied i = k.before ∧ k.before ≤ k.start ∧ k.start ≤ row.cursor ∧ row.cursor ≤ k.target ∧
      (∀ lag, page.mode = .bounded lag → (∀ j ∈ page.declared, k.target ≤ applied j + lag) ∧
        (k.before ≤ k.least → k.target = k.counters.head ∨ k.before + lag ≤ k.target)) ∧
      (page.mode = .lockstep → k.oneFrame = true ∧ k.target = k.counters.head ∧
        (∀ j ∈ page.declared, k.before ≤ applied j) ∧
        (row.cursor = k.before ∨ k.frames = [] ∧ row.cursor = k.before + row.last)) ∧
      paddingEnds k.frames = true ∧ k.counters.head < 2 ^ 64 ∧ (page.mode = .off → k.target = k.counters.head)

/-- The bound of one service. -/
structure RowInv (applied : ℕ → ℕ) (i : ℕ) (row : LagRow) : Prop where
  phase : PhaseInv page applied i row
  bound : row.cursor ≤ row.resumedAt ∨ ∀ j ∈ page.declared, row.cursor ≤ applied j + slack page row

variable {page} {s : LagFleet} {applied applied' : ℕ → ℕ} {i : ℕ} {row : LagRow}

theorem foldl_min_le (applied : ℕ → ℕ) (l : List ℕ) (f : ℕ) : l.foldl (fun f j => min f (applied j)) f ≤ f ∧
    ∀ j ∈ l, l.foldl (fun f j => min f (applied j)) f ≤ applied j := by
  induction l generalizing f with
  | nil => exact ⟨le_rfl, by simp⟩
  | cons x l ih =>
    obtain ⟨hle, hall⟩ := ih (min f (applied x))
    refine ⟨hle.trans (min_le_left _ _), fun j hj => ?_⟩
    rcases List.mem_cons.mp hj with rfl | hj
    · exact hle.trans (min_le_right _ _)
    · exact hall j hj

theorem RowInv.mono (h : RowInv page applied i row) (hle : ∀ j, applied j ≤ applied' j)
    (hown : applied' i = applied i) : RowInv page applied' i row := by
  obtain ⟨hphase, hbound⟩ := h
  refine ⟨?_, hbound.imp_right fun hall j hj => (hall j hj).trans (Nat.add_le_add_right (hle j) _)⟩
  unfold PhaseInv at hphase ⊢
  cases hp : row.phase with
  | idle =>
    simp only [hp] at hphase ⊢
    rw [hown, hphase]
  | scan k =>
    simp only [hp] at hphase ⊢
    obtain ⟨hcur, ⟨seen, hseen, hfloor⟩, hleast, hrest⟩ := hphase
    exact ⟨hown.trans hcur, ⟨seen, hseen, fun j hj => (hfloor j hj).trans (hle j)⟩,
      fun j hj => (hleast j hj).trans (hle j), hrest⟩
  | batch k =>
    simp only [hp] at hphase ⊢
    obtain ⟨hcur, h1, h2, h3, hbounded, hlock, hpad⟩ := hphase
    refine ⟨hown.trans hcur, h1, h2, h3, fun lag hm => ⟨fun j hj => ?_, (hbounded lag hm).2⟩,
      fun hm => ?_, hpad⟩
    · exact ((hbounded lag hm).1 j hj).trans (Nat.add_le_add_right (hle j) _)
    · obtain ⟨hone, htarget, hbefore, hframe⟩ := hlock hm
      exact ⟨hone, htarget, fun j hj => (hbefore j hj).trans (hle j), hframe⟩

variable (page) in
/-- What a service has read of the slots is never above them, and a batch stays below what was
    planned. -/
def Inv (s : LagFleet) : Prop := ∀ i, RowInv page s.applied i (s.row i)

theorem Inv.update (h : s.Inv page) {a : ℕ} (ha : s.applied i ≤ a)
    (hrow : RowInv page (Function.update s.applied i a) i row) : ((s.store i a).set i row).Inv page := by
  intro j
  by_cases hj : j = i
  · subst hj
    simpa [set, store] using hrow
  · have hle : ∀ x, s.applied x ≤ Function.update s.applied i a x := by
      intro x
      by_cases hx : x = i
      · subst hx
        simpa using ha
      · rw [Function.update_of_ne hx]
    have hmono := (h j).mono hle (Function.update_of_ne hj _ _)
    simpa [set, store, Function.update_of_ne hj] using hmono

theorem Inv.set (h : s.Inv page) (hrow : RowInv page s.applied i row) : (s.set i row).Inv page := by
  have hsame : s.store i (s.applied i) = s := by simp [store]
  rw [← hsame]
  exact h.update le_rfl (by simpa using hrow)

/-! ## Steps -/

theorem phaseInv_freshScan {c : Counters} (hc : c.head < 2 ^ 64) (turns : ℕ)
    (hown : s.applied i = row.cursor) :
    PhaseInv page s.applied i { row with phase := s.freshScan page c turns } := by
  obtain ⟨hmax, hall⟩ := foldl_min_le s.applied page.declared (2 ^ 64 - 1)
  exact ⟨hown, ⟨[], rfl, by simp⟩, hall, hmax, hc⟩

theorem phaseInv_look {k : LagScan} {j : ℕ} {todo : List ℕ} (hp : row.phase = .scan k)
    (htodo : k.todo = j :: todo) (h : PhaseInv page applied i row) :
    PhaseInv page applied i { row with phase := .scan { k with todo, floor := min k.floor (applied j) } } := by
  simp only [PhaseInv, hp] at h
  obtain ⟨hown, ⟨seen, hseen, hfloor⟩, hleast, hle, hc⟩ := h
  have hj : j ∈ page.declared := by
    rw [hseen, htodo]
    exact List.mem_append_right _ List.mem_cons_self
  refine ⟨hown, ⟨seen ++ [j], ?_, ?_⟩, hleast, le_min hle (hleast j hj), hc⟩
  · rw [hseen, htodo, List.append_assoc]
    rfl
  · intro x hx
    rcases List.mem_snoc.mp hx with hx | rfl
    · exact (min_le_left _ _).trans (hfloor x hx)
    · exact min_le_right _ _

theorem lagPlan_spec {mode : LagMode} {floor cursor target : ℕ} {c : Counters} {oneFrame : Bool}
    (h : lagPlan mode floor cursor c = some (target, oneFrame)) (hlt : cursor < target) :
    (∀ lag, mode = .bounded lag → target = min c.head (min (floor + lag) (2 ^ 64 - 1))) ∧
    (mode = .lockstep → oneFrame = true ∧ target = c.head ∧ cursor ≤ floor) ∧
    (mode = .off → target = c.head) := by
  unfold lagPlan at h
  by_cases hhead : c.head ≤ cursor
  · rw [if_pos hhead] at h
    cases h
    omega
  rw [if_neg hhead] at h
  cases mode with
  | off =>
    cases h
    exact ⟨(fun _ hm => nomatch hm), (fun hm => nomatch hm), fun _ => rfl⟩
  | lockstep =>
    refine ⟨(fun _ hm => nomatch hm), fun _ => ?_, fun hm => nomatch hm⟩
    dsimp only at h
    split_ifs at h with hfloor
    cases h
    exact ⟨rfl, rfl, not_lt.mp hfloor⟩
  | bounded lag =>
    refine ⟨?_, (fun hm => nomatch hm), fun hm => nomatch hm⟩
    rintro _ ⟨⟩
    dsimp only at h
    split_ifs at h with hcap
    cases h
    rfl

theorem rowInv_decide {k : LagScan} {read : RingRun} (hp : row.phase = .scan k) (htodo : k.todo = [])
    (hread : ∀ frames, read = .run frames → paddingEnds frames = true)
    (h : PhaseInv page s.applied i row) :
    PhaseInv page s.applied i { row with phase := s.decidePlan page row k read } := by
  simp only [PhaseInv, hp] at h
  obtain ⟨hown, ⟨seen, hseen, hfloor⟩, hleast, hle, hc⟩ := h
  rw [htodo, List.append_nil] at hseen
  subst hseen
  unfold decidePlan
  cases hplan : lagPlan page.mode k.floor row.cursor k.counters with
  | none =>
    split_ifs
    · exact phaseInv_freshScan hc _ hown
    · exact hown
  | some plan =>
    obtain ⟨target, oneFrame⟩ := plan
    dsimp only
    split_ifs with htarget
    · exact hown
    · rw [not_le] at htarget
      obtain ⟨hbounded, hlock, hoff⟩ := lagPlan_spec hplan htarget
      cases read with
      | notCommitted => exact hown
      | overrun => exact hown
      | run frames =>
        refine ⟨hown, le_rfl, le_rfl, htarget.le, fun lag hm => ?_, fun hm => ?_, hread frames rfl, hc, hoff⟩
        · have hexact := hbounded lag hm
          refine ⟨fun j hj => ?_, fun hmin => ?_⟩
          · have := hfloor j hj
            dsimp only
            omega
          · dsimp only at hmin ⊢
            omega
        · obtain ⟨hone, hhead, hcur⟩ := hlock hm
          exact ⟨hone, hhead, fun j hj => hcur.trans (hfloor j hj), .inl rfl⟩

theorem mode_cases (page : LagPage) : (page.mode = .off ∧ page.declared = []) ∨
    (page.mode = .lockstep ∧ page.fsmLagBytes = 0) ∨
    (page.mode = .bounded page.fsmLagBytes ∧ 0 < page.fsmLagBytes) := by
  unfold LagPage.mode
  split_ifs with hdecl hlag
  · exact .inl ⟨rfl, hdecl⟩
  · exact .inr (.inl ⟨rfl, hlag⟩)
  · exact .inr (.inr ⟨rfl, Nat.pos_of_ne_zero hlag⟩)

theorem paddingEnds_cons {f : LogFrame} {fs : List LogFrame} (h : paddingEnds (f :: fs) = true) :
    paddingEnds fs = true ∧ (f.frameType = frameTypePadding → fs = []) := by
  simp only [paddingEnds, Bool.and_eq_true, Bool.or_eq_true, bne_iff_ne, List.isEmpty_iff] at h
  exact ⟨h.2, fun hpad => h.1.resolve_left fun hne => hne hpad⟩

theorem RowInv.passFrame {k : LagBatch} (hp : row.phase = .batch k) (h : RowInv page applied i row) :
    RowInv page applied i (passFrame row k) := by
  unfold LagFleet.passFrame
  cases hframes : k.frames with
  | nil => exact h
  | cons f fs =>
    dsimp only
    by_cases htarget : k.target < row.cursor + f.span
    · rw [if_pos htarget]
      exact h
    rw [if_neg htarget]
    rw [not_lt] at htarget
    have hphase := h.phase
    simp only [PhaseInv, hp] at hphase
    obtain ⟨hown, hstart, hcur, -, hbounded, hlock, hpad, hoff⟩ := hphase
    rw [hframes] at hpad
    obtain ⟨hrest, hlast⟩ := paddingEnds_cons hpad
    have hstep : ∀ j ∈ page.declared, row.cursor + f.span ≤ applied j + (page.fsmLagBytes +
        if page.mode = .lockstep then f.span else 0) := by
      intro j hj
      obtain ⟨-, hnil⟩ | ⟨hm, -⟩ | ⟨hm, -⟩ := mode_cases page
      · rw [hnil] at hj
        cases hj
      · obtain ⟨-, -, hbefore, hone⟩ := hlock hm
        have hfirst : row.cursor = k.before := hone.resolve_right fun hand => by simp [hframes] at hand
        have := hbefore j hj
        rw [if_pos hm]
        omega
      · have := (hbounded _ hm).1 j hj
        omega
    have hlock' : ∀ fs' : List LogFrame, fs' = [] → page.mode = .lockstep → k.oneFrame = true ∧
        k.target = k.counters.head ∧ (∀ j ∈ page.declared, k.before ≤ applied j) ∧
        (row.cursor + f.span = k.before ∨ fs' = [] ∧ row.cursor + f.span = k.before + f.span) := by
      rintro _ rfl hm
      obtain ⟨hone, hhead, hbefore, hframe⟩ := hlock hm
      have hfirst : row.cursor = k.before := hframe.resolve_right fun hand => by simp [hframes] at hand
      exact ⟨hone, hhead, hbefore, .inr ⟨rfl, by rw [hfirst]⟩⟩
    by_cases hpadding : f.frameType = frameTypePadding
    · rw [if_pos hpadding]
      refine ⟨⟨hown, hstart, hcur.trans (Nat.le_add_right _ _), htarget, hbounded,
        hlock' fs (hlast hpadding), hrest, hoff⟩, .inr hstep⟩
    · rw [if_neg hpadding]
      refine ⟨⟨hown, hstart.trans hcur, Nat.le_add_right _ _, htarget, hbounded, fun hm => ?_, ?_, hoff⟩,
        .inr hstep⟩
      · exact hlock' _ (if_pos (hlock hm).1) hm
      · split_ifs
        · rfl
        · exact hrest

theorem Inv.exec (h : s.Inv page) (step : ℕ × LagStep) (hv : s.Valid step) : (s.exec page step).Inv page := by
  obtain ⟨i, step⟩ := step
  have hrow := h i
  have hphase := hrow.phase
  cases step with
  | begin_ c =>
    simp only [LagFleet.exec]
    cases hp : (s.row i).phase with
    | idle =>
      simp only [PhaseInv, hp] at hphase
      have hc : c.head < 2 ^ 64 := lt_of_le_of_lt (min_le_left _ _) hv.1
      exact h.set ⟨phaseInv_freshScan hc _ hphase, hrow.bound⟩
    | scan k => exact h
    | batch k => exact h
  | look =>
    simp only [LagFleet.exec]
    cases hp : (s.row i).phase with
    | scan k =>
      dsimp only
      cases htodo : k.todo with
      | nil => exact h
      | cons j todo => exact h.set ⟨phaseInv_look hp htodo hphase, hrow.bound⟩
    | idle => exact h
    | batch k => exact h
  | decide read =>
    simp only [LagFleet.exec]
    cases hp : (s.row i).phase with
    | scan k =>
      dsimp only
      split_ifs with htodo
      · refine h.set ⟨rowInv_decide hp htodo ?_ hphase, hrow.bound⟩
        rintro frames rfl
        exact hv
      · exact h
    | idle => exact h
    | batch k => exact h
  | frame =>
    simp only [LagFleet.exec]
    cases hp : (s.row i).phase with
    | batch k => exact h.set (hrow.passFrame hp)
    | idle => exact h
    | scan k => exact h
  | hold =>
    simp only [LagFleet.exec]
    cases hp : (s.row i).phase with
    | batch k =>
      simp only [PhaseInv, hp] at hphase
      obtain ⟨hown, hstart, hcur, -⟩ := hphase
      refine h.update (hown.trans_le hstart) ⟨by simp [PhaseInv], ?_⟩
      refine hrow.bound.imp (fun hle => hcur.trans hle) fun hall j hj => ?_
      have hle : s.applied j ≤ Function.update s.applied i k.start j := by
        by_cases hji : j = i
        · subst hji
          simpa using hown.trans_le hstart
        · rw [Function.update_of_ne hji]
      exact hcur.trans ((hall j hj).trans (Nat.add_le_add_right hle _))
    | idle => exact h
    | scan k => exact h
  | publish =>
    simp only [LagFleet.exec]
    cases hp : (s.row i).phase with
    | batch k =>
      simp only [PhaseInv, hp] at hphase
      obtain ⟨hown, hstart, hcur, -, -, -, -, hc, -⟩ := hphase
      have hle : s.applied i ≤ (s.row i).cursor := hown.trans_le (hstart.trans hcur)
      refine h.update hle ⟨?_, ?_⟩
      · have hnow : (s.store i (s.row i).cursor).applied i = (s.row i).cursor := by simp [store]
        split_ifs
        · exact hnow
        · exact phaseInv_freshScan hc _ hnow
      · refine hrow.bound.imp_right fun hall j hj => (hall j hj).trans (Nat.add_le_add_right ?_ _)
        by_cases hji : j = i
        · subst hji
          simpa using hle
        · rw [Function.update_of_ne hji]
    | idle => exact h
    | scan k => exact h
  | resume pos =>
    have hres : s.exec page (i, .resume pos) =
        (s.store i pos).set i { s.row i with cursor := pos, phase := .idle, resumedAt := pos } := by
      simp only [LagFleet.exec]
    rw [hres]
    exact h.update hv ⟨by simp [PhaseInv], .inl le_rfl⟩

theorem inv_run (h : s.Inv page) {steps : List (ℕ × LagStep)} (hruns : s.Runs page steps) :
    (s.run page steps).Inv page := by
  refine Trace.Admits.rule (P := fun steps => (s.run page steps).Inv page) h
    (fun steps step hinv hv => ?_) hruns
  rw [run, List.foldl_append]
  exact hinv.exec step hv

/-! ## The barrier -/

/-- Services that attached where their slots say. -/
def attached (applied : ℕ → ℕ) : LagFleet := ⟨applied, fun i => ⟨applied i, .idle, 0, applied i⟩⟩

theorem inv_attached (applied : ℕ → ℕ) : (attached applied).Inv page :=
  fun _ => ⟨rfl, .inl le_rfl⟩

theorem not_toldToWait (h : RowInv page applied i row) (hmin : AtMinimum row)
    (hsmall : SmallNext page row) : ¬ ToldToWait page row := by
  have hphase := h.phase
  unfold AtMinimum at hmin
  unfold SmallNext at hsmall
  unfold ToldToWait
  unfold PhaseInv at hphase
  cases hp : row.phase with
  | idle => simp
  | scan k =>
    simp only [hp] at hphase hmin ⊢
    obtain ⟨-, -, -, hle, hc⟩ := hphase
    rintro ⟨-, hwait⟩
    unfold lagPlan at hwait
    obtain ⟨hm, -⟩ | ⟨hm, -⟩ | ⟨hm, hpos⟩ := mode_cases page
    · simp [hm] at hwait
    · simp only [hm] at hwait
      split_ifs at hwait
      omega
    · simp only [hm] at hwait
      split_ifs at hwait
      omega
  | batch k =>
    simp only [hp] at hphase hmin hsmall ⊢
    obtain ⟨-, -, -, -, hbounded, hlock, -, -, hoff⟩ := hphase
    rintro ⟨hover, hcur, hhead⟩
    obtain ⟨f, hf, hsize⟩ := hsmall
    have hpast := hover f hf
    obtain ⟨hm, -⟩ | ⟨hm, -⟩ | ⟨hm, hpos⟩ := mode_cases page
    · exact absurd (hoff hm) hhead.ne
    · exact absurd (hlock hm).2.1 hhead.ne
    · have hcap := (hbounded _ hm).2 hmin
      have hle := hsize.resolve_left (by rw [hm]; simp)
      omega

/-- In every interleaving in which no slot is lowered: a cursor that a live cycle moved is at
    most the lag, in lockstep one frame, past every declared slot; and a service that no
    declared slot was below when it began to read them is not told to wait, unless the
    next frame is longer than the lag. -/
theorem lag_barrier (page : LagPage) (applied : ℕ → ℕ) (steps : List (ℕ × LagStep))
    (h : (attached applied).Runs page steps) (i : ℕ) :
    (((((attached applied).run page steps).row i).cursor ≤
        (((attached applied).run page steps).row i).resumedAt) ∨
      ∀ j ∈ page.declared, (((attached applied).run page steps).row i).cursor ≤
        ((attached applied).run page steps).applied j +
          slack page (((attached applied).run page steps).row i)) ∧
    (AtMinimum (((attached applied).run page steps).row i) →
      SmallNext page (((attached applied).run page steps).row i) →
      ¬ ToldToWait page (((attached applied).run page steps).row i)) := by
  have hrow := inv_run (inv_attached applied) h i
  exact ⟨hrow.bound, not_toldToWait hrow⟩

/-- Two services, with a lag of one frame of 96 bytes. -/
def twoServices : LagPage := ⟨[0, 1], 96⟩

def message96 : LogFrame := ⟨frameTypeMessage, 0, 1, 1, 1, 0, List.replicate 64 0⟩

def allDurable : Counters := ⟨960, 960⟩

/-- One turn of service `i`, from the reads of both slots to the end of a batch of one frame. -/
def oneTurn (i : ℕ) : List (ℕ × LagStep) :=
  [(i, .look), (i, .look), (i, .decide (.run [message96])), (i, .frame), (i, .publish)]

/-- The first service is a frame ahead, and the other one passes it while the first reads. -/
def overtaken : List (ℕ × LagStep) :=
  [(0, .begin_ allDurable), (0, .look), (0, .look), (1, .begin_ allDurable)] ++ oneTurn 1 ++ oneTurn 1

def oneAhead : LagFleet := attached fun i => if i = 0 then 192 else 96

theorem lag_barrier_overtaken : (oneAhead.Runs twoServices overtaken ∧
    ((oneAhead.run twoServices overtaken).row 1).cursor = 288) ∧
      ∀ j ∈ twoServices.declared, 288 ≤ (oneAhead.run twoServices overtaken).applied j + 96 := by
  have hruns : oneAhead.Runs twoServices overtaken := by decide +kernel
  have hcursor : ((oneAhead.run twoServices overtaken).row 1).cursor = 288 := by decide +kernel
  have hslack : slack twoServices ((oneAhead.run twoServices overtaken).row 1) = 96 := by decide +kernel
  refine ⟨⟨hruns, hcursor⟩, ?_⟩
  have hbound := (lag_barrier twoServices _ overtaken hruns 1).1.resolve_left (by decide +kernel)
  intro j hj
  have hj' := hbound j hj
  change ((oneAhead.run twoServices overtaken).row 1).cursor ≤ (oneAhead.run twoServices overtaken).applied j +
    slack twoServices ((oneAhead.run twoServices overtaken).row 1) at hj'
  rwa [hcursor, hslack] at hj'

/-- A service that resumes ahead of another one is further than the lag past it; and one that
    came to the minimum while it read the slots is told to wait, with a frame of `lag`
    bytes ahead. -/
theorem barrier_exceptions :
    ((attached fun _ => 0).Runs twoServices [(0, .resume 960)] ∧
      ((attached fun _ => 0).run twoServices [(0, .resume 960)]).applied 1 + 96 <
        (((attached fun _ => 0).run twoServices [(0, .resume 960)]).row 0).cursor) ∧
    (oneAhead.Runs twoServices overtaken ∧
      (∀ j ∈ twoServices.declared,
        ((oneAhead.run twoServices overtaken).row 0).cursor ≤ (oneAhead.run twoServices overtaken).applied j) ∧
      ((oneAhead.run twoServices overtaken).row 0).cursor + message96.span ≤ allDurable.head ∧
      message96.span ≤ twoServices.fsmLagBytes ∧
      ToldToWait twoServices ((oneAhead.run twoServices overtaken).row 0)) := by
  refine ⟨⟨by decide +kernel, by decide +kernel⟩, by decide +kernel, by decide +kernel, by decide +kernel,
    by decide +kernel, ?_⟩
  have hphase : ((oneAhead.run twoServices overtaken).row 0).phase =
      .scan ⟨allDurable, 96, [], 96, lagWaitTurns⟩ := by
    decide +kernel
  simp only [ToldToWait, hphase]
  exact ⟨trivial, by decide +kernel⟩

end LagFleet

end UltimaCluster
