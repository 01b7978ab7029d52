/-
  The leader's log clock (`uc_node/src/log_clock.rs`): the monotonic clock plus a
  held offset that follows the steps of the wall clock.

  Times are in ns and sums wrap at `2 ^ 64`.  When a sample is taken, and whether
  the bracket around it is narrow enough, is left to the calls.
-/
import Mathlib.Data.List.Basic
import Mathlib.Tactic.Linarith

namespace UltimaCluster

/-- `SMEAR_PPM`. -/
def smearPpm : ℕ := 500

/-- `STEP_TOLERANCE_NS`. -/
def stepToleranceNs : ℕ := 10000

/-- `Step`. -/
inductive WallStep where
  | forward (ns : ℕ)
  | backward (ns : ℕ)
deriving DecidableEq

/-- The clock between two samples. -/
structure LogClockCore where
  anchorMonoNs : ℕ
  anchorWallNs : ℕ
  /-- What is still to be retired, from the anchor on. -/
  smearNs : ℕ
deriving DecidableEq

namespace LogClockCore

def new (monoNs wallNs : ℕ) : LogClockCore := ⟨monoNs, wallNs, 0⟩

/-- How much of the smear is gone. -/
def retired (c : LogClockCore) (d : ℕ) : ℕ :=
  if c.smearNs = 0 then 0 else min (d * smearPpm / 1000000) c.smearNs

/-- The time at an instant. -/
def derived (c : LogClockCore) (monoNs : ℕ) : ℕ :=
  let d := monoNs - c.anchorMonoNs
  (c.anchorWallNs + d - c.retired d) % 2 ^ 64

/-- What is left to retire. -/
def remainingSmearNs (c : LogClockCore) (monoNs : ℕ) : ℕ :=
  c.smearNs - c.retired (monoNs - c.anchorMonoNs)

/-- `resample`: a step of the wall is what the gap has changed beyond the smear
    that is still to be retired. -/
def resample (c : LogClockCore) (monoNs wallNs : ℕ) : Option WallStep × LogClockCore :=
  let remaining := c.remainingSmearNs monoNs
  let derived := c.derived monoNs
  let gap : ℤ := derived - wallNs
  let step : ℤ := gap - remaining
  if step.natAbs ≤ stepToleranceNs then (none, c)
  else if gap ≤ 0 then
    (some (.forward (-step).toNat), ⟨monoNs, wallNs, 0⟩)
  else
    (some (if 0 < step then .backward step.toNat else .forward (-step).toNat),
      ⟨monoNs, derived, gap.toNat⟩)

end LogClockCore

/-- A call on the clock. -/
inductive ClockCall where
  | wallAt (monoNs : ℕ)
  | resample (monoNs wallNs : ℕ)
deriving DecidableEq

namespace LogClockCore

def exec (c : LogClockCore) : ClockCall → LogClockCore
  | .wallAt _ => c
  | .resample m w => (c.resample m w).2

/-- The returned times of a run, each with the instant it is for. -/
def returned : LogClockCore → List ClockCall → List (ℕ × ℕ)
  | _, [] => []
  | c, .wallAt m :: calls => (m, c.derived m) :: c.returned calls
  | c, .resample m w :: calls => (c.resample m w).2.returned calls

/-- Instants do not decrease: those of the samples never, those of `wall_at` among
    themselves; a pass reads its instant before the sample that it takes.
    `last` is the last one of `wall_at`, `top` the last one of all. -/
def InOrder : ℕ → ℕ → List ClockCall → Prop
  | _, _, [] => True
  | last, top, .wallAt m :: calls => last ≤ m ∧ InOrder m (max top m) calls
  | last, top, .resample m _ :: calls => top ≤ m ∧ InOrder last m calls

/-- No instant is above `mono` and no sample above `wall`. -/
def Within (mono wall : ℕ) (calls : List ClockCall) : Prop :=
  ∀ call ∈ calls, match call with
    | .wallAt m => m ≤ mono
    | .resample m w => m ≤ mono ∧ w ≤ wall

/-! ## The arithmetic -/

variable {c : LogClockCore} {mono wall m w x y : ℕ}

theorem retired_eq (c : LogClockCore) (d : ℕ) : c.retired d = min (d / 2000) c.smearNs := by
  unfold retired smearPpm
  split
  · omega
  · rw [show d * 500 / 1000000 = d / 2000 by omega]

/-- The anchor is not above the times of a run. -/
structure Fit (mono wall : ℕ) (c : LogClockCore) : Prop where
  anchor : c.anchorMonoNs ≤ mono
  value : c.anchorWallNs ≤ wall + c.anchorMonoNs
  word : wall + mono < 2 ^ 64

theorem Fit.derived_eq (h : Fit mono wall c) (hx : x ≤ mono) : c.derived x =
    c.anchorWallNs + (x - c.anchorMonoNs) -
      min ((x - c.anchorMonoNs) / 2000) c.smearNs := by
  have ha := h.anchor
  have hv := h.value
  have hw := h.word
  simp only [derived, retired_eq]
  exact Nat.mod_eq_of_lt (by omega)

theorem Fit.derived_mono (h : Fit mono wall c) (hxy : x ≤ y) (hy : y ≤ mono) :
    c.derived x ≤ c.derived y := by
  rw [h.derived_eq (hxy.trans hy), h.derived_eq hy]
  omega

theorem Fit.derived_le (h : Fit mono wall c) (hx : x ≤ mono) (ha : c.anchorMonoNs ≤ x) :
    c.derived x ≤ wall + x := by
  have hv := h.value
  rw [h.derived_eq hx]
  omega

theorem Fit.derived_sub (h : Fit mono wall c) (hx : x ≤ mono) (ha : c.anchorMonoNs ≤ x) :
    (c.derived x : ℤ) - c.remainingSmearNs x = c.anchorWallNs - c.smearNs + (x - c.anchorMonoNs) := by
  rw [h.derived_eq hx, remainingSmearNs, retired_eq]
  omega

/-- What a resample does: nothing, or a new anchor from which
    the whole gap is retired. -/
theorem resample_cases (c : LogClockCore) (m w : ℕ) :
    ((c.resample m w).1 = none ∧ (c.resample m w).2 = c ∧
      ((c.derived m : ℤ) - w - c.remainingSmearNs m).natAbs ≤ stepToleranceNs) ∨
    ((c.resample m w).1 ≠ none ∧
      (c.resample m w).2 = ⟨m, max (c.derived m) w, c.derived m - w⟩) := by
  simp only [resample]
  split
  · exact .inl ⟨rfl, rfl, by assumption⟩
  · right
    split
    · refine ⟨Option.some_ne_none _, ?_⟩
      rw [max_eq_right (by omega), Nat.sub_eq_zero_of_le (by omega)]
    · refine ⟨Option.some_ne_none _, ?_⟩
      rw [max_eq_left (by omega), show ((c.derived m : ℤ) - w).toNat = c.derived m - w by omega]

theorem Fit.resample (h : Fit mono wall c) (ha : c.anchorMonoNs ≤ m) (hm : m ≤ mono) (hw : w ≤ wall) :
    Fit mono wall (c.resample m w).2 ∧ (c.resample m w).2.anchorMonoNs ≤ m := by
  rcases resample_cases c m w with ⟨-, heq, -⟩ | ⟨-, heq⟩
  · rw [heq]
    exact ⟨h, ha⟩
  · rw [heq]
    refine ⟨⟨hm, ?_, h.word⟩, le_rfl⟩
    have := h.derived_le hm ha
    exact max_le this (by omega)

theorem Fit.resample_derived (h : Fit mono wall c) (ha : c.anchorMonoNs ≤ m) (hm : m ≤ mono)
    (hw : w ≤ wall) (hx : x ≤ m) : c.derived x ≤ (c.resample m w).2.derived x := by
  have h' := (h.resample ha hm hw).1
  rcases resample_cases c m w with ⟨-, heq, -⟩ | ⟨-, heq⟩
  · rw [heq]
  · refine (h.derived_mono hx hm).trans ?_
    rw [h'.derived_eq (hx.trans hm), heq]
    dsimp only
    omega

theorem Fit.resample_ge (h : Fit mono wall c) (ha : c.anchorMonoNs ≤ m) (hm : m ≤ mono) (hw : w ≤ wall)
    (hstep : (c.resample m w).1 ≠ none) (hx : x ≤ mono) :
    w + (x - m) ≤ (c.resample m w).2.derived x := by
  have h' := (h.resample ha hm hw).1
  rcases resample_cases c m w with ⟨hnone, -, -⟩ | ⟨-, heq⟩
  · exact absurd hnone hstep
  · rw [h'.derived_eq hx, heq]
    dsimp only
    omega

theorem resample_within (h : ((c.derived m : ℤ) - w - c.remainingSmearNs m).natAbs ≤ stepToleranceNs) :
    (c.resample m w).2 = c := by
  simp only [resample]
  rw [if_pos h]

/-! ## Runs -/

/-- What a run is given: the instants in their order, and none too large. -/
structure Given (mono wall last top : ℕ) (c : LogClockCore) (calls : List ClockCall) : Prop where
  fit : Fit mono wall c
  order : InOrder last top calls
  within : Within mono wall calls
  anchor : c.anchorMonoNs ≤ top
  last : last ≤ top
  top : top ≤ mono

variable {last top : ℕ} {calls : List ClockCall}

theorem Given.wallAt (h : Given mono wall last top c (.wallAt m :: calls)) :
    Given mono wall m (max top m) c calls ∧ last ≤ m ∧ m ≤ mono := by
  have hm : m ≤ mono := h.within _ List.mem_cons_self
  exact ⟨⟨h.fit, h.order.2, fun call hc => h.within call (List.mem_cons_of_mem _ hc),
    le_max_of_le_left h.anchor, le_max_right _ _, max_le h.top hm⟩, h.order.1, hm⟩

theorem Given.sample (h : Given mono wall last top c (.resample m w :: calls)) :
    Given mono wall last m (c.resample m w).2 calls ∧ top ≤ m ∧ m ≤ mono ∧ w ≤ wall := by
  obtain ⟨hm, hw⟩ := h.within _ List.mem_cons_self
  obtain ⟨hfit, hle⟩ := h.fit.resample (h.anchor.trans h.order.1) hm hw
  exact ⟨⟨hfit, h.order.2, fun call hc => h.within call (List.mem_cons_of_mem _ hc), hle,
    h.last.trans h.order.1, hm⟩, h.order.1, hm, hw⟩

theorem Given.run {pre post : List ClockCall} (h : Given mono wall last top c (pre ++ post)) :
    ∃ last' top', Given mono wall last' top' (pre.foldl exec c) post := by
  induction pre generalizing c last top with
  | nil => exact ⟨last, top, h⟩
  | cons call pre ih =>
    cases call with
    | wallAt m => exact ih h.wallAt.1
    | resample m w => exact ih h.sample.1

theorem returned_mono (h : Given mono wall last top c calls) :
    (c.returned calls).Pairwise (fun p q => p.2 ≤ q.2) ∧ ∀ p ∈ c.returned calls, c.derived last ≤ p.2 := by
  induction calls generalizing c last top with
  | nil => exact ⟨.nil, by simp [returned]⟩
  | cons call calls ih =>
    cases call with
    | wallAt m =>
      obtain ⟨hrest, hlast, hm⟩ := h.wallAt
      obtain ⟨hpair, hlow⟩ := ih hrest
      have hnext := h.fit.derived_mono hlast hm
      refine ⟨List.pairwise_cons.mpr ⟨hlow, hpair⟩, fun p hp => ?_⟩
      rcases List.mem_cons.mp hp with rfl | hp
      · exact hnext
      · exact hnext.trans (hlow p hp)
    | resample m w =>
      obtain ⟨hrest, htop, hm, hw⟩ := h.sample
      obtain ⟨hpair, hlow⟩ := ih hrest
      refine ⟨hpair, fun p hp => le_trans ?_ (hlow p hp)⟩
      exact h.fit.resample_derived (h.anchor.trans htop) hm hw (h.last.trans htop)

/-! ## The wall clock -/

/-- The samples are those of the wall clock. -/
def Truthful (realtime : ℕ → ℕ) (calls : List ClockCall) : Prop :=
  ∀ m w, .resample m w ∈ calls → w = realtime m

/-- From `m` on the wall clock only steps back. -/
def StepsBack (realtime : ℕ → ℕ) (m : ℕ) : Prop :=
  ∀ x y, m ≤ x → x ≤ y → realtime y ≤ realtime x + (y - x)

/-- From `m` on the wall clock does not step. -/
def Steady (realtime : ℕ → ℕ) (m : ℕ) : Prop := ∀ x, m ≤ x → realtime x = realtime m + (x - m)

variable {realtime : ℕ → ℕ}

theorem Truthful.tail {call : ClockCall} (h : Truthful realtime (call :: calls)) : Truthful realtime calls :=
  fun m w hc => h m w (List.mem_cons_of_mem _ hc)

theorem returned_above (h : Given mono wall last top c calls) (htop : m ≤ top)
    (htrue : Truthful realtime calls) (hback : StepsBack realtime m)
    (habove : ∀ x, m ≤ x → x ≤ mono → realtime x ≤ c.derived x) :
    ∀ p ∈ c.returned calls, m ≤ p.1 → realtime p.1 ≤ p.2 := by
  induction calls generalizing c last top with
  | nil => simp [returned]
  | cons call calls ih =>
    cases call with
    | wallAt x =>
      obtain ⟨hrest, -, hx⟩ := h.wallAt
      intro p hp hle
      rcases List.mem_cons.mp hp with rfl | hp
      · exact habove x hle hx
      · exact ih hrest (le_max_of_le_left htop) htrue.tail habove p hp hle
    | resample m' w =>
      obtain ⟨hrest, htop', hm', hw⟩ := h.sample
      obtain rfl := htrue m' w List.mem_cons_self
      refine ih hrest (htop.trans htop') htrue.tail fun x hx hle => ?_
      rcases resample_cases c m' (realtime m') with ⟨-, heq, -⟩ | ⟨hstep, -⟩
      · rw [heq]
        exact habove x hx hle
      · rcases Nat.le_total x m' with hxm | hmx
        · exact (habove x hx hle).trans
            (h.fit.resample_derived (h.anchor.trans htop') hm' hw hxm)
        · exact (hback m' x (htop.trans htop') hmx).trans
            (h.fit.resample_ge (h.anchor.trans htop') hm' hw hstep hle)

/-- Without its smear the clock is within the tolerance of the wall clock. -/
def Settled (realtime : ℕ → ℕ) (m mono : ℕ) (c : LogClockCore) : Prop :=
  ∀ x, m ≤ x → x ≤ mono →
    ((c.derived x : ℤ) - realtime x - c.remainingSmearNs x).natAbs ≤ stepToleranceNs

theorem returned_settled {n : ℕ} (h : Given mono wall last top c calls) (htop : m ≤ top)
    (htrue : Truthful realtime calls) (hset : Settled realtime m mono c) (hmn : m ≤ n)
    (hrem : ∀ x, n ≤ x → c.remainingSmearNs x = 0) :
    ∀ p ∈ c.returned calls, n ≤ p.1 →
      p.2 ≤ realtime p.1 + stepToleranceNs ∧ realtime p.1 ≤ p.2 + stepToleranceNs := by
  induction calls generalizing c last top with
  | nil => simp [returned]
  | cons call calls ih =>
    cases call with
    | wallAt x =>
      obtain ⟨hrest, -, hx⟩ := h.wallAt
      intro p hp hle
      rcases List.mem_cons.mp hp with rfl | hp
      · have hnear := hset x (hmn.trans hle) hx
        rw [hrem x hle] at hnear
        dsimp only
        omega
      · exact ih hrest (le_max_of_le_left htop) htrue.tail hset hrem p hp hle
    | resample m' w =>
      obtain ⟨hrest, htop', hm', hw⟩ := h.sample
      obtain rfl := htrue m' w List.mem_cons_self
      have heq := resample_within (hset m' (htop.trans htop') hm')
      rw [heq] at hrest
      rw [returned, heq]
      exact ih hrest (htop.trans htop') htrue.tail hset hrem

theorem Fit.settles (h : Fit mono wall c) (ha : c.anchorMonoNs ≤ m) (hm : m ≤ mono)
    (hw : realtime m ≤ wall) (hsteady : Steady realtime m) :
    Settled realtime m mono (c.resample m (realtime m)).2 := by
  have h' := (h.resample ha hm hw).1
  intro x hmx hx
  have hreal := hsteady x hmx
  rcases resample_cases c m (realtime m) with ⟨-, heq, hnear⟩ | ⟨-, heq⟩
  · have hat := h.derived_sub hm ha
    have hto := h.derived_sub hx (ha.trans hmx)
    rw [heq]
    omega
  · rw [heq] at h' ⊢
    have hto := h'.derived_sub hx hmx
    dsimp only at hto
    omega

theorem remainingSmearNs_retired (ha : c.anchorMonoNs ≤ m) (hx : m + 2000 * c.remainingSmearNs m ≤ x) :
    c.remainingSmearNs x = 0 := by
  simp only [remainingSmearNs, retired_eq] at *
  omega

/-- For instants and samples whose sum stays below `2 ^ 64`: the returned times do
    not decrease; from the boot, and from a sample that was found to be a step, they
    are not below a wall clock that only steps back; and after the last step of the
    wall clock the next resample leaves them within the tolerance, once the smear is
    retired. -/
theorem log_clock_runs (mono wall : ℕ) {mono₀ wall₀ : ℕ} {calls : List ClockCall}
    (hword : wall + mono < 2 ^ 64)
    (hboot : mono₀ ≤ mono ∧ wall₀ ≤ wall) (hin : Within mono wall calls) (hord : InOrder 0 mono₀ calls) :
    ((new mono₀ wall₀).returned calls).Pairwise (fun p q => p.2 ≤ q.2) ∧
    (∀ realtime : ℕ → ℕ, realtime mono₀ = wall₀ → Truthful realtime calls → StepsBack realtime mono₀ →
      ∀ p ∈ (new mono₀ wall₀).returned calls, mono₀ ≤ p.1 → realtime p.1 ≤ p.2) ∧
    ∀ (pre post : List ClockCall) (m : ℕ) (realtime : ℕ → ℕ),
      calls = pre ++ .resample m (realtime m) :: post → Truthful realtime post →
      let c := pre.foldl exec (new mono₀ wall₀)
      let c' := (c.resample m (realtime m)).2
      ((c.resample m (realtime m)).1 ≠ none → StepsBack realtime m →
        ∀ p ∈ c'.returned post, m ≤ p.1 → realtime p.1 ≤ p.2) ∧
      (Steady realtime m → ∀ p ∈ c'.returned post, m + 2000 * c'.remainingSmearNs m ≤ p.1 →
        p.2 ≤ realtime p.1 + stepToleranceNs ∧ realtime p.1 ≤ p.2 + stepToleranceNs) := by
  have hgiven : Given mono wall 0 mono₀ (new mono₀ wall₀) calls :=
    ⟨⟨hboot.1, hboot.2.trans (Nat.le_add_right _ _), hword⟩, hord, hin, le_rfl, Nat.zero_le _, hboot.1⟩
  refine ⟨(returned_mono hgiven).1, ?_, ?_⟩
  · rintro realtime rfl htrue hback
    refine returned_above hgiven le_rfl htrue hback fun x hx hle => ?_
    rw [hgiven.fit.derived_eq hle]
    have := hback mono₀ x le_rfl hx
    simp only [new]
    omega
  · rintro pre post m realtime rfl htrue
    obtain ⟨last, top, hat⟩ := hgiven.run
    obtain ⟨hrest, htop, hm, hw⟩ := hat.sample
    have ha := hat.anchor.trans htop
    refine ⟨fun hstep hback => ?_, fun hsteady => ?_⟩
    · refine returned_above hrest le_rfl htrue hback fun x hx hle => ?_
      exact (hback m x le_rfl hx).trans (hat.fit.resample_ge ha hm hw hstep hle)
    · exact returned_settled hrest le_rfl htrue (hat.fit.settles ha hm hw hsteady)
        (Nat.le_add_right _ _) fun x hx => remainingSmearNs_retired hrest.anchor hx

/-- The wall clock steps back by a second, and the smear of it is under way. -/
theorem log_clock_runs_smeared :
    (new 0 2000000000).returned [.wallAt 5, .resample 100 1000000100, .wallAt 4000] =
      [(5, 2000000005), (4000, 2000003999)] ∧
    ((new 0 2000000000).returned [.wallAt 5, .resample 100 1000000100, .wallAt 4000]).Pairwise
      (fun p q => p.2 ≤ q.2) := by
  refine ⟨by decide, (log_clock_runs 4000 2000000000 (by decide) (by decide) ?_ ?_).1⟩
  · simp [Within]
  · simp [InOrder]

/-- 5 µs ahead from 10 on, and 2 µs of them back at 20. -/
def aheadThenBack (x : ℕ) : ℕ := if x < 10 then x else if x < 20 then x + 5000 else x + 3000

/-- The sums wrap; a clock that is 5 µs ahead is taken for noise, and is not caught up with
    when it steps back by 2; and a step within the tolerance stays: 5 µs are never made
    good. -/
theorem log_clock_keeps_error :
    ¬ (∀ (mono₀ wall₀ : ℕ) (calls : List ClockCall), wall₀ < 2 ^ 64 → InOrder 0 mono₀ calls →
      ((new mono₀ wall₀).returned calls).Pairwise (fun p q => p.2 ≤ q.2)) ∧
    (StepsBack aheadThenBack 10 ∧ (new 0 0).returned [.resample 10 (aheadThenBack 10),
        .resample 20 (aheadThenBack 20), .wallAt 30] = [(30, 30)] ∧ 30 < aheadThenBack 30) ∧
    ¬ ∀ (realtime : ℕ → ℕ) (m : ℕ), m < 2 ^ 32 → Steady realtime m →
      ∃ n < 2 ^ 32, ∀ x, n ≤ x → x ≤ 2 ^ 32 →
        ((new 0 0).resample m (realtime m)).2.derived x = realtime x := by
  refine ⟨?_, ⟨?_, by decide, by decide⟩, ?_⟩
  · intro h
    have hpair := h 0 (2 ^ 64 - 1) [.wallAt 0, .wallAt 1] (by decide) ⟨by decide, by decide, trivial⟩
    exact absurd hpair (by decide)
  · intro x y hx hxy
    unfold aheadThenBack
    split_ifs <;> omega
  · intro h
    obtain ⟨n, hn, heq⟩ := h (· + 5000) 10 (by decide) (fun x hx => by dsimp only; omega)
    have hsame : ((new 0 0).resample 10 (10 + 5000)).2 = new 0 0 := by decide
    have hlast := heq (2 ^ 32) hn.le le_rfl
    rw [hsame] at hlast
    exact absurd hlast (by decide)

end LogClockCore

end UltimaCluster
