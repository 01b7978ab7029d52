/-
  The recurrence arithmetic of the schedule table (`uc_protocol/src/v2/schedule.rs`).

  Times are `u64` ns.  A sum or product that the code does not saturate is at most
  the time it is asked for, so it is taken in `ℕ`.
-/
import UltimaCluster.Codec
import Mathlib.Order.Bounds.Defs

namespace UltimaCluster

namespace ScheduleRule

def nsPerSec : ℕ := 1000000000

def nsPerDay : ℕ := 86400 * nsPerSec

def u64Max : ℕ := 2 ^ 64 - 1

def saturatingAdd (a b : ℕ) : ℕ := min (a + b) u64Max

def saturatingMul (a b : ℕ) : ℕ := min (a * b) u64Max

/-- The first firing after a time; none when there is none. -/
def nextAfter : ScheduleRule → ℕ → Option ℕ
  | every periodNs anchorNs, tNs =>
    if tNs < anchorNs then some anchorNs
    else
      let k := saturatingAdd ((tNs - anchorNs) / periodNs) 1
      some (saturatingAdd anchorNs (saturatingMul k periodNs))
  | dailyAt secsOfDay, tNs =>
    let off := secsOfDay * nsPerSec
    let day := tNs / nsPerDay
    let today := saturatingAdd (saturatingMul day nsPerDay) off
    some (if tNs < today then today
      else saturatingAdd (saturatingMul (day + 1) nsPerDay) off)
  | once atNs, tNs => if tNs < atNs then some atNs else none

/-- The last firing up to a time. -/
def latestAtOrBefore : ScheduleRule → ℕ → Option ℕ
  | every periodNs anchorNs, tNs =>
    if tNs < anchorNs then none
    else some (anchorNs + (tNs - anchorNs) / periodNs * periodNs)
  | dailyAt secsOfDay, tNs =>
    let off := secsOfDay * nsPerSec
    let day := tNs / nsPerDay
    let base := day * nsPerDay
    if off ≤ u64Max - base ∧ base + off ≤ tNs then some (base + off)
    else if day = 0 then none
    else some ((day - 1) * nsPerDay + off)
  | once atNs, tNs => if atNs ≤ tNs then some atNs else none

/-- The next deadline of a rule. -/
def arm (r : ScheduleRule) (lastDeliveredNs : Option ℕ) (logTimeNs : ℕ) : Option ℕ :=
  match r.latestAtOrBefore logTimeNs, lastDeliveredNs with
  | some o, none => some o
  | some o, some l => if l < o then some o else r.nextAfter l
  | none, some l => r.nextAfter l
  | none, none => r.nextAfter logTimeNs

/-! ## Occurrences -/

/-- The instants of a rule, past `u64::MAX` too. -/
def Occurs : ScheduleRule → ℕ → Prop
  | every periodNs anchorNs, o => ∃ k, o = anchorNs + k * periodNs
  | dailyAt secsOfDay, o => ∃ k, o = k * nsPerDay + secsOfDay * nsPerSec
  | once atNs, o => o = atNs

variable {r : ScheduleRule} {t : ℕ}

theorem saturated_step {p a : ℕ} (hp : 0 < p) (ht : t ≤ u64Max) :
    saturatingAdd a (saturatingMul (saturatingAdd ((t - a) / p) 1) p) =
      min (a + ((t - a) / p + 1) * p) u64Max := by
  have hq : (t - a) / p ≤ u64Max := (Nat.div_le_self _ _).trans ((Nat.sub_le _ _).trans ht)
  simp only [saturatingAdd, saturatingMul]
  rcases Nat.lt_or_ge ((t - a) / p) u64Max with h | h
  · rw [Nat.min_eq_left (a := (t - a) / p + 1) h]
    omega
  · have h1 : u64Max ≤ u64Max * p := Nat.le_mul_of_pos_right _ hp
    have h2 : u64Max * p ≤ ((t - a) / p + 1) * p := Nat.mul_le_mul_right _ (Nat.le_succ_of_le h)
    rw [Nat.min_eq_right (b := u64Max) (Nat.le_succ_of_le h)]
    omega

theorem saturated_sum (x p a : ℕ) :
    saturatingAdd (saturatingMul x p) a = min (x * p + a) u64Max := by
  unfold saturatingAdd saturatingMul
  omega

theorem nextAfter_dailyAt {secs : ℕ} (hs : secs < 86400) (ht : t ≤ u64Max) :
    (dailyAt secs).nextAfter t = (every nsPerDay (secs * nsPerSec)).nextAfter t := by
  have hday : nsPerDay = 86400000000000 := rfl
  have hmax : 86400000000000 ≤ u64Max := by decide
  have hoff : secs * nsPerSec < nsPerDay := by
    unfold nsPerDay
    exact Nat.mul_lt_mul_of_pos_right hs (by decide)
  simp only [nextAfter, saturated_sum, saturated_step (show 0 < nsPerDay by decide) ht]
  generalize secs * nsPerSec = off at hoff ⊢
  rw [hday] at hoff ⊢
  split_ifs with h h' h'
  all_goals
    refine congrArg some ?_
    omega

theorem latestAtOrBefore_dailyAt {secs : ℕ} (hs : secs < 86400) (ht : t ≤ u64Max) :
    (dailyAt secs).latestAtOrBefore t =
      (every nsPerDay (secs * nsPerSec)).latestAtOrBefore t := by
  simp only [latestAtOrBefore]
  split_ifs with h h' h' h' h'
  all_goals
    simp only [nsPerDay, nsPerSec, u64Max, Option.some.injEq] at *
  all_goals omega

theorem occurs_dailyAt {secs : ℕ} :
    (dailyAt secs).Occurs = (every nsPerDay (secs * nsPerSec)).Occurs := by
  ext o
  simp only [Occurs, Nat.add_comm]

/-- What the neighbours of `t` are to be. -/
structure Neighbours (r : ScheduleRule) (t : ℕ) : Prop where
  next_none : r.nextAfter t = none → ∀ o, r.Occurs o → o ≤ t
  next_some : ∀ n, r.nextAfter t = some n →
    ∃ o, IsLeast {o | r.Occurs o ∧ t < o} o ∧ n = min o u64Max
  latest_none : r.latestAtOrBefore t = none → ∀ o, r.Occurs o → t < o
  latest_some : ∀ l, r.latestAtOrBefore t = some l → IsGreatest {o | r.Occurs o ∧ o ≤ t} l

theorem neighbours_every {p a : ℕ} (hp : 0 < p) (ha : a ≤ u64Max) (ht : t ≤ u64Max) :
    (every p a).Neighbours t := by
  have hle : (t - a) / p * p ≤ t - a := Nat.div_mul_le_self _ _
  have hlt : t - a < ((t - a) / p + 1) * p := Nat.lt_mul_of_div_lt (Nat.lt_succ_self _) hp
  rcases Nat.lt_or_ge t a with h | h
  · -- before the anchor
    have hall : ∀ o, (every p a).Occurs o → a ≤ o := by
      rintro _ ⟨k, rfl⟩
      exact Nat.le_add_right _ _
    constructor <;> simp only [nextAfter, latestAtOrBefore, if_pos h, Option.some.injEq,
      reduceCtorEq, false_implies, forall_true_left, implies_true, forall_eq']
    · exact ⟨a, ⟨⟨⟨0, by simp⟩, h⟩, fun o ho => hall o ho.1⟩, by omega⟩
    · exact fun o ho => Nat.lt_of_lt_of_le h (hall o ho)
  · constructor <;> simp only [nextAfter, latestAtOrBefore, if_neg (Nat.not_lt.mpr h),
      Option.some.injEq, reduceCtorEq, false_implies, forall_eq']
    · refine ⟨_, ⟨⟨⟨_, rfl⟩, ?_⟩, ?_⟩, saturated_step hp ht⟩
      · omega
      · rintro _ ⟨⟨k, rfl⟩, hk⟩
        have hq : (t - a) / p < k := (Nat.div_lt_iff_lt_mul hp).mpr (by omega)
        exact Nat.add_le_add_left (Nat.mul_le_mul_right _ hq) _
    · refine ⟨⟨⟨_, rfl⟩, ?_⟩, ?_⟩
      · omega
      · rintro _ ⟨⟨k, rfl⟩, hk⟩
        have hq : k ≤ (t - a) / p := (Nat.le_div_iff_mul_le hp).mpr (by omega)
        exact Nat.add_le_add_left (Nat.mul_le_mul_right _ hq) _

theorem neighbours (hr : r.Fits) (ht : t ≤ u64Max) : r.Neighbours t := by
  cases r with
  | every p a => exact neighbours_every hr.1 (by have := hr.2.2; unfold u64Max; omega) ht
  | dailyAt secs =>
    have hoff : secs * nsPerSec ≤ u64Max := by
      have : secs < 86400 := hr
      unfold nsPerSec u64Max
      omega
    have h := neighbours_every (p := nsPerDay) (by decide) hoff ht
    constructor
    all_goals
      simp only [nextAfter_dailyAt hr ht, latestAtOrBefore_dailyAt hr ht, occurs_dailyAt]
    · exact h.next_none
    · exact h.next_some
    · exact h.latest_none
    · exact h.latest_some
  | once at_ =>
    have hat : at_ ≤ u64Max := by
      have : at_ < 2 ^ 64 := hr
      unfold u64Max
      omega
    constructor <;> simp only [nextAfter, latestAtOrBefore, Occurs]
    · intro h o ho
      split_ifs at h
      omega
    · intro n h
      split_ifs at h with hlt
      cases h
      exact ⟨at_, ⟨⟨rfl, hlt⟩, fun o ho => ho.1.ge⟩, by omega⟩
    · intro h o ho
      split_ifs at h
      omega
    · intro l h
      split_ifs at h with hle
      cases h
      exact ⟨⟨rfl, hle⟩, fun o ho => ho.1.le⟩

theorem latestAtOrBefore_iff (hr : r.Fits) (ht : t ≤ u64Max) (l : ℕ) :
    r.latestAtOrBefore t = some l ↔ IsGreatest {o | r.Occurs o ∧ o ≤ t} l := by
  have h := neighbours hr ht
  refine ⟨h.latest_some l, fun hl => ?_⟩
  cases heq : r.latestAtOrBefore t with
  | none => exact absurd hl.1.2 (Nat.not_le.mpr (h.latest_none heq l hl.1.1))
  | some l' => rw [(h.latest_some l' heq).unique hl]

theorem above_latest {l : ℕ} (hl : IsGreatest {o | r.Occurs o ∧ o ≤ t} l) :
    {o | r.Occurs o ∧ l < o} = {o | r.Occurs o ∧ t < o} := by
  ext o
  refine and_congr_right fun ho => ⟨fun hlo => ?_, fun hto => Nat.lt_of_le_of_lt hl.1.2 hto⟩
  by_contra hot
  have := hl.2 ⟨ho, Nat.not_lt.mp hot⟩
  omega

theorem nextAfter_none (hr : r.Fits) (ht : t ≤ u64Max) :
    r.nextAfter t = none ↔ {o | r.Occurs o ∧ t < o} = ∅ := by
  have h := neighbours hr ht
  rw [Set.eq_empty_iff_forall_notMem]
  constructor
  · rintro hn o ⟨ho, hlt⟩
    exact absurd (h.next_none hn o ho) (Nat.not_le.mpr hlt)
  · intro hall
    rw [Option.eq_none_iff_forall_ne_some]
    intro n hn
    obtain ⟨o, ho, -⟩ := h.next_some n hn
    exact hall o ho.1

theorem nextAfter_latest {l : ℕ} (hr : r.Fits) (ht : t ≤ u64Max)
    (hl : IsGreatest {o | r.Occurs o ∧ o ≤ t} l) : r.nextAfter l = r.nextAfter t := by
  have hlt : l ≤ u64Max := hl.1.2.trans ht
  cases hn : r.nextAfter t with
  | none => rwa [nextAfter_none hr hlt, above_latest hl, ← nextAfter_none hr ht]
  | some n =>
    cases hn' : r.nextAfter l with
    | none =>
      rw [nextAfter_none hr hlt, above_latest hl, ← nextAfter_none hr ht, hn] at hn'
      cases hn'
    | some n' =>
      obtain ⟨o, ho, rfl⟩ := (neighbours hr ht).next_some n hn
      obtain ⟨o', ho', rfl⟩ := (neighbours hr hlt).next_some n' hn'
      rw [above_latest hl] at ho'
      rw [ho.unique ho']

/-! ## Arming -/

/-- The ticks that are due at `t`, each delivered before the rule is armed again. -/
def caughtUp (r : ScheduleRule) (t : ℕ) : ℕ → Option ℕ → List ℕ
  | 0, _ => []
  | rounds + 1, last =>
    match r.arm last t with
    | some o => if o ≤ t then o :: r.caughtUp t rounds (some o) else []
    | none => []

theorem arm_due {last : Option ℕ} {o : ℕ} (hr : r.Fits) (ht : t < u64Max)
    (hlast : ∀ l ∈ last, l ≤ u64Max) (h : r.arm last t = some o) (ho : o ≤ t) :
    r.latestAtOrBefore t = some o ∧ ∀ l ∈ last, l < o := by
  have ht' := neighbours hr ht.le
  -- the next occurrence after what was delivered is not due
  have later : ∀ l ≤ u64Max, r.nextAfter l = some o →
      (∀ x, r.Occurs x → l < x → t < x) → False := by
    intro l hl hn hx
    obtain ⟨x, hx', rfl⟩ := (neighbours hr hl).next_some o hn
    have := hx x hx'.1.1 hx'.1.2
    omega
  unfold arm at h
  cases hlate : r.latestAtOrBefore t with
  | none =>
    rw [hlate] at h
    have hnone := ht'.latest_none hlate
    cases last with
    | none => exact (later t ht.le h fun x hx _ => hnone x hx).elim
    | some l => exact (later l (hlast l rfl) h fun x hx _ => hnone x hx).elim
  | some g =>
    rw [hlate] at h
    have hg := ht'.latest_some g hlate
    cases last with
    | none =>
      cases h
      exact ⟨rfl, by simp⟩
    | some l =>
      dsimp only at h
      split_ifs at h with hlt
      · cases h
        refine ⟨rfl, fun l' hl' => ?_⟩
        cases hl'
        exact hlt
      · refine (later l (hlast l rfl) h fun x hx hlx => ?_).elim
        by_contra hle
        have := hg.2 ⟨hx, Nat.not_lt.mp hle⟩
        omega

theorem caughtUp_delivered (hr : r.Fits) (ht : t < u64Max) {o : ℕ}
    (ho : r.latestAtOrBefore t = some o) (rounds : ℕ) :
    r.caughtUp t rounds (some o) = [] := by
  cases rounds with
  | zero => rfl
  | succ rounds =>
    rw [caughtUp]
    cases harm : r.arm (some o) t with
    | none => rfl
    | some o' =>
      have hle := ((neighbours hr ht.le).latest_some o ho).1.2
      refine if_neg fun hdue => ?_
      obtain ⟨heq, hlt⟩ := arm_due hr ht (by simp; omega) harm hdue
      rw [ho, Option.some.injEq] at heq
      exact absurd (hlt o rfl) (by omega)

/-- For every rule and all times: the latest occurrence at or before `t` is the
    greatest one, the next is the least one above `t` cut at `u64::MAX`, absent when
    there is none; no occurrence lies between the two; and below `u64::MAX` at most
    one missed tick is delivered, however often the rule is armed. -/
theorem schedule_rule_neighbours (r : ScheduleRule) (hr : r.Fits) (t : ℕ) (ht : t ≤ u64Max) :
    ((r.nextAfter t = none ↔ ∀ o, r.Occurs o → o ≤ t) ∧
      ∀ n, r.nextAfter t = some n →
        ∃ o, IsLeast {o | r.Occurs o ∧ t < o} o ∧ n = min o u64Max) ∧
    ((r.latestAtOrBefore t = none ↔ ∀ o, r.Occurs o → t < o) ∧
      ∀ l, r.latestAtOrBefore t = some l ↔ IsGreatest {o | r.Occurs o ∧ o ≤ t} l) ∧
    (∀ l, r.latestAtOrBefore t = some l → r.nextAfter l = r.nextAfter t ∧
      ∀ n, r.nextAfter l = some n → (t < u64Max → t < n) ∧ ∀ o, r.Occurs o → l < o → n ≤ o) ∧
    (t < u64Max → ∀ last : Option ℕ, (∀ l ∈ last, l ≤ u64Max) → ∀ rounds,
      (r.caughtUp t rounds last).length ≤ 1 ∧
        ∀ o ∈ r.caughtUp t rounds last,
          IsGreatest {o | r.Occurs o ∧ o ≤ t} o ∧ ∀ l ∈ last, l < o) := by
  have h := neighbours hr ht
  have hlate := latestAtOrBefore_iff hr ht
  refine ⟨⟨?_, h.next_some⟩, ⟨⟨h.latest_none, fun hall => ?_⟩, hlate⟩, fun l hl => ?_,
    fun ht' last hlast rounds => ?_⟩
  · rw [nextAfter_none hr ht]
    simp [Set.eq_empty_iff_forall_notMem]
  · rw [Option.eq_none_iff_forall_ne_some]
    intro l hl
    have hg := (h.latest_some l hl).1
    exact absurd hg.2 (Nat.not_le.mpr (hall l hg.1))
  · have hg := h.latest_some l hl
    refine ⟨nextAfter_latest hr ht hg, fun n hn => ?_⟩
    rw [nextAfter_latest hr ht hg] at hn
    obtain ⟨o, ho, rfl⟩ := h.next_some n hn
    refine ⟨fun ht' => Nat.lt_min.mpr ⟨ho.1.2, ht'⟩, fun x hx hlx => ?_⟩
    rw [← above_latest hg] at ho
    exact (Nat.min_le_left _ _).trans (ho.2 ⟨hx, hlx⟩)
  · cases rounds with
    | zero => exact ⟨Nat.zero_le _, by simp [caughtUp]⟩
    | succ rounds =>
      rw [caughtUp]
      cases harm : r.arm last t with
      | none => simp
      | some o =>
        dsimp only
        split_ifs with hdue
        · obtain ⟨hg, hnew⟩ := arm_due hr ht' hlast harm hdue
          rw [caughtUp_delivered hr ht' hg]
          simp only [List.length_singleton, le_refl, List.mem_singleton, true_and]
          rintro _ rfl
          exact ⟨h.latest_some _ hg, hnew⟩
        · simp

/-- Noon of the tenth day, after five days without a tick. -/
theorem schedule_rule_neighbours_noon :
    (dailyAt 43200).nextAfter (10 * nsPerDay) = some (10 * nsPerDay + 43200 * nsPerSec) ∧
      ((dailyAt 43200).caughtUp (10 * nsPerDay) 3 (some (4 * nsPerDay + 43200 * nsPerSec))).length
        ≤ 1 :=
  ⟨by decide, ((schedule_rule_neighbours (dailyAt 43200)
    (show 43200 < 86400 by decide) (10 * nsPerDay)
    (by decide)).2.2.2 (by decide) (some (4 * nsPerDay + 43200 * nsPerSec)) (by decide) 3).1⟩

/-- At the top of the range the next time is the time itself, which is no occurrence,
    and each arming delivers it again. -/
theorem next_saturates_at_top :
    (every 2 0).Fits ∧ (every 2 0).nextAfter u64Max = some u64Max ∧ ¬ (every 2 0).Occurs u64Max ∧
      (every 2 0).caughtUp u64Max 3 none = [u64Max - 1, u64Max, u64Max] := by
  refine ⟨⟨by decide, by decide, by decide⟩, by decide, ?_, by decide⟩
  rintro ⟨k, hk⟩
  unfold u64Max at hk
  omega

end ScheduleRule

end UltimaCluster
