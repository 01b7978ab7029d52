/-
  Timelines: a list of `(value, start)` in ascending order of `start` gives each
  position the value of the last entry that starts at or below it.
-/
import Mathlib.Data.List.Basic
import Mathlib.Order.Nat

namespace Timeline

variable {α : Type*}

/-- The value at position `p`. -/
def valueAt (m : List (α × ℕ)) (p : ℕ) : Option α :=
  ((m.filter fun e => e.2 ≤ p).getLast?).map Prod.fst

@[simp] theorem valueAt_nil (p : ℕ) : valueAt ([] : List (α × ℕ)) p = none := rfl

theorem valueAt_cons (e : α × ℕ) (m : List (α × ℕ)) (p : ℕ) :
    valueAt (e :: m) p = (valueAt m p).or (if e.2 ≤ p then some e.1 else none) := by
  unfold valueAt
  rw [List.filter_cons]
  by_cases h : e.2 ≤ p
  · simp only [h, decide_true, if_true, List.getLast?_cons]
    cases (m.filter fun e => e.2 ≤ p).getLast? <;> rfl
  · simp [h]

variable {m n : List (α × ℕ)} {p : ℕ}

theorem valueAt_eq_none (h : ∀ e ∈ m, p < e.2) : valueAt m p = none := by
  induction m with
  | nil => rfl
  | cons e m ih =>
    have he : ¬ e.2 ≤ p := Nat.not_le.mpr (h e List.mem_cons_self)
    rw [valueAt_cons, ih fun x hx => h x (List.mem_cons_of_mem _ hx), if_neg he]
    rfl

/-- Entries that start above `p` do not matter at `p`. -/
theorem valueAt_append_of_lt (h : ∀ e ∈ n, p < e.2) : valueAt (m ++ n) p = valueAt m p := by
  have hnil : n.filter (fun e => e.2 ≤ p) = [] := by
    rw [List.filter_eq_nil_iff]
    intro e he
    simpa using h e he
  rw [valueAt, List.filter_append, hnil, List.append_nil]
  rfl

/-- An entry that starts at or below `p` hides what stands before it. -/
theorem valueAt_append_cons {e : α × ℕ} (h : e.2 ≤ p) :
    valueAt (m ++ e :: n) p = valueAt (e :: n) p := by
  simp only [valueAt, List.filter_append, List.filter_cons, h, decide_true, if_true]
  rw [List.getLast?_append_of_ne_nil _ (by simp)]

theorem valueAt_singleton {e : α × ℕ} (h : e.2 ≤ p) : valueAt [e] p = some e.1 := by
  simp [valueAt, h]

theorem valueAt_cons_of_lt {e : α × ℕ} (h : e.2 ≤ p) (hn : ∀ x ∈ n, p < x.2) :
    valueAt (e :: n) p = some e.1 := by
  have := valueAt_append_of_lt (m := [e]) hn
  rw [List.singleton_append] at this
  rw [this, valueAt_singleton h]

/-- The value at `p` is that of an entry which starts at or below it. -/
theorem exists_mem_of_valueAt {a : α} (h : valueAt m p = some a) : ∃ b, (a, b) ∈ m ∧ b ≤ p := by
  unfold valueAt at h
  rw [Option.map_eq_some_iff] at h
  obtain ⟨⟨a', b⟩, hlast, rfl⟩ := h
  have hmem := List.mem_of_getLast? hlast
  rw [List.mem_filter] at hmem
  exact ⟨b, hmem.1, by simpa using hmem.2⟩

/-- In a list sorted by `k`, what is below `c` comes first. -/
theorem sorted_split (k : α → ℕ) {m : List α} (h : m.Pairwise fun a b => k a ≤ k b) (c : ℕ) :
    m = m.filter (fun e => k e < c) ++ m.filter (fun e => c ≤ k e) := by
  induction m with
  | nil => rfl
  | cons e m ih =>
    obtain ⟨hhead, htail⟩ := List.pairwise_cons.mp h
    by_cases he : k e < c
    · have hle : ¬ c ≤ k e := Nat.not_le.mpr he
      simp only [List.filter_cons, he, hle, decide_true, decide_false, if_true, List.cons_append]
      exact congrArg (e :: ·) (ih htail)
    · have hle : c ≤ k e := Nat.not_lt.mp he
      have hnil : m.filter (fun e => k e < c) = [] := by
        rw [List.filter_eq_nil_iff]
        intro x hx
        have := hhead x hx
        simp only [decide_eq_true_eq]
        omega
      have hself : m.filter (fun e => c ≤ k e) = m := by
        rw [List.filter_eq_self]
        intro x hx
        have := hhead x hx
        simp only [decide_eq_true_eq]
        omega
      simp [he, hle, hnil, hself]

/-- The entries that start below `c` come first. -/
theorem filter_lt_append (h : m.Pairwise fun a b => a.2 ≤ b.2) (c : ℕ) :
    m = m.filter (fun e => e.2 < c) ++ m.filter (fun e => c ≤ e.2) :=
  sorted_split Prod.snd h c

/-- Cutting a timeline at `c` changes nothing below. -/
theorem valueAt_filter_lt (h : m.Pairwise fun a b => a.2 ≤ b.2) {c p : ℕ} (hp : p < c) :
    valueAt (m.filter fun e => e.2 < c) p = valueAt m p := by
  conv_rhs => rw [filter_lt_append h c]
  refine (valueAt_append_of_lt ?_).symm
  intro e he
  have := (List.mem_filter.mp he).2
  simp only [decide_eq_true_eq] at this
  omega

end Timeline
