/-
  Lists split at the element a search finds: the first match of `findIdx?`, the
  last match of a search from the end.
-/
import Mathlib.Data.List.Basic

namespace List

variable {α : Type*}

variable {l : List α} {p q : α → Bool}

theorem findIdx?_split {i : ℕ} (h : l.findIdx? p = some i) :
    ∃ l₁ a l₂, l = l₁ ++ a :: l₂ ∧ p a = true ∧ (∀ b ∈ l₁, p b = false) ∧ l₁.length = i := by
  induction l generalizing i with
  | nil => cases h
  | cons x l ih =>
    rw [findIdx?_cons] at h
    split at h
    · rename_i hx
      cases h
      exact ⟨[], x, l, rfl, hx, by simp, rfl⟩
    · rename_i hx
      obtain ⟨j, hj, rfl⟩ := Option.map_eq_some_iff.mp h
      obtain ⟨l₁, a, l₂, rfl, ha, hl₁, rfl⟩ := ih hj
      refine ⟨x :: l₁, a, l₂, rfl, ha, ?_, rfl⟩
      intro b hb
      rcases mem_cons.mp hb with rfl | hb
      · simpa using hx
      · exact hl₁ b hb

theorem modify_append_cons (f : α → α) (l₁ l₂ : List α) (a : α) :
    (l₁ ++ a :: l₂).modify l₁.length f = l₁ ++ f a :: l₂ := by
  induction l₁ with
  | nil => rfl
  | cons x l₁ ih => simp [ih]

theorem reverse_find?_split {a : α} (h : l.reverse.find? p = some a) :
    ∃ l₁ l₂, l = l₁ ++ a :: l₂ ∧ p a = true ∧ ∀ b ∈ l₂, p b = false := by
  obtain ⟨ha, as, bs, heq, has⟩ := find?_eq_some_iff_append.mp h
  refine ⟨bs.reverse, as.reverse, ?_, ha, ?_⟩
  · rw [← reverse_reverse l, heq]
    simp
  · intro b hb
    simpa using has b (mem_reverse.mp hb)

theorem find?_filter_of_imp (h : ∀ a ∈ l, q a = true → p a = true) :
    (l.filter p).find? q = l.find? q := by
  induction l with
  | nil => rfl
  | cons x l ih =>
    have ih := ih fun a ha => h a (mem_cons_of_mem _ ha)
    by_cases hq : q x = true
    · rw [filter_cons_of_pos (h x mem_cons_self hq), find?_cons_of_pos hq, find?_cons_of_pos hq]
    · rw [find?_cons_of_neg hq, ← ih]
      by_cases hp : p x = true
      · rw [filter_cons_of_pos hp, find?_cons_of_neg hq]
      · rw [filter_cons_of_neg hp]

theorem filter_eraseP (h : ∀ a, p a = true → q a = false) (l : List α) :
    (l.eraseP p).filter q = l.filter q := by
  induction l with
  | nil => rfl
  | cons x l ih =>
    by_cases hp : p x = true
    · rw [eraseP_cons_of_pos hp, filter_cons_of_neg (by simp [h x hp])]
    · rw [eraseP_cons_of_neg hp]
      by_cases hq : q x = true
      · rw [filter_cons_of_pos hq, filter_cons_of_pos hq, ih]
      · rw [filter_cons_of_neg hq, filter_cons_of_neg hq, ih]

theorem filter_eraseP_self (l : List α) : (l.eraseP p).filter p = (l.filter p).tail := by
  induction l with
  | nil => rfl
  | cons x l ih =>
    by_cases hp : p x = true
    · rw [eraseP_cons_of_pos hp, filter_cons_of_pos hp]
      rfl
    · rw [eraseP_cons_of_neg hp, filter_cons_of_neg hp, filter_cons_of_neg hp, ih]

theorem reverse_find?_eq_getLast? (p : α → Bool) (l : List α) :
    l.reverse.find? p = (l.filter p).getLast? := by
  rw [← head?_filter, filter_reverse, head?_reverse]

theorem length_le_of_filter {f : α → ℕ} {n k : ℕ} (hn : ∀ a ∈ l, f a < n)
    (hk : ∀ i, (l.filter fun a => f a == i).length ≤ k) : l.length ≤ n * k := by
  induction n generalizing l with
  | zero =>
    cases l with
    | nil => exact Nat.zero_le _
    | cons a l => exact absurd (hn a mem_cons_self) (Nat.not_lt_zero _)
  | succ n ih =>
    have hsplit := length_eq_length_filter_add (l := l) fun a => f a == n
    have hrest : (l.filter fun a => !(f a == n)).length ≤ n * k := by
      refine ih ?_ ?_
      · intro a ha
        obtain ⟨hmem, hne⟩ := mem_filter.mp ha
        have := hn a hmem
        simp only [Bool.not_eq_true', beq_eq_false_iff_ne] at hne
        omega
      · intro i
        exact Nat.le_trans (filter_sublist.filter _).length_le (hk i)
    have := hk n
    rw [hsplit, Nat.succ_mul]
    omega

end List
