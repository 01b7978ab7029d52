/-
  Order statistics of a list of natural numbers: the `k`-th largest element
  against the number of elements at or above a bound.
-/
import Mathlib.Data.List.Sort
import Mathlib.Data.Finset.Card

namespace OrderStat

/-- In a descending list the elements at or above `r` come first. -/
theorem le_getD_iff {l : List ℕ} (hl : l.Pairwise (· ≥ ·)) {r : ℕ} (hr : 0 < r) (k : ℕ) :
    r ≤ l.getD k 0 ↔ k < l.countP (r ≤ ·) := by
  induction l generalizing k with
  | nil => simp; omega
  | cons a l ih =>
    obtain ⟨ha, hl⟩ := List.pairwise_cons.mp hl
    have hzero : ¬ r ≤ a → l.countP (r ≤ ·) = 0 := by
      intro hra
      rw [List.countP_eq_zero]
      intro b hb
      have := ha b hb
      simp
      omega
    cases k with
    | zero =>
      by_cases hra : r ≤ a
      · simp [hra]
      · simp [hra, hzero hra]
    | succ k =>
      rw [List.getD_cons_succ, ih hl, List.countP_cons]
      by_cases hra : r ≤ a
      · simp [hra]
      · simp [hra, hzero hra]

/-- The `k`-th largest element (from 0) is at or above `r` exactly when more
    than `k` elements are. -/
theorem le_insertionSort_getD_iff (l : List ℕ) {r : ℕ} (hr : 0 < r) (k : ℕ) :
    r ≤ (l.insertionSort (· ≥ ·)).getD k 0 ↔ k < l.countP (r ≤ ·) := by
  rw [le_getD_iff (List.pairwise_insertionSort _ l) hr,
    (List.perm_insertionSort (· ≥ ·) l).countP_eq]

/-- Distinct indices whose elements satisfy `p` are counted by `countP`. -/
theorem card_le_countP {α : Type*} {p : α → Bool} {l : List α} {S : Finset ℕ}
    (hS : ∀ i ∈ S, ∃ x, l[i]? = some x ∧ p x) : S.card ≤ l.countP p := by
  induction l generalizing S with
  | nil =>
    have : S = ∅ := by
      refine Finset.eq_empty_of_forall_notMem ?_
      intro i hi
      obtain ⟨x, hx, -⟩ := hS i hi
      simp at hx
    simp [this]
  | cons a l ih =>
    have htail : (S.erase 0).card ≤ l.countP p := by
      have hinj : Set.InjOn Nat.pred (S.erase 0) := by
        intro i hi j hj hij
        simp at hi hj
        simp at hij
        omega
      rw [← Finset.card_image_of_injOn hinj]
      refine ih ?_
      intro i hi
      obtain ⟨j, hj, rfl⟩ := Finset.mem_image.mp hi
      obtain ⟨hj0, hjS⟩ := Finset.mem_erase.mp hj
      obtain ⟨x, hx, hpx⟩ := hS j hjS
      obtain ⟨m, rfl⟩ := Nat.exists_eq_succ_of_ne_zero hj0
      exact ⟨x, by simpa using hx, hpx⟩
    rw [List.countP_cons]
    by_cases h0 : 0 ∈ S
    · obtain ⟨x, hx, hpx⟩ := hS 0 h0
      obtain rfl : a = x := by simpa using hx
      have := Finset.card_erase_of_mem h0
      simp [hpx]
      omega
    · rw [Finset.erase_eq_of_notMem h0] at htail
      omega

end OrderStat
