/-
  Evicting from a list: the indices at which a test holds, and a loop that
  removes one element a round until its step stops.
-/
import Mathlib.Data.List.Induction
import UltimaCluster.Lib.Split

namespace Evict

variable {α : Type*}

/-! ## Indices -/

/-- The indices at which `p` holds. -/
def indices (p : α → Bool) (l : List α) : List ℕ :=
  (List.range l.length).filter fun i => (l[i]?).any p

/-- The last index at which `p` holds. -/
def rposition (p : α → Bool) (l : List α) : Option ℕ :=
  (l.reverse.findIdx? p).map fun i => l.length - 1 - i

variable {p : α → Bool}

theorem mem_indices {l : List α} {i : ℕ} : i ∈ indices p l ↔ ∃ a, l[i]? = some a ∧ p a = true := by
  rw [indices, List.mem_filter, List.mem_range, Option.any_eq_true]
  constructor
  · rintro ⟨-, a, ha, hp⟩
    exact ⟨a, ha, hp⟩
  · rintro ⟨a, ha, hp⟩
    exact ⟨(List.getElem?_eq_some_iff.mp ha).1, a, ha, hp⟩

theorem length_indices (p : α → Bool) (l : List α) : (indices p l).length = l.countP p := by
  induction l using List.reverseRecOn with
  | nil => rfl
  | append_singleton l a ih =>
    have hfront : (List.range l.length).filter (fun i => ((l ++ [a])[i]?).any p) = indices p l := by
      refine List.filter_congr ?_
      intro i hi
      rw [List.getElem?_append_left (List.mem_range.mp hi)]
    rw [indices, List.length_append, List.length_singleton, List.range_succ, List.filter_append,
      hfront, List.length_append, ih, List.countP_append]
    by_cases hp : p a = true
    · simp [hp]
    · simp [hp]

theorem countP_le_one {l : List α} {k : Option ℕ} (h : ∀ i ∈ indices p l, some i = k) :
    l.countP p ≤ 1 := by
  rw [← length_indices]
  have hnodup : (indices p l).Nodup := List.nodup_range.filter _
  match hm : indices p l with
  | [] | [_] => simp
  | i :: j :: rest =>
    have hij : i = j := Option.some.inj
      ((h i (by simp [hm])).trans (h j (by simp [hm])).symm)
    rw [hm] at hnodup
    simp [hij] at hnodup

theorem getElem?_split {l : List α} {i : ℕ} {a : α} (h : l[i]? = some a) :
    ∃ l₁ l₂, l = l₁ ++ a :: l₂ ∧ l₁.length = i := by
  obtain ⟨hi, ha⟩ := List.getElem?_eq_some_iff.mp h
  refine ⟨l.take i, l.drop (i + 1), ?_, by rw [List.length_take]; omega⟩
  rw [← ha, ← List.drop_eq_getElem_cons hi, List.take_append_drop]

theorem eraseIdx_append_cons (l₁ l₂ : List α) (a : α) :
    (l₁ ++ a :: l₂).eraseIdx l₁.length = l₁ ++ l₂ := by
  rw [List.eraseIdx_append_of_length_le (Nat.le_refl _), Nat.sub_self, List.eraseIdx_cons_zero]

/-- An element that passes the test but is not at the last index has one after it. -/
theorem exists_of_rposition_ne {l₁ l₂ : List α} {a : α} (ha : p a = true)
    (h : rposition p (l₁ ++ a :: l₂) ≠ some l₁.length) : ∃ b ∈ l₂, p b = true := by
  by_contra hno
  rw [not_exists] at hno
  refine h ?_
  have hnone : l₂.reverse.findIdx? p = none := by
    rw [List.findIdx?_eq_none_iff]
    intro b hb
    by_contra hb'
    exact hno b ⟨List.mem_reverse.mp hb, by simpa using hb'⟩
  rw [rposition, List.reverse_append, List.reverse_cons, List.append_assoc, List.findIdx?_append,
    hnone, List.singleton_append, List.findIdx?_cons, ha]
  simp only [List.length_append, List.length_cons, List.length_reverse, if_true, Option.map_some,
    Option.none_or]
  congr 1
  omega

/-! ## The loop -/

/-- Run `step` until it stops. -/
def loop (step : List α → Option (List α)) : ℕ → List α → List α
  | 0, l => l
  | fuel + 1, l =>
    match step l with
    | some l' => loop step fuel l'
    | none => l

section
variable {step : List α → Option (List α)}

theorem loop_keeps {P : List α → Prop} (hstep : ∀ l l', P l → step l = some l' → P l') (fuel : ℕ)
    {l : List α} (h : P l) : P (loop step fuel l) := by
  induction fuel generalizing l with
  | zero => exact h
  | succ fuel ih =>
    rw [loop]
    split
    · exact ih (hstep l _ h ‹_›)
    · exact h

theorem loop_of_none {l : List α} (h : step l = none) (fuel : ℕ) : loop step fuel l = l := by
  cases fuel with
  | zero => rfl
  | succ fuel => rw [loop, h]

theorem loop_of_some {l l' : List α} (h : step l = some l') (h' : step l' = none) {fuel : ℕ}
    (hfuel : 0 < fuel) : loop step fuel l = l' := by
  obtain ⟨n, rfl⟩ : ∃ n, fuel = n + 1 := ⟨fuel - 1, by omega⟩
  rw [loop, h]
  exact loop_of_none h' n

theorem loop_stops (hstep : ∀ l l', step l = some l' → l'.length < l.length) {fuel : ℕ} {l : List α}
    (h : l.length ≤ fuel) : step (loop step fuel l) = none := by
  induction fuel generalizing l with
  | zero =>
    have hnil : l = [] := List.eq_nil_of_length_eq_zero (Nat.le_zero.mp h)
    subst hnil
    cases hs : step [] with
    | none => exact hs
    | some l' => exact absurd (hstep [] l' hs) (Nat.not_lt_zero _)
  | succ fuel ih =>
    rw [loop]
    split
    · rename_i l' hs
      have := hstep l l' hs
      exact ih (by omega)
    · assumption

end

end Evict
