/-
  Items laid end to end: where each starts, the edges between them, and what
  lies below an edge.
-/
import Mathlib.Algebra.BigOperators.Group.List.Basic
import Mathlib.Algebra.GroupWithZero.Nat

namespace Tiling

variable {α : Type*} (span : α → ℕ)

/-- The items with their starts. -/
def place (base : ℕ) : List α → List (ℕ × α)
  | [] => []
  | a :: as => (base, a) :: place (base + span a) as

/-- How long they are together. -/
def width (l : List α) : ℕ := (l.map span).sum

/-- The start of an item, or the end of the last. -/
def Edge (base : ℕ) (l : List α) (r : ℕ) : Prop := ∃ l₁ l₂, l = l₁ ++ l₂ ∧ r = base + width span l₁

/-- The items that start below a position. -/
def below (base : ℕ) (l : List α) (r : ℕ) : List (ℕ × α) := (place span base l).filter (·.1 < r)

variable {span} {base r : ℕ} {l : List α} {x y : ℕ × α}

@[simp] theorem width_nil : width span ([] : List α) = 0 := rfl

@[simp] theorem width_cons (a : α) (l : List α) : width span (a :: l) = span a + width span l :=
  List.sum_cons

@[simp] theorem width_append (l m : List α) : width span (l ++ m) = width span l + width span m := by
  simp [width]

theorem place_append (base : ℕ) (l m : List α) :
    place span base (l ++ m) = place span base l ++ place span (base + width span l) m := by
  induction l generalizing base with
  | nil => rfl
  | cons a l ih => simp [place, ih, Nat.add_assoc]

theorem mem_place : x ∈ place span base l ↔ ∃ l₁ l₂, l = l₁ ++ x.2 :: l₂ ∧ x.1 = base + width span l₁ := by
  induction l generalizing base with
  | nil => simp [place]
  | cons a l ih =>
    rw [place, List.mem_cons, ih]
    constructor
    · rintro (rfl | ⟨l₁, l₂, rfl, hx⟩)
      · exact ⟨[], l, rfl, rfl⟩
      · exact ⟨a :: l₁, l₂, rfl, by rw [hx, width_cons, Nat.add_assoc]⟩
    · rintro ⟨l₁, l₂, hl, hx⟩
      cases l₁ with
      | nil =>
        obtain ⟨rfl, rfl⟩ := List.cons.inj hl
        exact .inl (Prod.ext hx rfl)
      | cons b l₁ =>
        obtain ⟨rfl, rfl⟩ := List.cons.inj hl
        exact .inr ⟨l₁, l₂, rfl, by rw [hx, width_cons, Nat.add_assoc]⟩

theorem le_of_mem_place (h : x ∈ place span base l) : base ≤ x.1 := by
  obtain ⟨l₁, l₂, -, hx⟩ := mem_place.mp h
  omega

theorem end_le_of_mem_place (h : x ∈ place span base l) : x.1 + span x.2 ≤ base + width span l := by
  obtain ⟨l₁, l₂, rfl, hx⟩ := mem_place.mp h
  rw [hx, width_append, width_cons]
  omega

theorem edge_base : Edge span base l base := ⟨[], l, rfl, rfl⟩

theorem edge_of_mem (h : x ∈ place span base l) : Edge span base l x.1 := by
  obtain ⟨l₁, l₂, hl, hx⟩ := mem_place.mp h
  exact ⟨l₁, x.2 :: l₂, hl, hx⟩

theorem edge_end_of_mem (h : x ∈ place span base l) : Edge span base l (x.1 + span x.2) := by
  obtain ⟨l₁, l₂, hl, hx⟩ := mem_place.mp h
  exact ⟨l₁ ++ [x.2], l₂, by rw [hl, List.append_assoc, List.singleton_append], by
    rw [hx, width_append, width_cons, width_nil, Nat.add_zero, Nat.add_assoc]⟩

section Positive

variable (hpos : ∀ a, 0 < span a)

include hpos

theorem below_split {l₁ l₂ : List α} :
    below span base (l₁ ++ l₂) (base + width span l₁) = place span base l₁ := by
  have hlow : ∀ x ∈ place span base l₁, x.1 < base + width span l₁ := fun x hx => by
    have := end_le_of_mem_place hx
    have := hpos x.2
    omega
  have hhigh : ∀ x ∈ place span (base + width span l₁) l₂, ¬ x.1 < base + width span l₁ :=
    fun x hx => Nat.not_lt.mpr (le_of_mem_place hx)
  rw [below, place_append, List.filter_append,
    List.filter_eq_self.mpr fun x hx => decide_eq_true (hlow x hx),
    List.filter_eq_nil_iff.mpr fun x hx => by simpa using hhigh x hx, List.append_nil]

omit hpos in
/-- No item lies across an edge. -/
theorem edge_cases (h : Edge span base l r) (hx : x ∈ place span base l) :
    x.1 + span x.2 ≤ r ∨ r ≤ x.1 := by
  obtain ⟨l₁, l₂, rfl, rfl⟩ := h
  rw [place_append, List.mem_append] at hx
  obtain hx | hx := hx
  · exact .inl (end_le_of_mem_place hx)
  · exact .inr (le_of_mem_place hx)

omit hpos in
theorem Edge.exists_mem {r' : ℕ} (h : Edge span base l r) (h' : Edge span base l r') (hlt : r < r') :
    ∃ a, (r, a) ∈ place span base l ∧ r + span a ≤ r' := by
  obtain ⟨l₁, l₂, rfl, rfl⟩ := h
  cases l₂ with
  | nil =>
    obtain ⟨m₁, m₂, hm, rfl⟩ := h'
    have hwidth := congrArg (width span) hm
    rw [width_append, width_append, width_nil] at hwidth
    omega
  | cons a l₂ =>
    have hmem : (base + width span l₁, a) ∈ place span base (l₁ ++ a :: l₂) :=
      mem_place.mpr ⟨l₁, l₂, rfl, rfl⟩
    obtain hle | hle := edge_cases h' hmem
    · exact ⟨a, hmem, hle⟩
    · exact absurd hlt (Nat.not_lt.mpr hle)

theorem Edge.rule {r' : ℕ} {P : ℕ → Prop} (h : Edge span base l r) (h' : Edge span base l r')
    (hle : r ≤ r') (h0 : P r)
    (hstep : ∀ x ∈ place span base l, r ≤ x.1 → x.1 + span x.2 ≤ r' → P x.1 → P (x.1 + span x.2)) :
    P r' := by
  obtain ⟨n, hn⟩ : ∃ n, r' - r = n := ⟨_, rfl⟩
  induction n using Nat.strongRecOn generalizing r with
  | ind n ih =>
    obtain heq | hlt := Nat.eq_or_lt_of_le hle
    · rwa [← heq]
    · obtain ⟨a, ha, hend⟩ := h.exists_mem h' hlt
      have hspan := hpos a
      have hnext := hstep (r, a) ha (Nat.le_refl _) hend h0
      refine ih (r' - (r + span a)) (by omega) (edge_end_of_mem ha) hend hnext ?_ rfl
      exact fun x hx hx' => hstep x hx (by omega)

theorem place_unique (hx : x ∈ place span base l) (hy : y ∈ place span base l) (hxy : x.1 = y.1) :
    x = y := by
  obtain ⟨l₁, l₂, rfl, hx1⟩ := mem_place.mp hx
  rw [place_append, List.mem_append, place, List.mem_cons] at hy
  obtain hy | hy | hy := hy
  · have := end_le_of_mem_place hy
    have := hpos y.2
    omega
  · rw [hy]
    exact Prod.ext hx1 rfl
  · have := le_of_mem_place hy
    have := hpos x.2
    omega

theorem pairwise_place (base : ℕ) (l : List α) :
    (place span base l).Pairwise fun x y => x.1 < y.1 := by
  induction l generalizing base with
  | nil => exact .nil
  | cons a l ih =>
    refine List.pairwise_cons.mpr ⟨fun y hy => ?_, ih _⟩
    have := le_of_mem_place hy
    have := hpos a
    omega

/-- What lies below the end of an item is what lies below its start, and the item. -/
theorem below_concat (hx : x ∈ place span base l) :
    Tiling.below span base l (x.1 + span x.2) = Tiling.below span base l x.1 ++ [x] := by
  obtain ⟨l₁, l₂, rfl, hx1⟩ := mem_place.mp hx
  have hend : x.1 + span x.2 = base + width span (l₁ ++ [x.2]) := by
    rw [hx1, width_append, width_cons, width_nil, Nat.add_zero, Nat.add_assoc]
  have hsplit : l₁ ++ x.2 :: l₂ = (l₁ ++ [x.2]) ++ l₂ := by
    rw [List.append_assoc, List.singleton_append]
  rw [hend, hx1, below_split hpos, hsplit, below_split hpos, place_append, place, place, ← hx1]

end Positive

/-! ## Chains -/

variable (span)

/-- How far a list of placed items reaches. -/
def reach (r : ℕ) (xs : List (ℕ × α)) : ℕ := xs.foldl (fun r x => max r (x.1 + span x.2)) r

/-- A list of placed items, in any order, that leaves no hole above where it begins. -/
def Chained : ℕ → List (ℕ × α) → Prop
  | _, [] => True
  | r, x :: xs => x.1 ≤ r ∧ Chained (max r (x.1 + span x.2)) xs

variable {span} {xs ys : List (ℕ × α)}

theorem le_reach (xs : List (ℕ × α)) : r ≤ reach span r xs := by
  induction xs generalizing r with
  | nil => exact Nat.le_refl r
  | cons x xs ih => exact Nat.le_trans (Nat.le_max_left _ _) ih

theorem chained_append :
    Chained span r (xs ++ ys) ↔ Chained span r xs ∧ Chained span (reach span r xs) ys := by
  induction xs generalizing r with
  | nil => simp [Chained, reach]
  | cons x xs ih =>
    rw [List.cons_append, Chained, Chained, ih, and_assoc]
    rfl

theorem chained_place (h : base ≤ r) (l : List α) : Chained span r (place span base l) := by
  induction l generalizing base r with
  | nil => trivial
  | cons a l ih => exact ⟨h, ih (Nat.le_max_right _ _)⟩

theorem le_reach_place (base : ℕ) (l : List α) (hl : base ≤ r) :
    base + width span l ≤ reach span r (place span base l) := by
  induction l generalizing base r with
  | nil => exact hl
  | cons a l ih =>
    rw [width_cons, ← Nat.add_assoc]
    exact ih (base + span a) (Nat.le_max_right _ _)

end Tiling
