/-
  Sets as lists of half-open runs: in order, none empty, no two of them touching.

  Such a list is determined by the set that it covers (`Separated.unique`).
-/
import Mathlib.Data.List.Pairwise
import Mathlib.Order.Interval.Set.LinearOrder

namespace Runs

variable {α : Type*} [LinearOrder α] {lo x : α} {r : α × α} {l l' : List (α × α)}

/-- The points of some range. -/
def cover (l : List (α × α)) : Set α := {x | ∃ r ∈ l, r.1 ≤ x ∧ x < r.2}

@[simp] theorem cover_nil : cover ([] : List (α × α)) = ∅ := by
  ext x
  simp [cover]

@[simp] theorem cover_cons : cover (r :: l) = Set.Ico r.1 r.2 ∪ cover l := by
  ext x
  simp [cover]

@[simp] theorem cover_append : cover (l ++ l') = cover l ∪ cover l' := by
  ext x
  simp [cover, or_and_right, exists_or]

/-- Above `lo`, in order, none empty and no two touching. -/
structure Separated (lo : α) (l : List (α × α)) : Prop where
  above : ∀ r ∈ l, lo < r.1
  nonempty : ∀ r ∈ l, r.1 < r.2
  gaps : l.Pairwise fun a b => a.2 < b.1

theorem separated_nil : Separated lo ([] : List (α × α)) := ⟨by simp, by simp, .nil⟩

theorem separated_cons : Separated lo (r :: l) ↔ lo < r.1 ∧ r.1 < r.2 ∧ Separated r.2 l := by
  constructor
  · rintro ⟨habove, hne, hgaps⟩
    obtain ⟨hhead, htail⟩ := List.pairwise_cons.mp hgaps
    exact ⟨habove r (by simp), hne r (by simp), hhead, fun a ha => hne a (by simp [ha]), htail⟩
  · rintro ⟨hlo, hr, h⟩
    refine ⟨?_, ?_, List.pairwise_cons.mpr ⟨h.above, h.gaps⟩⟩
    · intro a ha
      rcases List.mem_cons.mp ha with rfl | ha
      · exact hlo
      · exact (hlo.trans hr).trans (h.above a ha)
    · intro a ha
      rcases List.mem_cons.mp ha with rfl | ha
      · exact hr
      · exact h.nonempty a ha

theorem Separated.sublist (h : Separated lo l) (hs : l'.Sublist l) : Separated lo l' :=
  ⟨fun r hr => h.above r (hs.subset hr), fun r hr => h.nonempty r (hs.subset hr), h.gaps.sublist hs⟩

theorem Separated.lt_of_mem (h : Separated lo l) (hx : x ∈ cover l) : lo < x := by
  obtain ⟨r, hr, hle, -⟩ := hx
  exact (h.above r hr).trans_le hle

theorem Separated.append {a b : α} (h : Separated lo l) (hlo : lo < a) (hab : a < b)
    (hend : ∀ r ∈ l, r.2 < a) (h' : Separated b l') : Separated lo (l ++ (a, b) :: l') := by
  have htail : Separated lo ((a, b) :: l') := separated_cons.mpr ⟨hlo, hab, h'⟩
  refine ⟨?_, ?_, ?_⟩
  · intro r hr
    rcases List.mem_append.mp hr with hr | hr
    · exact h.above r hr
    · exact htail.above r hr
  · intro r hr
    rcases List.mem_append.mp hr with hr | hr
    · exact h.nonempty r hr
    · exact htail.nonempty r hr
  · refine List.pairwise_append.mpr ⟨h.gaps, htail.gaps, ?_⟩
    intro r hr s hs
    rcases List.mem_cons.mp hs with rfl | hs
    · exact hend r hr
    · exact (hend r hr).trans (hab.trans (h'.above s hs))

theorem start_le {s : α × α} (hr : r.1 < r.2) (hs : s.1 < s.2) (hl' : Separated s.2 l')
    (hc : cover (r :: l) = cover (s :: l')) : s.1 ≤ r.1 := by
  have hmem : r.1 ∈ cover (s :: l') := hc ▸ ⟨r, by simp, le_rfl, hr⟩
  rw [cover_cons] at hmem
  rcases hmem with hin | hin
  · exact hin.1
  · exact (hs.trans (hl'.lt_of_mem hin)).le

theorem end_le {s : α × α} (heq : r.1 = s.1) (hr : r.1 < r.2) (hl : Separated r.2 l)
    (hc : cover (r :: l) = cover (s :: l')) : s.2 ≤ r.2 := by
  by_contra hlt
  have hmem : r.2 ∈ cover (s :: l') := by
    rw [cover_cons]
    exact .inl ⟨heq ▸ hr.le, not_le.mp hlt⟩
  rw [← hc, cover_cons] at hmem
  rcases hmem with hin | hin
  · exact lt_irrefl _ hin.2
  · exact lt_irrefl _ (hl.lt_of_mem hin)

/-- The first run begins at the least element, and ends at the least one that is missing
    after it. -/
theorem Separated.head_eq {lo' : α} {s : α × α} (h : Separated lo (r :: l))
    (h' : Separated lo' (s :: l')) (hc : cover (r :: l) = cover (s :: l')) : r = s := by
  obtain ⟨-, hr, hl⟩ := separated_cons.mp h
  obtain ⟨-, hs, hl'⟩ := separated_cons.mp h'
  have h1 : r.1 = s.1 := le_antisymm (start_le hs hr hl hc.symm) (start_le hr hs hl' hc)
  exact Prod.ext h1 (le_antisymm (end_le h1.symm hs hl' hc.symm) (end_le h1 hr hl hc))

theorem Separated.cover_tail (h : Separated lo (r :: l)) : cover l = cover (r :: l) \ Set.Iio r.2 := by
  obtain ⟨-, -, hl⟩ := separated_cons.mp h
  ext x
  simp only [cover_cons, Set.mem_sdiff, Set.mem_union, Set.mem_Ico, Set.mem_Iio, not_lt]
  constructor
  · intro hx
    exact ⟨.inr hx, (hl.lt_of_mem hx).le⟩
  · rintro ⟨hx | hx, hge⟩
    · exact absurd hx.2 (not_lt.mpr hge)
    · exact hx

theorem Separated.unique {lo' : α} (h : Separated lo l) (h' : Separated lo' l')
    (hc : cover l = cover l') : l = l' := by
  induction l generalizing lo lo' l' with
  | nil =>
    cases l' with
    | nil => rfl
    | cons s l' =>
      have hmem : s.1 ∈ cover (s :: l') := ⟨s, by simp, le_rfl, h'.nonempty s (by simp)⟩
      rw [← hc] at hmem
      simp at hmem
  | cons r l ih =>
    cases l' with
    | nil =>
      have hmem : r.1 ∈ cover (r :: l) := ⟨r, by simp, le_rfl, h.nonempty r (by simp)⟩
      rw [hc] at hmem
      simp at hmem
    | cons s l' =>
      obtain rfl := h.head_eq h' hc
      rw [ih (separated_cons.mp h).2.2 (separated_cons.mp h').2.2]
      rw [h.cover_tail, h'.cover_tail, hc]

end Runs
