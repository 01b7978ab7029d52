/-
  Quorums over neighbouring voter sets: sets that differ by at most one voter.
-/
import Mathlib.Data.Finset.Card
import Mathlib.Algebra.Ring.Parity

namespace Quorum

variable {α : Type*} [DecidableEq α] {X Y A B R : Finset α} {e : α}

/-- Equal, or one of them has one voter more. -/
inductive Adjacent (X Y : Finset α) : Prop
  | same : X = Y → Adjacent X Y
  | grow (x : α) : x ∉ X → Y = insert x X → Adjacent X Y
  | shrink (x : α) : x ∉ Y → X = insert x Y → Adjacent X Y

theorem Adjacent.symm (h : Adjacent X Y) : Adjacent Y X := by
  cases h with
  | same h => exact .same h.symm
  | grow x hx h => exact .shrink x hx h
  | shrink x hx h => exact .grow x hx h

theorem Adjacent.exists_union (h : Adjacent X Y) :
    ∃ U, X ⊆ U ∧ Y ⊆ U ∧ (U = X ∨ U = Y) := by
  cases h with
  | same h => exact ⟨X, subset_rfl, h ▸ subset_rfl, .inl rfl⟩
  | grow x _ h => exact ⟨Y, h ▸ Finset.subset_insert x X, subset_rfl, .inr rfl⟩
  | shrink x _ h => exact ⟨X, subset_rfl, h ▸ Finset.subset_insert x Y, .inl rfl⟩

theorem Adjacent.card (h : Adjacent X Y) :
    X = Y ∨ Y.card = X.card + 1 ∨ X.card = Y.card + 1 := by
  cases h with
  | same h => exact .inl h
  | grow x hx h => exact .inr (.inl (by rw [h, Finset.card_insert_of_notMem hx]))
  | shrink x hx h => exact .inr (.inr (by rw [h, Finset.card_insert_of_notMem hx]))

theorem Adjacent.exists_mem (h : Adjacent X Y) (hA : A ⊆ X ∪ Y) (hB : B ⊆ Y)
    (hX : X.card < A.card + B.card) (hY : Y.card < A.card + B.card) : ∃ v, v ∈ A ∧ v ∈ B := by
  obtain ⟨U, hXU, hYU, hU⟩ := h.exists_union
  have hcard : U.card < A.card + B.card := by
    rcases hU with rfl | rfl <;> assumption
  obtain ⟨v, hv⟩ := Finset.inter_nonempty_of_card_lt_card_add_card
    (hA.trans (Finset.union_subset hXU hYU)) (hB.trans hYU) hcard
  exact ⟨v, Finset.mem_inter.mp hv⟩

theorem majorities_meet (h : Adjacent X Y) (hA : A ⊆ X) (hB : B ⊆ Y) (hmA : X.card / 2 < A.card)
    (hmB : Y.card / 2 < B.card) : ∃ v, v ∈ A ∧ v ∈ B := by
  have hsub : A ⊆ X ∪ Y := hA.trans Finset.subset_union_left
  refine h.exists_mem hsub hB ?_ ?_
  all_goals rcases h.card with rfl | hc | hc <;> omega

/-- `R` with `e` counted on top of it, against a majority of the other set:
    `e` may be a voter of neither when the voters are as many as they should
    be without it. -/
theorem counted_meets_majority (h : Adjacent X Y) (hR : R ⊆ X.erase e) (hB : B ⊆ Y)
    (hcR : ((X.erase e).card + 1) / 2 ≤ R.card) (hmB : Y.card / 2 < B.card)
    (he : e ∈ X ∨ e ∈ Y ∨ X = Y ∨ Odd X.card) : ∃ v, v ∈ insert e R ∧ v ∈ B := by
  have hRX : R ⊆ X := hR.trans (Finset.erase_subset _ _)
  have heR : e ∉ R := fun hmem => Finset.notMem_erase e X (hR hmem)
  by_cases heX : e ∈ X
  · -- an ordinary majority of `X`
    have herase := Finset.card_erase_of_mem heX
    refine majorities_meet h (Finset.insert_subset heX hRX) hB ?_ hmB
    rw [Finset.card_insert_of_notMem heR]
    omega
  · rw [Finset.erase_eq_of_notMem heX] at hcR
    by_cases heY : e ∈ Y
    · -- `Y` is `X` with `e`, and `insert e R` is a majority of it
      have hsub : insert e R ⊆ X ∪ Y :=
        Finset.insert_subset (Finset.mem_union_right _ heY) (hRX.trans Finset.subset_union_left)
      have hY : Y.card = X.card + 1 := by
        cases h with
        | same h => exact absurd (h ▸ heY) heX
        | grow x hx h => rw [h, Finset.card_insert_of_notMem hx]
        | shrink x hx h => exact absurd (h ▸ Finset.mem_insert_of_mem heY) heX
      refine h.exists_mem hsub hB ?_ ?_
      all_goals
        rw [Finset.card_insert_of_notMem heR]
        omega
    · have hodd : X = Y ∨ Odd X.card := by tauto
      obtain ⟨v, hvR, hvB⟩ : ∃ v, v ∈ R ∧ v ∈ B := by
        refine h.exists_mem (hRX.trans Finset.subset_union_left) hB ?_ ?_
        all_goals
          rcases hodd with rfl | ⟨k, hk⟩
          · omega
          · rcases h.card with rfl | hc | hc <;> omega
      exact ⟨v, Finset.mem_insert_of_mem hvR, hvB⟩

end Quorum
