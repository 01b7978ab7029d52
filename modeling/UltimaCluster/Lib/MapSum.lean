/-
  Sums over the values of an ordered map, under insertion and removal.
-/
import Mathlib.Algebra.BigOperators.Group.List.Basic
import Mathlib.Algebra.GroupWithZero.Nat
import Mathlib.Data.List.Nodup
import Std.Data.ExtTreeMap.Lemmas

open Std

namespace MapSum

variable {α β : Type} [Ord α] [TransOrd α] [LawfulEqOrd α]

/-- The sum of the weights of the values. -/
def total (w : β → ℕ) (m : ExtTreeMap α β) : ℕ := (m.toList.map fun e => w e.2).sum

variable {w : β → ℕ} {m : ExtTreeMap α β} {k : α} {v : β}

theorem nodup_toList (m : ExtTreeMap α β) : m.toList.Nodup := by
  refine m.distinct_keys_toList.imp fun {a b} hab heq => hab ?_
  rw [heq]
  exact compare_self

theorem toList_perm (h : m[k]? = some v) : m.toList.Perm ((k, v) :: (m.erase k).toList) := by
  have hnot : (k, v) ∉ (m.erase k).toList := by
    rw [ExtTreeMap.mem_toList_iff_getElem?_eq_some]
    simp
  rw [List.perm_ext_iff_of_nodup (nodup_toList m) (List.nodup_cons.mpr ⟨hnot, nodup_toList _⟩)]
  rintro ⟨k', v'⟩
  rw [List.mem_cons, ExtTreeMap.mem_toList_iff_getElem?_eq_some,
    ExtTreeMap.mem_toList_iff_getElem?_eq_some, ExtTreeMap.getElem?_erase]
  by_cases hk : k = k'
  · subst hk
    simp [h, eq_comm]
  · have hne : ¬ compare k k' = .eq := fun h' => hk (LawfulEqOrd.eq_of_compare h')
    simp [hne, Ne.symm hk]

theorem total_of_getElem? (h : m[k]? = some v) : total w m = w v + total w (m.erase k) := by
  unfold total
  rw [((toList_perm h).map _).sum_eq]
  simp

theorem erase_of_getElem?_none (h : m[k]? = none) : m.erase k = m := by
  refine ExtTreeMap.ext_getElem? fun k' => ?_
  rw [ExtTreeMap.getElem?_erase]
  split_ifs with hk
  · rw [← LawfulEqOrd.eq_of_compare hk, h]
  · rfl

theorem erase_insert : (m.insert k v).erase k = m.erase k := by
  refine ExtTreeMap.ext_getElem? fun k' => ?_
  simp only [ExtTreeMap.getElem?_erase, ExtTreeMap.getElem?_insert]
  split_ifs <;> rfl

theorem total_insert : total w (m.insert k v) = w v + total w (m.erase k) := by
  rw [total_of_getElem? ExtTreeMap.getElem?_insert_self, erase_insert]

omit [LawfulEqOrd α] in
@[simp] theorem total_empty : total w (∅ : ExtTreeMap α β) = 0 := by
  have hnil : (∅ : ExtTreeMap α β).toList = [] := ExtTreeMap.toList_eq_nil_iff.mpr rfl
  simp [total, hnil]

theorem total_of_unique (h : ∀ k' ∈ m, k' = k) (hv : m[k]? = some v) : total w m = w v := by
  have hempty : m.erase k = ∅ := by
    refine ExtTreeMap.ext_getElem? fun k' => ?_
    rw [ExtTreeMap.getElem?_erase]
    split_ifs with hk
    · simp
    · have hnot : k' ∉ m := fun hmem => hk (by rw [h k' hmem]; exact compare_self)
      simp [ExtTreeMap.getElem?_eq_none hnot]
  rw [total_of_getElem? hv, hempty, total_empty, Nat.add_zero]

end MapSum
