/-
  A stream kept in a ring of cells: position `p` of the stream lives in cell
  `p % C`.

  The writer appends at the end of the stream, the reader copies any range that
  begins at or above a low mark; `Holds` says that the cells agree with the
  stream from the low mark on, and an append keeps it while the stream is not
  longer than the low mark by more than the ring.
-/
import UltimaCluster.Lib.Lap
import Mathlib.Data.List.GetD

namespace CellRing

variable {α : Type*} {C : ℕ} {ring : ℕ → α} {s xs : List α} {lo p n : ℕ}

/-- The copy of `xs` to the cells from position `pos` on. -/
def write (C : ℕ) (ring : ℕ → α) (pos : ℕ) (xs : List α) : ℕ → α :=
  fun cell => (xs[(cell + C - pos % C) % C]?).getD (ring cell)

/-- The copy of `n` cells from position `pos` on. -/
def read (C : ℕ) (ring : ℕ → α) (pos n : ℕ) : List α :=
  (List.range n).map fun i => ring ((pos + i) % C)

/-- From `lo` on, the cells hold the stream. -/
def Holds (C : ℕ) (ring : ℕ → α) (lo : ℕ) (s : List α) : Prop :=
  ∀ p b, lo ≤ p → s[p]? = some b → ring (p % C) = b

theorem write_cell {pos i : ℕ} (hC : 0 < C) (hi : i < C) :
    write C ring pos xs ((pos + i) % C) = (xs[i]?).getD (ring ((pos + i) % C)) := by
  unfold write
  have hoff : ((pos + i) % C + C - pos % C) % C = i := by
    have hp := Nat.mod_lt pos hC
    rw [Nat.add_mod, Nat.mod_eq_of_lt hi]
    rcases Nat.lt_or_ge (pos % C + i) C with h | h
    · rw [Nat.mod_eq_of_lt h, show pos % C + i + C - pos % C = i + C by omega, Nat.add_mod_right,
        Nat.mod_eq_of_lt hi]
    · have hwrap : (pos % C + i) % C = pos % C + i - C := by
        rw [Nat.mod_eq_sub_mod h, Nat.mod_eq_of_lt (by omega)]
      rw [hwrap, show pos % C + i - C + C - pos % C = i by omega, Nat.mod_eq_of_lt hi]
  rw [hoff]

theorem Holds.mono (h : Holds C ring lo s) {lo' : ℕ} (hle : lo ≤ lo') : Holds C ring lo' s :=
  fun p b hp hb => h p b (hle.trans hp) hb

theorem Holds.left (h : Holds C ring lo (s ++ xs)) : Holds C ring lo s := by
  intro p b hp hb
  refine h p b hp ?_
  rw [List.getElem?_append_left (List.getElem?_eq_some_iff.mp hb).1, hb]

theorem Holds.read (h : Holds C ring lo s) (hlo : lo ≤ p) (hend : p + n ≤ s.length) :
    read C ring p n = (s.drop p).take n := by
  refine List.ext_getElem? fun i => ?_
  rw [CellRing.read, List.getElem?_map, List.getElem?_take, List.getElem?_drop]
  rcases Nat.lt_or_ge i n with hi | hi
  · rw [List.getElem?_range hi, if_pos hi]
    have hlt : p + i < s.length := by omega
    rw [List.getElem?_eq_getElem hlt]
    exact congrArg some (h (p + i) _ (by omega) (List.getElem?_eq_getElem hlt))
  · rw [if_neg (by omega), List.getElem?_eq_none (by simpa using hi), Option.map_none]

theorem Holds.append (h : Holds C ring lo s) (hlo : lo ≤ s.length)
    (hroom : s.length + xs.length ≤ lo + C) :
    Holds C (write C ring s.length xs) lo (s ++ xs) := by
  intro p b hp hb
  have hlt : p < s.length + xs.length := by
    simpa using (List.getElem?_eq_some_iff.mp hb).1
  have hC : 0 < C := by omega
  rcases Nat.lt_or_ge p s.length with hps | hps
  · rw [List.getElem?_append_left hps] at hb
    -- The cell is that of a later lap of no position of the copied range.
    obtain ⟨i, hi, hcell⟩ : ∃ i, i < C ∧ (s.length + i) % C = p % C := by
      refine ⟨(p % C + C - s.length % C) % C, Nat.mod_lt _ hC, ?_⟩
      have h2 := Nat.mod_lt s.length hC
      rw [Nat.add_mod, Nat.mod_mod, ← Nat.add_mod, ← Nat.mod_add_div s.length C]
      rw [show s.length % C + C * (s.length / C) + (p % C + C - (s.length % C + C * (s.length / C)) % C) =
        p % C + C * (s.length / C) + C by
          rw [Nat.add_mul_mod_self_left, Nat.mod_mod]
          omega]
      rw [Nat.add_mod_right, Nat.add_mul_mod_self_left, Nat.mod_mod]
    have hnone : xs[i]? = none := by
      rw [List.getElem?_eq_none_iff]
      by_contra hc
      have := Lap.le_of_mod_eq hcell (by omega)
      omega
    rw [← hcell, write_cell hC hi, hnone, Option.getD_none, hcell]
    exact h p b hp hb
  · obtain ⟨i, rfl⟩ := Nat.exists_eq_add_of_le hps
    rw [List.getElem?_append_right (Nat.le_add_right _ _), Nat.add_sub_cancel_left] at hb
    rw [write_cell hC (by omega), hb, Option.getD_some]

end CellRing
