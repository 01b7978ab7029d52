/-
  Blocks laid end to end in one stream, by index: where each starts, how many
  start below a position, and the ranges between starts.
-/
import Mathlib.Data.List.Basic
import Mathlib.Data.List.TakeDrop
import Mathlib.Order.Nat

namespace Blocks

variable {α : Type*}

/-- Where block `i` starts; past the last, the end of the stream. -/
def start (bs : List (List α)) (i : ℕ) : ℕ := (bs.take i).flatten.length

/-- How many blocks start below a position. -/
def startsBelow : List (List α) → ℕ → ℕ
  | [], _ => 0
  | b :: bs, p => if p = 0 then 0 else startsBelow bs (p - b.length) + 1

/-- The cells from position `p` up to `q`. -/
def range (s : List α) (p q : ℕ) : List α := (s.drop p).take (q - p)

variable {bs cs : List (List α)} {b : List α} {i j p q r : ℕ} {s : List α}

@[simp] theorem start_zero : start bs 0 = 0 := by simp [start]

theorem start_cons_succ : start (b :: bs) (i + 1) = b.length + start bs i := by
  simp [start]

theorem start_length : start bs bs.length = bs.flatten.length := by
  rw [start, List.take_length]

theorem start_append (hi : i ≤ bs.length) : start (bs ++ cs) i = start bs i := by
  rw [start, List.take_append_of_le_length hi, start]

theorem start_succ (h : bs[i]? = some b) : start bs (i + 1) = start bs i + b.length := by
  rw [start, List.take_add_one, h, Option.toList_some, List.flatten_append, List.length_append, start]
  simp

theorem start_mono (h : i ≤ j) : start bs i ≤ start bs j := by
  obtain ⟨n, rfl⟩ := Nat.exists_eq_add_of_le h
  rw [start, start, List.take_add, List.flatten_append, List.length_append]
  exact Nat.le_add_right _ _

theorem startsBelow_le (bs : List (List α)) (p : ℕ) : startsBelow bs p ≤ bs.length := by
  induction bs generalizing p with
  | nil => exact le_rfl
  | cons b bs ih =>
    unfold startsBelow
    split
    · exact Nat.zero_le _
    · exact Nat.succ_le_succ (ih _)

section Nonempty

variable (hne : ∀ b ∈ bs, b ≠ [])

include hne

theorem lt_startsBelow : i < startsBelow bs p ↔ i < bs.length ∧ start bs i < p := by
  induction bs generalizing i p with
  | nil => simp [startsBelow]
  | cons b bs ih =>
    have hb : 0 < b.length := List.length_pos_iff.mpr (hne b List.mem_cons_self)
    unfold startsBelow
    split
    · omega
    · cases i with
      | zero =>
        rw [start_zero, List.length_cons]
        omega
      | succ i =>
        rw [Nat.add_lt_add_iff_right, ih fun b hb => hne b (List.mem_cons_of_mem _ hb),
          start_cons_succ, List.length_cons]
        omega

theorem startsBelow_start (hi : i ≤ bs.length) : startsBelow bs (start bs i) = i := by
  induction bs generalizing i with
  | nil =>
    obtain rfl : i = 0 := Nat.le_zero.mp hi
    rfl
  | cons b bs ih =>
    have hb : 0 < b.length := List.length_pos_iff.mpr (hne b List.mem_cons_self)
    cases i with
    | zero => simp [startsBelow]
    | succ i =>
      rw [start_cons_succ, startsBelow, if_neg (by omega), Nat.add_sub_cancel_left,
        ih (fun b hb => hne b (List.mem_cons_of_mem _ hb)) (Nat.le_of_succ_le_succ hi)]

theorem start_lt (hij : i < j) (hj : j ≤ bs.length) : start bs i < start bs j := by
  have h := (lt_startsBelow hne (i := i) (p := start bs j)).mp (by rwa [startsBelow_start hne hj])
  exact h.2

theorem start_le_iff (hi : i ≤ bs.length) : start bs i ≤ start bs j ↔ i ≤ j := by
  refine ⟨fun h => ?_, start_mono⟩
  by_contra hc
  have := start_lt hne (Nat.not_le.mp hc) hi
  omega

theorem startsBelow_append (hp : p ≤ bs.flatten.length) :
    startsBelow (bs ++ cs) p = startsBelow bs p := by
  induction bs generalizing p with
  | nil =>
    obtain rfl : p = 0 := by simpa using hp
    cases cs <;> rfl
  | cons b bs ih =>
    rw [List.cons_append, startsBelow, startsBelow]
    split
    · rfl
    · rw [ih fun b hb => hne b (List.mem_cons_of_mem _ hb)]
      simp only [List.flatten_cons, List.length_append] at hp
      omega

end Nonempty

theorem le_start_startsBelow (hp : p ≤ bs.flatten.length) : p ≤ start bs (startsBelow bs p) := by
  induction bs generalizing p with
  | nil => simp_all
  | cons b bs ih =>
    unfold startsBelow
    split
    · omega
    · rw [start_cons_succ]
      simp only [List.flatten_cons, List.length_append] at hp
      have := ih (p := p - b.length) (by omega)
      omega

theorem startsBelow_mono (hne : ∀ b ∈ bs, b ≠ []) (hpq : p ≤ q) :
    startsBelow bs p ≤ startsBelow bs q := by
  by_contra hc
  obtain ⟨hlt, hstart⟩ := (lt_startsBelow hne).mp (Nat.not_le.mp hc)
  have := (lt_startsBelow hne).mpr ⟨hlt, Nat.lt_of_lt_of_le hstart hpq⟩
  omega

/-! ## Ranges -/

@[simp] theorem range_self : range s p p = [] := by simp [range]

theorem range_append (hpq : p ≤ q) (hqr : q ≤ r) : range s p q ++ range s q r = range s p r := by
  rw [range, range, range, show r - p = (q - p) + (r - q) by omega, List.take_add, List.drop_drop,
    show p + (q - p) = q by omega]

theorem range_left {t : List α} (hq : q ≤ s.length) : range (s ++ t) p q = range s p q := by
  rcases Nat.lt_or_ge s.length p with hp | hp
  · rw [range, range, show q - p = 0 by omega, List.take_zero, List.take_zero]
  · rw [range, range, List.drop_append_of_le_length hp, List.take_append_of_le_length]
    rw [List.length_drop]
    omega

theorem range_block (h : bs[i]? = some b) :
    range bs.flatten (start bs i) (start bs (i + 1)) = b := by
  obtain ⟨hi, rfl⟩ := List.getElem?_eq_some_iff.mp h
  have hsplit : bs.flatten = (bs.take i).flatten ++ (bs[i] ++ (bs.drop (i + 1)).flatten) := by
    rw [← List.flatten_cons, ← List.drop_eq_getElem_cons hi, ← List.flatten_append,
      List.take_append_drop]
  rw [range, start_succ h, Nat.add_sub_cancel_left, hsplit, start, List.drop_left, List.take_left]

theorem range_blocks (hij : i ≤ j) (hj : j ≤ bs.length) :
    range bs.flatten (start bs i) (start bs j) =
      (List.range' i (j - i)).flatMap fun k => bs.getD k [] := by
  obtain ⟨n, rfl⟩ := Nat.exists_eq_add_of_le hij
  rw [Nat.add_sub_cancel_left]
  induction n with
  | zero => simp
  | succ n ih =>
    have hlt : i + n < bs.length := by omega
    have hget : bs[i + n]? = some bs[i + n] := List.getElem?_eq_getElem hlt
    rw [← range_append (start_mono (Nat.le_add_right i n)) (start_mono (by omega)),
      ih (Nat.le_add_right i n) (by omega), ← Nat.add_assoc, range_block hget, List.range'_concat,
      List.flatMap_append]
    simp [List.getD, hget]

end Blocks
