/-
  The anti-replay window of a key (`uc_crypto/src/replay.rs`): a bitmap of 1024
  bits in 16 words, bit `i` for the counter `highest - i`.

  A counter that was accepted is never accepted again (`checkAndSet_seen` with
  `seen_checkAndSet` and `Seen.checkAndSet`).
-/
import Mathlib.Data.Fintype.Pi

namespace UltimaCluster

/-- `REPLAY_WINDOW_BITS`. -/
def replayWindowBits : ℕ := 1024

/-- The words of the bitmap. -/
abbrev Bitmap := Fin 16 → BitVec 64

namespace Bitmap

/-- A shifted word: it comes from words that the loop, from the top down, has not
    overwritten. -/
def shiftedWord (b : Bitmap) (n : ℕ) (i : Fin 16) : BitVec 64 :=
  if n / 64 ≤ i then
    let word := b ⟨i - n / 64, by omega⟩ <<< (n % 64)
    if 0 < n % 64 ∧ n / 64 < i then
      word ||| b ⟨i - n / 64 - 1, by omega⟩ >>> (64 - n % 64)
    else word
  else 0

/-- The bitmap, moved by `n`. -/
def shiftLeft (b : Bitmap) (n : ℕ) : Bitmap := fun i => if n = 0 then b i else b.shiftedWord n i

def bitIsSet (b : Bitmap) (index : Fin 1024) : Bool :=
  (b ⟨index / 64, by omega⟩).getLsbD (index % 64)

def setBit (b : Bitmap) (index : Fin 1024) : Bitmap :=
  let word : Fin 16 := ⟨index / 64, by omega⟩
  Function.update b word (b word ||| 1#64 <<< (index.val % 64))

theorem bitIsSet_setBit (b : Bitmap) (i j : Fin 1024) :
    (b.setBit i).bitIsSet j = (decide (j = i) || b.bitIsSet j) := by
  unfold bitIsSet setBit
  by_cases hword : (⟨j / 64, by omega⟩ : Fin 16) = ⟨i / 64, by omega⟩
  · have hij : j = i ↔ j.val % 64 = i.val % 64 := by
      have := Fin.mk.inj hword
      omega
    rw [hword, Function.update_self, BitVec.getLsbD_or, BitVec.getLsbD_shiftLeft,
      BitVec.getLsbD_one, Bool.or_comm]
    congr 1
    by_cases hbit : j.val % 64 = i.val % 64
    · simp [hij.mpr hbit, Nat.mod_lt]
    · have hlt : j.val % 64 < 64 := Nat.mod_lt _ (by decide)
      rw [decide_eq_false (hij.not.mpr hbit)]
      by_cases hle : j.val % 64 < i.val % 64
      · simp [hle]
      · have : j.val % 64 - i.val % 64 ≠ 0 := by omega
        simp [this]
  · have hij : j ≠ i := fun h => hword (by simp [h])
    rw [Function.update_of_ne hword, decide_eq_false hij, Bool.false_or]

theorem bitIsSet_shiftLeft {b : Bitmap} {n : ℕ} {i j : Fin 1024} (hj : j.val = i.val + n)
    (hset : b.bitIsSet i = true) : (b.shiftLeft n).bitIsSet j = true := by
  unfold bitIsSet at hset ⊢
  unfold shiftLeft shiftedWord
  dsimp only
  split_ifs with hn hword hcarry
  · have hij : j = i := by omega
    rw [hij]
    exact hset
  · rw [BitVec.getLsbD_or, Bool.or_eq_true]
    by_cases hlow : i.val % 64 + n % 64 < 64
    · left
      have hidx : (⟨j.val / 64 - n / 64, by omega⟩ : Fin 16) = ⟨i.val / 64, by omega⟩ :=
        Fin.ext (by dsimp only; omega)
      have hbit : j.val % 64 - n % 64 = i.val % 64 := by omega
      rw [BitVec.getLsbD_shiftLeft, hidx, hbit, hset]
      simp only [Bool.and_true, Bool.and_eq_true, decide_eq_true_eq, Bool.not_eq_true',
        decide_eq_false_iff_not]
      omega
    · right
      have hidx : (⟨j.val / 64 - n / 64 - 1, by omega⟩ : Fin 16) = ⟨i.val / 64, by omega⟩ :=
        Fin.ext (by dsimp only; omega)
      have hbit : 64 - n % 64 + j.val % 64 = i.val % 64 := by omega
      rw [BitVec.getLsbD_ushiftRight, hidx, hbit, hset]
  · have hidx : (⟨j.val / 64 - n / 64, by omega⟩ : Fin 16) = ⟨i.val / 64, by omega⟩ :=
      Fin.ext (by dsimp only; omega)
    have hbit : j.val % 64 - n % 64 = i.val % 64 := by omega
    rw [BitVec.getLsbD_shiftLeft, hidx, hbit, hset]
    simp only [Bool.and_true, Bool.and_eq_true, decide_eq_true_eq, Bool.not_eq_true',
      decide_eq_false_iff_not]
    omega
  · omega

end Bitmap

/-- The window of one sender. -/
structure ReplayWindow where
  highest : ℕ
  bitmap : Bitmap
deriving DecidableEq

namespace ReplayWindow

def new : ReplayWindow := ⟨0, fun _ => 0⟩

/-- The bitmap for a new high-water mark; past the whole window nothing stays. -/
def slide (w : ReplayWindow) (jump : ℕ) : Bitmap :=
  if replayWindowBits ≤ jump then fun _ => 0 else w.bitmap.shiftLeft jump

/-- The window after a counter, and whether the counter is accepted. -/
def checkAndSet (w : ReplayWindow) (counter : ℕ) : ReplayWindow × Bool :=
  if counter = 0 then (w, false)
  else if w.highest < counter then
    (⟨counter, (w.slide (counter - w.highest)).setBit 0⟩, true)
  else if h : w.highest - counter < replayWindowBits then
    if w.bitmap.bitIsSet ⟨w.highest - counter, h⟩ then (w, false)
    else (⟨w.highest, w.bitmap.setBit ⟨w.highest - counter, h⟩⟩, true)
  else (w, false)

/-- The counter will not be accepted. -/
def Seen (w : ReplayWindow) (counter : ℕ) : Prop :=
  counter ≤ w.highest ∧ ∀ h : w.highest - counter < 1024,
    w.bitmap.bitIsSet ⟨w.highest - counter, h⟩ = true

variable {w : ReplayWindow} {counter : ℕ}

theorem checkAndSet_seen (h : w.Seen counter) : w.checkAndSet counter = (w, false) := by
  unfold checkAndSet
  split_ifs with h0 hlt hin hbit
  · rfl
  · exact absurd h.1 (by omega)
  · rfl
  · exact absurd (h.2 hin) hbit
  · rfl

theorem seen_checkAndSet (h : (w.checkAndSet counter).2 = true) :
    (w.checkAndSet counter).1.Seen counter := by
  unfold checkAndSet at h ⊢
  split_ifs at h ⊢ with h0 hlt hin hbit
  · refine ⟨le_rfl, fun hin => ?_⟩
    rw [Bitmap.bitIsSet_setBit]
    simp
  · refine ⟨not_lt.mp hlt, fun hin => ?_⟩
    rw [Bitmap.bitIsSet_setBit]
    simp

theorem Seen.checkAndSet (h : w.Seen counter) (other : ℕ) :
    (w.checkAndSet other).1.Seen counter := by
  have hle := h.1
  unfold ReplayWindow.checkAndSet
  split_ifs with h0 hlt hin hbit
  · exact h
  · refine ⟨hle.trans hlt.le, fun hnear => ?_⟩
    dsimp only at hnear ⊢
    have hold : w.highest - counter < 1024 := by omega
    have hjump : ¬ replayWindowBits ≤ other - w.highest := by
      have : replayWindowBits = 1024 := rfl
      omega
    rw [Bitmap.bitIsSet_setBit, Bool.or_eq_true]
    right
    unfold slide
    rw [if_neg hjump]
    exact Bitmap.bitIsSet_shiftLeft (by dsimp only; omega) (h.2 hold)
  · exact h
  · refine ⟨hle, fun hnear => ?_⟩
    rw [Bitmap.bitIsSet_setBit, Bool.or_eq_true]
    exact .inr (h.2 hnear)
  · exact h

end ReplayWindow

end UltimaCluster
