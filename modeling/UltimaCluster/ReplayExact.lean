/-
  The anti-replay window is an exact set.

  Bit `i` stands for the counter `highest - i` over any history: a jump moves every
  bit up by the jump and brings in zeros (`bitIsSet_shiftLeft_eq`), which is what
  the loop over the sixteen words computes in place (`shiftLoop_eq`).
-/
import UltimaCluster.Replay

namespace UltimaCluster

namespace Bitmap

/-! ## The shift, in place -/

/-- One round of the loop: word `i` from the words as they are. -/
def shiftWord (n : ℕ) (b : Bitmap) (i : Fin 16) : Bitmap :=
  Function.update b i (b.shiftedWord n i)

/-- `shift_left`: from the top word down. -/
def shiftLoop (b : Bitmap) (n : ℕ) : Bitmap :=
  if n = 0 then b else (List.finRange 16).reverse.foldl (shiftWord n) b

variable (b : Bitmap) (n : ℕ)

/-- After the rounds from the top down to `k`, the words from `k` on are shifted
    and those below are as they were. -/
theorem foldl_shiftWord (hn : n ≠ 0) (k : ℕ) (hk : k ≤ 16) (i : Fin 16) :
    ((List.finRange 16).drop k).reverse.foldl (shiftWord n) b i =
      if k ≤ i then b.shiftLeft n i else b i := by
  induction hm : 16 - k generalizing k i with
  | zero =>
    have hk16 : k = 16 := by omega
    subst hk16
    have hdrop : (List.finRange 16).drop 16 = [] := by simp
    rw [hdrop, if_neg (by omega)]
    rfl
  | succ m ih =>
    have hlt : k < (List.finRange 16).length := by
      rw [List.length_finRange]
      omega
    have hget : (List.finRange 16)[k] = ⟨k, by omega⟩ := by simp
    rw [List.drop_eq_getElem_cons hlt, List.reverse_cons, List.foldl_append, hget]
    have hbelow := fun j => ih (k + 1) (by omega) j (by omega)
    show shiftWord n (((List.finRange 16).drop (k + 1)).reverse.foldl (shiftWord n) b) ⟨k, by omega⟩ i = _
    generalize ((List.finRange 16).drop (k + 1)).reverse.foldl (shiftWord n) b = c at hbelow ⊢
    unfold shiftWord
    by_cases hik : i = ⟨k, by omega⟩
    · -- every word that it reads is at or below `k`
      rw [hik, Function.update_self, if_pos le_rfl]
      unfold shiftLeft shiftedWord
      rw [if_neg hn]
      have hold : ∀ j : Fin 16, j.val ≤ k → c j = b j := by
        intro j hj
        rw [hbelow, if_neg (by omega)]
      rw [hold ⟨k - n / 64, by omega⟩ (Nat.sub_le _ _),
        hold ⟨k - n / 64 - 1, by omega⟩ ((Nat.sub_le _ _).trans (Nat.sub_le _ _))]
    · have hne : i.val ≠ k := fun h => hik (Fin.ext h)
      rw [Function.update_of_ne hik, hbelow]
      by_cases hle : k ≤ i
      · rw [if_pos hle, if_pos (by omega)]
      · rw [if_neg hle, if_neg (by omega)]

theorem shiftLoop_eq : b.shiftLoop n = b.shiftLeft n := by
  unfold shiftLoop
  split_ifs with hn
  · ext i
    simp [shiftLeft, hn]
  · ext i
    have h := foldl_shiftWord b n hn 0 (by omega) i
    rw [List.drop_zero, if_pos (Nat.zero_le _)] at h
    rw [h]

/-! ## Bits after a shift -/

theorem bitIsSet_shiftLeft_eq {n : ℕ} (hn : n < 1024) (j : Fin 1024) :
    (b.shiftLeft n).bitIsSet j =
      if h : n ≤ j then b.bitIsSet ⟨j - n, by omega⟩ else false := by
  split_ifs with h
  · cases hset : b.bitIsSet ⟨j - n, by omega⟩ with
    | true => exact bitIsSet_shiftLeft (by dsimp only; omega) hset
    | false =>
      unfold bitIsSet at hset ⊢
      unfold shiftLeft shiftedWord
      dsimp only at hset ⊢
      split_ifs with hn0 hword hcarry
      · rw [← hset]
        congr 2
        · exact Fin.ext (by dsimp only; omega)
        · omega
      · rw [BitVec.getLsbD_or, Bool.or_eq_false_iff]
        constructor
        · by_cases hlow : n % 64 ≤ j.val % 64
          · rw [BitVec.getLsbD_shiftLeft]
            have hidx : (⟨j.val / 64 - n / 64, by omega⟩ : Fin 16) = ⟨(j.val - n) / 64, by omega⟩ :=
              Fin.ext (by dsimp only; omega)
            have hbit : j.val % 64 - n % 64 = (j.val - n) % 64 := by omega
            rw [hidx, hbit, hset, Bool.and_false]
          · rw [BitVec.getLsbD_shiftLeft]
            simp [show j.val % 64 < n % 64 by omega]
        · by_cases hlow : n % 64 ≤ j.val % 64
          · rw [BitVec.getLsbD_ushiftRight]
            exact BitVec.getLsbD_of_ge _ _ (by omega)
          · have hidx : (⟨j.val / 64 - n / 64 - 1, by omega⟩ : Fin 16) =
                ⟨(j.val - n) / 64, by omega⟩ := Fin.ext (by dsimp only; omega)
            have hbit : 64 - n % 64 + j.val % 64 = (j.val - n) % 64 := by omega
            rw [BitVec.getLsbD_ushiftRight, hidx, hbit, hset]
      · have hidx : (⟨j.val / 64 - n / 64, by omega⟩ : Fin 16) = ⟨(j.val - n) / 64, by omega⟩ :=
          Fin.ext (by dsimp only; omega)
        have hbit : j.val % 64 - n % 64 = (j.val - n) % 64 := by omega
        rw [BitVec.getLsbD_shiftLeft, hidx, hbit, hset, Bool.and_false]
      · omega
  · unfold bitIsSet shiftLeft shiftedWord
    dsimp only
    split_ifs with hn0 hword hcarry
    · omega
    · omega
    · rw [BitVec.getLsbD_shiftLeft]
      simp [show j.val % 64 < n % 64 by omega]
    · exact BitVec.getLsbD_zero

/-- After the loop, bit `j` is what bit `j - n` was, and the lowest `n` are clear. -/
theorem shiftLoop_bits (b : Bitmap) {n : ℕ} (hn : n < 1024) (j : Fin 1024) :
    (b.shiftLoop n).bitIsSet j = if h : n ≤ j then b.bitIsSet ⟨j - n, by omega⟩ else false := by
  rw [shiftLoop_eq, bitIsSet_shiftLeft_eq b hn]

theorem shiftLoop_bits_across : (shiftLoop (fun _ => 1) 63).bitIsSet 127 = true :=
  (shiftLoop_bits (fun _ => 1) (by decide) 127).trans (by decide)

end Bitmap

namespace ReplayWindow

/-! ## Histories -/

/-- The window after a sequence of offers, with the counters that were accepted. -/
def offer (s : ReplayWindow × List ℕ) (counter : ℕ) : ReplayWindow × List ℕ :=
  let (w, accepted) := s.1.checkAndSet counter
  (w, if accepted then counter :: s.2 else s.2)

def offers (counters : List ℕ) : ReplayWindow × List ℕ := counters.foldl offer (new, [])

/-- The highest accepted counter, and 0 before there is one. -/
def top (accepted : List ℕ) : ℕ := accepted.foldr max 0

theorem le_top {accepted : List ℕ} {counter : ℕ} (h : counter ∈ accepted) :
    counter ≤ top accepted := by
  induction accepted with
  | nil => cases h
  | cons c cs ih =>
    rcases List.mem_cons.mp h with rfl | h
    · exact le_max_left _ _
    · exact (ih h).trans (le_max_right _ _)

/-- Bit `i` is set for the counters that were accepted, and for no other. -/
structure Exact (w : ReplayWindow) (accepted : List ℕ) : Prop where
  highest : w.highest = top accepted
  bits : ∀ i : Fin 1024, w.bitmap.bitIsSet i = true ↔
    i.val < w.highest ∧ w.highest - i.val ∈ accepted
  nodup : accepted.Nodup

variable {w : ReplayWindow} {accepted : List ℕ}

theorem exact_new : Exact new [] where
  highest := rfl
  bits i := by simp [new, Bitmap.bitIsSet]
  nodup := .nil

theorem Exact.accepts_iff (h : Exact w accepted) (counter : ℕ) :
    (w.checkAndSet counter).2 = true ↔
      counter ≠ 0 ∧ counter ∉ accepted ∧ top accepted < counter + 1024 := by
  have hmem : counter ∈ accepted → counter ≤ w.highest := fun hc => h.highest ▸ le_top hc
  rw [← h.highest]
  unfold checkAndSet
  split_ifs with h0 hlt hin hbit
  · simp [h0]
  · simp only [true_iff]
    exact ⟨h0, fun hc => by have := hmem hc; omega, by omega⟩
  · rw [h.bits] at hbit
    dsimp only at hbit
    have hsub : w.highest - (w.highest - counter) = counter := by omega
    rw [hsub] at hbit
    simp [hbit.2]
  · rw [h.bits] at hbit
    dsimp only at hbit
    have hsub : w.highest - (w.highest - counter) = counter := by omega
    rw [hsub] at hbit
    simp only [true_iff]
    have : replayWindowBits = 1024 := rfl
    exact ⟨h0, fun hc => hbit ⟨by omega, hc⟩, by omega⟩
  · have : replayWindowBits = 1024 := rfl
    simp only [false_iff, not_and]
    intro _ _
    omega

theorem Exact.offer (h : Exact w accepted) (counter : ℕ) :
    Exact (offer (w, accepted) counter).1 (offer (w, accepted) counter).2 := by
  have haccepts := h.accepts_iff counter
  have hpos : replayWindowBits = 1024 := rfl
  unfold ReplayWindow.offer
  dsimp only
  cases hok : (w.checkAndSet counter).2 with
  | false =>
    have hsame : (w.checkAndSet counter).1 = w := by
      unfold checkAndSet at hok ⊢
      split_ifs at hok ⊢ <;> rfl
    rw [hsame]
    exact h
  | true =>
    obtain ⟨h0, hfresh, hwindow⟩ := haccepts.mp hok
    have htop := h.highest
    have hmem : ∀ c ∈ accepted, c ≤ w.highest := fun c hc => htop ▸ le_top hc
    have hnodup : (counter :: accepted).Nodup := List.nodup_cons.mpr ⟨hfresh, h.nodup⟩
    simp only [if_true]
    unfold checkAndSet at hok ⊢
    rw [if_neg h0] at hok ⊢
    by_cases hlt : w.highest < counter
    · rw [if_pos hlt]
      refine ⟨?_, fun i => ?_, hnodup⟩
      · show counter = max counter (top accepted)
        omega
      · show (Bitmap.setBit _ 0).bitIsSet i = true ↔ i.val < counter ∧ counter - i.val ∈ counter :: accepted
        rw [Bitmap.bitIsSet_setBit, Bool.or_eq_true, decide_eq_true_eq, List.mem_cons]
        have hslide : (w.slide (counter - w.highest)).bitIsSet i = true ↔
            counter - w.highest ≤ i.val ∧ i.val < counter ∧ counter - i.val ∈ accepted := by
          unfold slide
          split_ifs with hjump
          · have hzero : Bitmap.bitIsSet (fun _ => 0) i = false := by simp [Bitmap.bitIsSet]
            rw [hzero]
            simp only [Bool.false_eq_true, false_iff, not_and]
            intro hle
            omega
          · rw [Bitmap.bitIsSet_shiftLeft_eq _ (by omega)]
            split_ifs with hle
            · rw [h.bits]
              dsimp only
              have hsub : w.highest - (i.val - (counter - w.highest)) = counter - i.val := by omega
              rw [hsub]
              constructor
              · rintro ⟨hi, hc⟩
                exact ⟨hle, by omega, hc⟩
              · rintro ⟨-, hi, hc⟩
                exact ⟨by omega, hc⟩
            · simp only [false_iff, not_and]
              intro hle'
              exact absurd hle' hle
        rw [hslide]
        constructor
        · rintro (rfl | ⟨-, hi, hc⟩)
          · exact ⟨by simp; omega, .inl (by simp)⟩
          · exact ⟨hi, .inr hc⟩
        · rintro ⟨hi, hc | hc⟩
          · exact .inl (Fin.ext (by simp; omega))
          · have := hmem _ hc
            exact .inr ⟨by omega, hi, hc⟩
    · rw [if_neg hlt] at hok ⊢
      have hin : w.highest - counter < replayWindowBits := by omega
      rw [dif_pos hin] at hok ⊢
      split_ifs at hok ⊢ with hbit
      refine ⟨?_, fun i => ?_, hnodup⟩
      · show w.highest = max counter (top accepted)
        omega
      · show (Bitmap.setBit _ _).bitIsSet i = true ↔
          i.val < w.highest ∧ w.highest - i.val ∈ counter :: accepted
        rw [Bitmap.bitIsSet_setBit, Bool.or_eq_true, decide_eq_true_eq, h.bits, List.mem_cons]
        constructor
        · rintro (rfl | ⟨hi, hc⟩)
          · exact ⟨by dsimp only; omega, .inl (by dsimp only; omega)⟩
          · exact ⟨hi, .inr hc⟩
        · rintro ⟨hi, hc | hc⟩
          · exact .inl (Fin.ext (by dsimp only; omega))
          · exact .inr ⟨hi, hc⟩

theorem exact_offers (counters : List ℕ) : Exact (offers counters).1 (offers counters).2 := by
  induction counters using List.reverseRecOn with
  | nil => exact exact_new
  | append_singleton counters counter ih =>
    unfold offers at ih ⊢
    rw [List.foldl_append]
    exact ih.offer counter

/-- **The window is an exact sliding set.**  After any offers, a counter is accepted
    just if it is not zero, was not accepted before and is above the highest
    accepted one less 1024; and none was accepted twice. -/
theorem accepts_exactly (counters : List ℕ) (counter : ℕ) :
    (((offers counters).1.checkAndSet counter).2 = true ↔
      counter ≠ 0 ∧ counter ∉ (offers counters).2 ∧ top (offers counters).2 < counter + 1024) ∧
      (offers (counters ++ [counter])).2.Nodup :=
  ⟨(exact_offers counters).accepts_iff counter, (exact_offers (counters ++ [counter])).nodup⟩

end ReplayWindow

end UltimaCluster
