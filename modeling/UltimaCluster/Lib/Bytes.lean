/-
  Byte strings: little-endian integers of a fixed width, slices, and sequences
  of records of a fixed length.
-/
import Mathlib.Data.Nat.Digits.Defs

/-- A string of bytes. -/
abbrev Bytes := List UInt8

namespace Bytes

/-! ## Little-endian integers -/

/-- The low `w` bytes of `n`, least significant first. -/
def le : ℕ → ℕ → Bytes
  | 0, _ => []
  | w + 1, n => UInt8.ofNat n :: le w (n / 256)

/-- The integer with the given little-endian bytes. -/
def val (b : Bytes) : ℕ := Nat.ofDigits 256 (b.map UInt8.toNat)

@[simp] theorem length_le (w n : ℕ) : (le w n).length = w := by
  induction w generalizing n with
  | zero => rfl
  | succ w ih => simp [le, ih]

@[simp] theorem val_nil : val [] = 0 := rfl

theorem val_cons (x : UInt8) (b : Bytes) : val (x :: b) = x.toNat + 256 * val b := by
  simp [val, Nat.ofDigits_cons]

theorem val_lt (b : Bytes) : val b < 256 ^ b.length := by
  have h : ∀ x ∈ b.map UInt8.toNat, x < 256 := by
    intro x hx
    obtain ⟨y, _, rfl⟩ := List.mem_map.mp hx
    exact y.toNat_lt
  simpa [val] using Nat.ofDigits_lt_base_pow_length (by decide) h

variable {w n : ℕ}

theorem val_le (h : n < 256 ^ w) : val (le w n) = n := by
  induction w generalizing n with
  | zero =>
    obtain rfl : n = 0 := by simpa using h
    rfl
  | succ w ih =>
    have hdiv : n / 256 < 256 ^ w := by
      rw [Nat.div_lt_iff_lt_mul (by decide)]
      simpa [pow_succ] using h
    rw [le, val_cons, ih hdiv, UInt8.toNat_ofNat']
    omega

theorem le_val (b : Bytes) : le b.length (val b) = b := by
  induction b with
  | nil => rfl
  | cons x b ih =>
    have hx := x.toNat_lt
    rw [List.length_cons, le, val_cons]
    have hdiv : (x.toNat + 256 * val b) / 256 = val b := by omega
    have hmod : UInt8.ofNat (x.toNat + 256 * val b) = x := by
      apply UInt8.toNat_inj.mp
      rw [UInt8.toNat_ofNat']
      omega
    rw [hdiv, hmod, ih]

variable {b : Bytes}

theorem le_val_of_length (h : b.length = w) : le w (val b) = b :=
  h ▸ le_val b

/-! ## Slices -/

/-- The bytes from `i` up to `j`, where the string reaches that far. -/
def slice (b : Bytes) (i j : ℕ) : Bytes := (b.drop i).take (j - i)

/-- The integer at `i..j`. -/
def num (b : Bytes) (i j : ℕ) : ℕ := val (slice b i j)

/-- The byte at `i`. -/
def at_ (b : Bytes) (i : ℕ) : ℕ := num b i (i + 1)

@[simp] theorem length_slice (b : Bytes) (i j : ℕ) :
    (slice b i j).length = min (j - i) (b.length - i) := by
  simp [slice]

theorem take_drop (b : Bytes) (i n : ℕ) : (b.drop i).take n = slice b i (i + n) := by
  rw [slice, Nat.add_sub_cancel_left]

@[simp] theorem slice_self (b : Bytes) (i : ℕ) : slice b i i = [] := by
  simp [slice]

theorem slice_all (h : b.length = n) : slice b 0 n = b := by
  simp [slice, ← h]

variable {l r : Bytes}

theorem slice_append_left {i j : ℕ} (h : j ≤ l.length) : slice (l ++ r) i j = slice l i j := by
  unfold slice
  by_cases hi : i ≤ l.length
  · rw [List.drop_append_of_le_length hi, List.take_append_of_le_length]
    rw [List.length_drop]
    omega
  · have hji : j - i = 0 := by omega
    simp [hji]

theorem slice_append_right {i j : ℕ} (h : l.length ≤ i) :
    slice (l ++ r) i j = slice r (i - l.length) (j - l.length) := by
  unfold slice
  rw [List.drop_append, List.drop_eq_nil_of_le h, List.nil_append]
  congr 1
  omega

theorem slice_append_self (h : l.length = n) : slice (l ++ r) 0 n = l := by
  rw [slice_append_left h.ge, slice_all h]

theorem slice_take {n i j : ℕ} (h : j ≤ n) : slice (b.take n) i j = slice b i j := by
  simp only [slice, List.drop_take, List.take_take]
  congr 1
  omega

theorem slice_append (b : Bytes) {i j k : ℕ} (hij : i ≤ j) (hjk : j ≤ k) :
    slice b i j ++ slice b j k = slice b i k := by
  unfold slice
  have hk : k - i = (j - i) + (k - j) := by omega
  rw [hk, List.take_add, List.drop_drop]
  congr 3
  omega

theorem num_lt (b : Bytes) (i j : ℕ) : num b i j < 256 ^ (j - i) := by
  refine (val_lt _).trans_le (Nat.pow_le_pow_right (by decide) ?_)
  rw [length_slice]
  exact min_le_left _ _

theorem num_append_left {i j : ℕ} (h : j ≤ l.length) : num (l ++ r) i j = num l i j := by
  rw [num, slice_append_left h, num]

theorem num_append_le {w n i j : ℕ} (hl : l.length = i) (hj : j = i + w) (hn : n < 256 ^ w) :
    num (l ++ le w n) i j = n := by
  have hw : (le w n).length = j - i := by
    rw [length_le, hj, Nat.add_sub_cancel_left]
  rw [num, slice_append_right hl.le, hl, Nat.sub_self, slice_all hw, val_le hn]

theorem num_take {n i j : ℕ} (h : j ≤ n) : num (b.take n) i j = num b i j := by
  rw [num, slice_take h, num]

theorem num_le (h : n < 256 ^ w) : num (le w n) 0 w = n := by
  rw [num, slice_all (length_le w n), val_le h]

theorem le_num {i j w : ℕ} (hw : j - i = w) (hj : j ≤ b.length) :
    le w (num b i j) = slice b i j := by
  refine le_val_of_length ?_
  rw [length_slice]
  omega

/-- Strings that agree up to `i` and in the integer at `i..j` agree up to `j`. -/
theorem slice_ext {a b : Bytes} {i j : ℕ} (hij : i ≤ j) (ha : j ≤ a.length) (hb : j ≤ b.length)
    (h : slice a 0 i = slice b 0 i) (hn : num a i j = num b i j) : slice a 0 j = slice b 0 j := by
  rw [← slice_append a (Nat.zero_le i) hij, ← slice_append b (Nat.zero_le i) hij, h,
    ← le_num rfl ha, ← le_num rfl hb, hn]

/-! ## Records of a fixed length -/

variable {α : Type*}

/-- Read `n` records of `len` bytes each. -/
def readN (dec : Bytes → Option α) (len : ℕ) : ℕ → Bytes → Option (List α)
  | 0, _ => some []
  | n + 1, b => do
    let x ← dec (b.take len)
    let xs ← readN dec len n (b.drop len)
    return x :: xs

variable {enc : α → Bytes}

theorem readN_flatMap {dec : Bytes → Option α} {len : ℕ} {xs : List α}
    (h : ∀ x ∈ xs, (enc x).length = len ∧ dec (enc x) = some x) (rest : Bytes) :
    readN dec len xs.length (xs.flatMap enc ++ rest) = some xs := by
  induction xs with
  | nil => rfl
  | cons x xs ih =>
    obtain ⟨hlen, hdec⟩ := h x List.mem_cons_self
    rw [List.length_cons, readN, List.flatMap_cons, List.append_assoc,
      List.take_append_of_le_length hlen.ge, List.take_of_length_le hlen.le, hdec,
      ← hlen, List.drop_left, hlen, ih fun y hy => h y (List.mem_cons_of_mem _ hy)]
    rfl

theorem length_flatMap {len : ℕ} {xs : List α} (h : ∀ x ∈ xs, (enc x).length = len) :
    (xs.flatMap enc).length = xs.length * len := by
  induction xs with
  | nil => simp
  | cons x xs ih =>
    rw [List.flatMap_cons, List.length_append, h x List.mem_cons_self,
      ih fun y hy => h y (List.mem_cons_of_mem _ hy), List.length_cons]
    ring

theorem readN_eq_some {dec : Bytes → Option α} {len : ℕ}
    (h : ∀ b x, b.length = len → dec b = some x → enc x = b) {xs : List α} (hb : n * len ≤ b.length)
    (hr : readN dec len n b = some xs) :
    xs.length = n ∧ xs.flatMap enc = b.take (n * len) ∧
      ∀ x ∈ xs, ∃ c, c.length = len ∧ dec c = some x := by
  induction n generalizing b xs with
  | zero =>
    cases hr
    simp
  | succ n ih =>
    simp only [readN, Option.bind_eq_bind, Option.bind_eq_some_iff] at hr
    obtain ⟨x, hx, ys, hys, heq⟩ := hr
    cases heq
    have hmul : (n + 1) * len = len + n * len := by ring
    have htake : (b.take len).length = len := by
      rw [List.length_take]
      omega
    have hdrop : n * len ≤ (b.drop len).length := by
      rw [List.length_drop]
      omega
    obtain ⟨hlen, hflat, hall⟩ := ih hdrop hys
    refine ⟨by rw [List.length_cons, hlen], ?_, ?_⟩
    · rw [List.flatMap_cons, h _ _ htake hx, hflat, hmul, List.take_add]
    · intro y hy
      rcases List.mem_cons.mp hy with rfl | hy
      · exact ⟨_, htake, hx⟩
      · exact hall y hy

/-! ## Reading from the front -/

/-- The integer of `w` bytes in front, and the rest. -/
def readNum (w : ℕ) (b : Bytes) : Option (ℕ × Bytes) :=
  if b.length < w then none else some (num b 0 w, b.drop w)

/-- The first `n` bytes, and the rest. -/
def readBytes (n : ℕ) (b : Bytes) : Option (Bytes × Bytes) :=
  if b.length < n then none else some (b.take n, b.drop n)

/-- The bytes behind a length prefix of four bytes, and the rest. -/
def readBlob (b : Bytes) : Option (Bytes × Bytes) := do
  let (n, b) ← readNum 4 b
  readBytes n b

/-- The bytes under a length prefix. -/
def blob (b : Bytes) : Bytes := le 4 b.length ++ b

@[simp] theorem length_blob (b : Bytes) : (blob b).length = 4 + b.length := by
  simp [blob]

theorem readNum_le (h : n < 256 ^ w) (rest : Bytes) :
    readNum w (le w n ++ rest) = some (n, rest) := by
  have hlen : ¬ (le w n ++ rest).length < w := by simp
  rw [readNum, if_neg hlen, num_append_left (by simp), num_le h]
  simp

theorem readBytes_append (b rest : Bytes) : readBytes b.length (b ++ rest) = some (b, rest) := by
  simp [readBytes]

theorem readBlob_blob (h : b.length < 2 ^ 32) (rest : Bytes) :
    readBlob (blob b ++ rest) = some (b, rest) := by
  rw [readBlob, blob, List.append_assoc, readNum_le (by omega)]
  exact readBytes_append b rest

end Bytes
