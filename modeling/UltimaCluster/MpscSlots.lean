/-
  The slots of the ring of many producers: what the consumer makes of the first
  word, and of the bytes behind it as they are read.
-/
import UltimaCluster.Mpsc
import UltimaCluster.BroadcastReads

namespace UltimaCluster

open Bytes (le num slice)

/-! ## Commit words -/

section Words

variable {lap len : ℕ}

theorem encodeCommitWord_lt (lap len : ℕ) (claimed : Bool) :
    encodeCommitWord lap len claimed < 256 ^ 4 := by
  unfold encodeCommitWord
  split <;> omega

theorem encodeCommitWord_claim (lap len : ℕ) :
    encodeCommitWord lap len true = lap % 2 ^ 13 * 2 ^ 18 + len % 2 ^ 18 + 2 ^ 31 := by
  unfold encodeCommitWord
  rw [if_pos rfl]

theorem encodeCommitWord_commit (lap len : ℕ) :
    encodeCommitWord lap len false = lap % 2 ^ 13 * 2 ^ 18 + len % 2 ^ 18 := by
  unfold encodeCommitWord
  rw [if_neg Bool.false_ne_true, Nat.add_zero]

theorem classifyCommitWord_zero (lap : ℕ) : classifyCommitWord 0 lap = .empty := if_pos rfl

theorem classifyCommitWord_claim (hlen : len < 2 ^ 18) :
    classifyCommitWord (encodeCommitWord lap len true) lap = .claimed len := by
  have hword := encodeCommitWord_claim lap len
  generalize encodeCommitWord lap len true = word at hword ⊢
  have hlow : word % 2 ^ 18 = len := by omega
  unfold classifyCommitWord
  rw [if_neg (by omega), if_neg (by omega), if_pos (by omega), hlow]

theorem classifyCommitWord_commit (hpos : 0 < len) (hlen : len < 2 ^ 18) :
    classifyCommitWord (encodeCommitWord lap len false) lap = .committed len := by
  have hword := encodeCommitWord_commit lap len
  generalize encodeCommitWord lap len false = word at hword ⊢
  have hlow : word % 2 ^ 18 = len := by omega
  unfold classifyCommitWord
  rw [if_neg (by omega), if_neg (by omega), if_neg (by omega), if_neg (by omega), hlow]

theorem commit_ne_claim (lap len lap' len' : ℕ) :
    encodeCommitWord lap len false ≠ encodeCommitWord lap' len' true := by
  rw [encodeCommitWord_commit, encodeCommitWord_claim]
  omega

theorem marker_ne_claim (hpos : 0 < len) (hlen : len < 2 ^ 18) :
    encodeCommitWord lap 0 true ≠ encodeCommitWord lap len true := by
  rw [encodeCommitWord_claim, encodeCommitWord_claim]
  omega

theorem zero_ne_claim (lap len : ℕ) : 0 ≠ encodeCommitWord lap len true := by
  rw [encodeCommitWord_claim]
  omega

end Words

/-! ## Bytes of the buffer -/

namespace MpscRing

variable (s : MpscRing)

theorem wordAt_storeWord (o : ℕ) {word : ℕ} (h : word < 256 ^ 4) :
    (s.storeWord o word).wordAt o = word := by
  have hcell : ∀ i < 4, (s.storeWord o word).cells (o + i) = (le 4 word).getD i 0 := by
    intro i hi
    show (if o ≤ o + i ∧ o + i < o + 4 then (le 4 word).getD (o + i - o) 0 else _) = _
    rw [if_pos (by omega), Nat.add_sub_cancel_left]
  have h0 := hcell 0 (by omega)
  rw [Nat.add_zero] at h0
  unfold wordAt
  rw [h0, hcell 1 (by omega), hcell 2 (by omega), hcell 3 (by omega)]
  exact Bytes.val_le h

theorem storeWord_cells_of_outside {o word x : ℕ} (h : x < o ∨ o + 4 ≤ x) :
    (s.storeWord o word).cells x = s.cells x := if_neg (by omega)

theorem storeByte_cells_self (o : ℕ) (b : UInt8) : (s.storeByte o b).cells o = b := if_pos rfl

theorem storeByte_cells_ne {o x : ℕ} (b : UInt8) (h : x ≠ o) :
    (s.storeByte o b).cells x = s.cells x := if_neg h

variable {s}

theorem wordAt_congr {s' : MpscRing} {o : ℕ} (h : ∀ x, o ≤ x → x < o + 4 → s'.cells x = s.cells x) :
    s'.wordAt o = s.wordAt o := by
  unfold wordAt
  rw [h o (by omega) (by omega), h (o + 1) (by omega) (by omega), h (o + 2) (by omega) (by omega),
    h (o + 3) (by omega) (by omega)]

theorem wordAt_zero {o : ℕ} (h : ∀ i < 4, s.cells (o + i) = 0) : s.wordAt o = 0 := by
  unfold wordAt
  have h0 := h 0 (by omega)
  rw [Nat.add_zero] at h0
  rw [h0, h 1 (by omega), h 2 (by omega), h 3 (by omega)]
  rfl

end MpscRing

/-! ## Reading a slot -/

namespace RingEntry

variable (crc : Bytes → UInt32)

/-- What is stored behind the first word. -/
def stored (e : RingEntry) : Bytes := (e.bytes crc).drop 4

theorem stored_record (r : RingRecord) :
    (record r).stored crc = r.body ++ le 4 (crc r.body).toNat := rfl

theorem getElem?_bytes (e : RingEntry) (i : ℕ) : (e.bytes crc)[4 + i]? = (e.stored crc)[i]? := by
  rw [stored, List.getElem?_drop]

theorem length_stored {e : RingEntry} (h : e.Ok) : (e.stored crc).length + 4 ≤ e.span := by
  have hle := length_bytes_le crc h
  have h4 := four_le_length crc h
  rw [stored, List.length_drop]
  omega

theorem commitLen_le_span (e : RingEntry) : e.commitLen ≤ e.span := by
  cases e with
  | record r => exact le_alignRecordSize _
  | padding len => exact le_rfl

theorem six_le_commitLen {e : RingEntry} (h : e.Ok) : 6 ≤ e.commitLen := by
  cases e with
  | record r =>
    show 6 ≤ r.total
    unfold RingRecord.total recordHeaderLen
    omega
  | padding len =>
    have hlen : 8 ≤ len := h.1
    show 6 ≤ len
    omega

/-- What the consumer is to make of the entry. -/
def slot : RingEntry → SlotRead
  | record r => .record r (alignRecordSize r.total)
  | padding len => .padding len

/-- The bytes read so far are those of the entry. -/
def Copied (e : RingEntry) (out : Bytes) : Prop :=
  ∀ j < out.length, out[j]? = (e.bytes crc)[slotRead e.commitLen j]?

variable {crc} {e : RingEntry} {out : Bytes}

theorem Copied.push (h : Copied crc e out) {b : UInt8}
    (hb : (e.bytes crc)[slotRead e.commitLen out.length]? = some b) : Copied crc e (out ++ [b]) := by
  intro j hj
  rw [List.length_append, List.length_singleton] at hj
  rcases Nat.lt_succ_iff_lt_or_eq.mp hj with hlt | rfl
  · rw [List.getElem?_append_left hlt]
    exact h j hlt
  · rw [List.getElem?_concat_length, hb]

theorem Copied.slice_eq (h : Copied crc e out) {i j a : ℕ} (hj : j ≤ out.length)
    (hread : ∀ t < j - i, slotRead e.commitLen (i + t) = a + t) :
    slice out i j = slice (e.bytes crc) a (a + (j - i)) := by
  unfold slice
  rw [Nat.add_sub_cancel_left]
  refine List.ext_getElem? fun t => ?_
  rw [List.getElem?_take, List.getElem?_take]
  split_ifs with ht
  · rw [List.getElem?_drop, List.getElem?_drop, h (i + t) (by omega), hread t ht]
  · rfl

theorem Copied.num_eq (h : Copied crc e out) {i j a : ℕ} (hj : j ≤ out.length)
    (hread : ∀ t < j - i, slotRead e.commitLen (i + t) = a + t) :
    num out i j = num (e.bytes crc) a (a + (j - i)) := by
  rw [num, h.slice_eq hj hread, num]

theorem slotRead_type {length n : ℕ} (h : n < 4) : 4 ≤ slotRead length n ∧ slotRead length n < 6 := by
  unfold slotRead
  split_ifs <;> omega

theorem Copied.decode_padding {len tail : ℕ} (h : Copied crc (padding len) out)
    (hok : (padding len).Ok) (htail : len = tail) :
    (decodeSlot crc tail len out = .fetch ∧ out.length < 4) ∨
      decodeSlot crc tail len out = .padding len := by
  unfold decodeSlot
  by_cases h4 : out.length < 4
  · rw [if_pos h4]
    exact .inl ⟨rfl, h4⟩
  have htype : num ((padding len).bytes crc) 4 6 = paddingMsgType :=
    Bytes.num_append_le (by simp) rfl (by decide)
  have hfirst : num out 0 2 = paddingMsgType := by
    rw [h.num_eq (by omega) (a := 4) (fun t ht => by unfold slotRead; rw [if_pos (by omega)]; omega)]
    exact htype
  have hsecond : num out 2 4 = paddingMsgType := by
    rw [h.num_eq (by omega) (a := 4)
      (fun t ht => by unfold slotRead; rw [if_neg (by omega), if_pos (by omega)]; omega)]
    exact htype
  rw [if_neg h4, if_pos ⟨hfirst, htail, hsecond⟩, if_pos (Nat.mod_eq_zero_of_dvd hok.2.2)]
  exact .inr rfl

theorem Copied.decode_record {r : RingRecord} (h : Copied crc (record r) out) (hok : (record r).Ok)
    (tail : ℕ) :
    (decodeSlot crc tail r.total out = .fetch ∧ out.length < 18 + (r.total - 8) + (r.total - 20)) ∨
      decodeSlot crc tail r.total out = .record r (alignRecordSize r.total) := by
  obtain ⟨hextra, -, htype⟩ := hok
  have htotal : 20 ≤ r.total := by
    unfold RingRecord.total recordHeaderLen recordTrailerLen
    omega
  have hheader : recordHeaderLen = 16 := rfl
  have htrailer : recordTrailerLen = 4 := rfl
  unfold decodeSlot
  by_cases h4 : out.length < 4
  · rw [if_pos h4]
    exact .inl ⟨rfl, by omega⟩
  have hsecond : num out 2 4 = r.msgType.toNat := by
    rw [h.num_eq (by omega) (a := 4)
      (fun t ht => by unfold slotRead; rw [if_neg (by omega), if_pos (by omega)]; omega)]
    exact num_msgType crc hextra
  rw [if_neg h4, if_neg (fun hpad => htype (hsecond ▸ hpad.2.2)), if_neg (by omega)]
  by_cases hcrc : out.length < 18 + (r.total - 8)
  · rw [if_pos hcrc]
    exact .inl ⟨rfl, by omega⟩
  have hbody : slice out 18 (18 + (r.total - 8)) = r.body := by
    rw [h.slice_eq (by omega) (a := 4) (fun t ht => by
      show slotRead r.total (18 + t) = 4 + t
      unfold slotRead
      rw [if_neg (by omega), if_neg (by omega), if_neg (by omega), if_pos (by omega)]
      omega)]
    rw [← slice_body crc hextra]
    congr 1
    omega
  have hsum : num out 14 18 = (crc r.body).toNat := by
    rw [h.num_eq (by omega) (a := r.total - recordTrailerLen) (fun t ht => by
      show slotRead r.total (14 + t) = _
      unfold slotRead
      rw [if_neg (by omega), if_neg (by omega), if_pos (by omega)]
      omega)]
    rw [← num_crc crc hextra]
    congr 1
  rw [if_neg hcrc, hbody, hsum, if_neg (not_not.mpr rfl)]
  by_cases hall : out.length < 18 + (r.total - 8) + (r.total - 20)
  · rw [if_pos hall]
    exact .inl ⟨rfl, hall⟩
  have hflags : num out 4 6 = r.flags.toNat := by
    rw [h.num_eq (by omega) (a := 6)
      (fun t ht => by unfold slotRead; rw [if_neg (by omega), if_pos (by omega)]; omega)]
    exact num_flags crc hextra
  have hhead : slice out 6 14 = r.headerExtra := by
    rw [h.slice_eq (by omega) (a := 8)
      (fun t ht => by unfold slotRead; rw [if_neg (by omega), if_pos (by omega)]; omega)]
    exact slice_headerExtra crc hextra
  have hpayload :
      slice out (18 + (r.total - 8)) (18 + (r.total - 8) + (r.total - 20)) = r.payload := by
    rw [h.slice_eq (by omega) (a := recordHeaderLen) (fun t ht => by
      show slotRead r.total _ = _
      unfold slotRead
      rw [if_neg (by omega), if_neg (by omega), if_neg (by omega), if_neg (by omega)]
      omega)]
    rw [← slice_payload crc hextra]
    congr 1
    omega
  rw [if_neg hall, hsecond, hflags, hhead, hpayload, UInt16.ofNat_toNat, UInt16.ofNat_toNat]
  exact .inr rfl

theorem Copied.decode (h : Copied crc e out) (hok : e.Ok) {tail : ℕ}
    (htail : ∀ len, e = padding len → len = tail) :
    (decodeSlot crc tail e.commitLen out = .fetch ∧
        4 ≤ slotRead e.commitLen out.length ∧
        slotRead e.commitLen out.length < (e.bytes crc).length) ∨
      decodeSlot crc tail e.commitLen out = e.slot := by
  cases e with
  | padding len =>
    rcases h.decode_padding hok (htail len rfl) with ⟨hfetch, hlt⟩ | hdone
    · have hlen := length_bytes_padding crc len
      have hread := @slotRead_type len out.length hlt
      exact .inl ⟨hfetch, hread.1, by rw [hlen]; exact hread.2⟩
    · exact .inr hdone
  | record r =>
    rcases h.decode_record hok tail with ⟨hfetch, hlt⟩ | hdone
    · refine .inl ⟨hfetch, ?_⟩
      have hlen := length_bytes_record crc hok.1
      have htotal : 20 ≤ r.total := by
        unfold RingRecord.total recordHeaderLen recordTrailerLen
        omega
      rw [hlen]
      show 4 ≤ slotRead r.total out.length ∧ slotRead r.total out.length < r.total
      unfold slotRead recordHeaderLen recordTrailerLen
      split_ifs <;> omega
    · exact .inr hdone

end RingEntry

end UltimaCluster
