/-
  Reads of the broadcast ring.

  The copy of a record is decoded as it grows, so a copy that turns out to be
  exact was decoded as the record all along.
-/
import UltimaCluster.Broadcast
import UltimaCluster.RingReads

namespace UltimaCluster

open Bytes (le length_le num num_le num_take slice slice_append_right slice_append_self val_le)
open List (append_assoc length_append length_take take_length take_of_length_le)
open RingRecord (body total)

theorem le_alignRecordSize (n : ℕ) : n ≤ alignRecordSize n := by
  unfold alignRecordSize recordAlign
  omega

theorem RingShape.capacity_pos (shape : RingShape) : 0 < shape.capacity := by
  have := shape.aligned
  unfold recordAlign at this
  omega

theorem RingShape.align_dvd (shape : RingShape) : recordAlign ∣ shape.capacity := by
  obtain ⟨k, hk⟩ := shape.powerOfTwo
  have hle := shape.aligned
  rw [hk] at hle ⊢
  have hk3 : 3 ≤ k := by
    by_contra hlt
    have : 2 ^ k ≤ 2 ^ 2 := Nat.pow_le_pow_right (by decide) (by omega)
    unfold recordAlign at hle
    omega
  exact pow_dvd_pow 2 hk3

theorem alignRecordSize_dvd (n : ℕ) : recordAlign ∣ alignRecordSize n := Nat.dvd_mul_left _ _

namespace RingEntry

variable (crc : Bytes → UInt32)

/-- What the producer writes: the word holds the length, and a record is not
    taken for a padding. -/
def Ok : RingEntry → Prop
  | .record r => r.headerExtra.length = 8 ∧ r.total < 2 ^ 32 ∧ r.msgType.toNat ≠ paddingMsgType
  | .padding len => recordAlign ≤ len ∧ len < 2 ^ 32 ∧ recordAlign ∣ len

/-- What a reader is to make of it. -/
def raw : RingEntry → RawRead
  | .record r => .record r (alignRecordSize r.total)
  | .padding len => .padding len

theorem length_body {r : RingRecord} (h : r.headerExtra.length = 8) :
    r.body.length = 12 + r.payload.length := by
  simp only [body, length_append, length_le, h]

theorem length_bytes_record {r : RingRecord} (h : r.headerExtra.length = 8) :
    ((RingEntry.record r).bytes crc).length = r.total := by
  simp only [bytes, length_append, length_le, length_body h]
  unfold total recordHeaderLen recordTrailerLen
  omega

theorem length_bytes_padding (len : ℕ) : ((RingEntry.padding len).bytes crc).length = 6 := by
  simp [bytes]

variable {e : RingEntry}

theorem length_bytes_le (h : e.Ok) : (e.bytes crc).length ≤ e.span := by
  cases e with
  | record r =>
    rw [length_bytes_record crc h.1]
    exact le_alignRecordSize _
  | padding len =>
    rw [length_bytes_padding]
    have hlen : 8 ≤ len := h.1
    change 6 ≤ len
    omega

theorem four_le_length (h : e.Ok) : 4 ≤ (e.bytes crc).length := by
  cases e with
  | record r =>
    rw [length_bytes_record crc h.1]
    unfold total recordHeaderLen
    omega
  | padding len =>
    rw [length_bytes_padding]
    omega

theorem span_pos (h : e.Ok) : 0 < e.span := by
  have h4 := four_le_length (fun _ => 0) h
  have hle := length_bytes_le (fun _ => 0) h
  omega

theorem span_dvd (h : e.Ok) : recordAlign ∣ e.span := by
  cases e with
  | record r => exact alignRecordSize_dvd _
  | padding len => exact h.2.2

/-! ## Decoding -/

section Record

variable {r : RingRecord}

theorem num_length (h : r.total < 2 ^ 32) : num ((record r).bytes crc) 0 4 = r.total := by
  unfold bytes
  rw [Bytes.num_append_left (by simp), num_le (by simpa using h)]

theorem slice_body (h : r.headerExtra.length = 8) :
    slice ((record r).bytes crc) 4 (r.total - recordTrailerLen) = r.body := by
  have hlen := length_body h
  have htotal : r.total - recordTrailerLen - 4 = r.body.length := by
    rw [hlen]
    unfold total recordHeaderLen recordTrailerLen
    omega
  unfold bytes
  rw [slice_append_right (by simp), length_le, htotal, Nat.sub_self]
  exact slice_append_self rfl

theorem num_crc (h : r.headerExtra.length = 8) :
    num ((record r).bytes crc) (r.total - recordTrailerLen) r.total = (crc r.body).toNat := by
  have hlen := length_body h
  dsimp only [bytes]
  rw [← append_assoc]
  refine Bytes.num_append_le ?_ ?_ ?_
  · rw [length_append, length_le, hlen]
    unfold total recordHeaderLen recordTrailerLen
    omega
  · unfold total recordTrailerLen
    omega
  · exact (crc r.body).toNat_lt

theorem slice_bytes (h : r.headerExtra.length = 8) {i j : ℕ} (hi : 4 ≤ i)
    (hj : j ≤ r.total - recordTrailerLen) :
    slice ((record r).bytes crc) i j = slice r.body (i - 4) (j - 4) := by
  rw [← slice_body crc h]
  unfold slice
  rw [List.drop_take, List.drop_drop, List.take_take]
  congr 1
  · omega
  · congr 1
    omega

theorem num_msgType (h : r.headerExtra.length = 8) :
    num ((record r).bytes crc) 4 6 = r.msgType.toNat := by
  have htotal : 6 ≤ r.total - recordTrailerLen := by
    unfold total recordHeaderLen recordTrailerLen
    omega
  rw [num, slice_bytes crc h le_rfl htotal]
  unfold body
  simp only [append_assoc]
  rw [slice_append_self (by simp), val_le r.msgType.toNat_lt]

theorem num_flags (h : r.headerExtra.length = 8) :
    num ((record r).bytes crc) 6 8 = r.flags.toNat := by
  have htotal : 8 ≤ r.total - recordTrailerLen := by
    unfold total recordHeaderLen recordTrailerLen
    omega
  rw [num, slice_bytes crc h (by omega) htotal]
  unfold body
  simp only [append_assoc]
  rw [slice_append_right (by simp), length_le, slice_append_self (by simp),
    val_le r.flags.toNat_lt]

theorem slice_headerExtra (h : r.headerExtra.length = 8) :
    slice ((record r).bytes crc) 8 recordHeaderLen = r.headerExtra := by
  have htotal : recordHeaderLen ≤ r.total - recordTrailerLen := by
    unfold total recordHeaderLen recordTrailerLen
    omega
  rw [slice_bytes crc h (by omega) htotal]
  unfold body recordHeaderLen
  simp only [append_assoc]
  rw [slice_append_right (by simp), length_le, slice_append_right (by simp),
    length_le]
  exact slice_append_self h

theorem slice_payload (h : r.headerExtra.length = 8) :
    slice ((record r).bytes crc) recordHeaderLen (r.total - recordTrailerLen) = r.payload := by
  rw [slice_bytes crc h (by unfold recordHeaderLen; omega) le_rfl]
  unfold body
  have hlen : (le 2 r.msgType.toNat ++ le 2 r.flags.toNat ++ r.headerExtra).length = 12 := by
    simp [h]
  rw [slice_append_right (by rw [hlen]; unfold recordHeaderLen; omega), hlen]
  have hi : recordHeaderLen - 4 - 12 = 0 := rfl
  have hj : r.total - recordTrailerLen - 4 - 12 = r.payload.length := by
    unfold total recordHeaderLen recordTrailerLen
    omega
  rw [hi, hj]
  exact Bytes.slice_all rfl

end Record

/-- What a reader does with the first `n` bytes of a record. -/
theorem tryReadRecordAt_record {r : RingRecord} (h : (record r).Ok) {n : ℕ} (hn : n ≤ r.total)
    (again : Bytes) : tryReadRecordAt crc (((record r).bytes crc).take n) again =
      if n < r.total then .copy
      else if again.length < r.body.length then .recopy
      else if (crc r.body).toNat = (crc again).toNat then .done (record r).raw
      else .done .badCrc := by
  obtain ⟨hextra, hword, htype⟩ := h
  have hbytes := length_bytes_record crc hextra
  have hlen : (((record r).bytes crc).take n).length = n := by
    rw [length_take]
    omega
  have htotal : recordHeaderLen + recordTrailerLen ≤ r.total := by
    unfold total
    omega
  have hheader : recordHeaderLen = 16 := rfl
  have hbody : r.total - recordTrailerLen - 4 = r.body.length := by
    rw [length_body hextra]
    unfold total
    omega
  unfold tryReadRecordAt
  rw [hlen]
  by_cases h4 : n < 4
  · rw [if_pos h4, if_pos (by omega)]
  rw [if_neg h4, num_take (by omega), num_length crc hword, if_neg (by omega)]
  by_cases h6 : n < 6
  · rw [if_pos h6, if_pos (by omega)]
  rw [if_neg h6, num_take (by omega), num_msgType crc hextra, if_neg htype]
  by_cases h16 : n < recordHeaderLen
  · rw [if_pos h16, if_pos (by omega)]
  rw [if_neg h16, if_neg (by omega)]
  by_cases hall : n < r.total
  · rw [if_pos hall, if_pos hall]
  have htake : ((record r).bytes crc).take n = (record r).bytes crc := take_of_length_le (by omega)
  rw [if_neg hall, if_neg hall, htake, hbody, num_crc crc hextra, num_flags crc hextra,
    slice_headerExtra crc hextra, slice_payload crc hextra, UInt16.ofNat_toNat, UInt16.ofNat_toNat]
  rfl

theorem tryReadRecordAt_padding {len : ℕ} (h : (padding len).Ok) {n : ℕ} (hn : n ≤ 6)
    (again : Bytes) : tryReadRecordAt crc (((padding len).bytes crc).take n) again =
      if n < 6 then .copy else .done (padding len).raw := by
  obtain ⟨hle, hword, -⟩ := h
  have hbytes := length_bytes_padding crc len
  have hlen : (((padding len).bytes crc).take n).length = n := by
    rw [length_take]
    omega
  have hpos : 8 ≤ len := hle
  have hnum : num ((padding len).bytes crc) 0 4 = len := by
    dsimp only [bytes]
    rw [Bytes.num_append_left (by simp), num_le (by simpa using hword)]
  have htype : num ((padding len).bytes crc) 4 6 = paddingMsgType :=
    Bytes.num_append_le (by simp) rfl (by decide)
  unfold tryReadRecordAt
  rw [hlen]
  by_cases h4 : n < 4
  · rw [if_pos h4, if_pos (by omega)]
  rw [if_neg h4, num_take (by omega), hnum, if_neg (by omega)]
  by_cases h6 : n < 6
  · rw [if_pos h6, if_pos h6]
  rw [if_neg h6, if_neg h6, num_take (by omega), if_pos htype]
  rfl

theorem tryReadRecordAt_bytes_ne (h : e.Ok) (again : Bytes) :
    tryReadRecordAt crc (e.bytes crc) again ≠ .copy := by
  cases e with
  | record r =>
    have hlen := length_bytes_record crc h.1
    have hread := tryReadRecordAt_record crc h le_rfl again
    rw [take_of_length_le hlen.le, if_neg (lt_irrefl _)] at hread
    rw [hread]
    split_ifs <;> simp
  | padding len =>
    have hlen := length_bytes_padding crc len
    have hread := tryReadRecordAt_padding crc h le_rfl again
    rw [take_of_length_le hlen.le, if_neg (lt_irrefl _)] at hread
    rw [hread]
    simp

theorem tryReadRecordAt_take (h : e.Ok) {n : ℕ} (hn : n < (e.bytes crc).length) (again : Bytes) :
    tryReadRecordAt crc ((e.bytes crc).take n) again = .copy := by
  cases e with
  | record r =>
    rw [length_bytes_record crc h.1] at hn
    rw [tryReadRecordAt_record crc h hn.le, if_pos hn]
  | padding len =>
    rw [length_bytes_padding] at hn
    rw [tryReadRecordAt_padding crc h hn.le, if_pos hn]

end RingEntry

/-! ## A copy that grows -/

section Copy

variable (crc : Bytes → UInt32)

/-- Every byte was asked for. -/
structure Asked (out again : Bytes) : Prop where
  first : ∀ k < out.length, tryReadRecordAt crc (out.take k) [] = .copy
  second : ∀ k < again.length, tryReadRecordAt crc out (again.take k) = .recopy

variable {out again : Bytes}

theorem tryReadRecordAt_copy (h : tryReadRecordAt crc out again = .copy) (again' : Bytes) :
    tryReadRecordAt crc out again' = .copy := by
  unfold tryReadRecordAt at h ⊢
  dsimp only at h ⊢
  split_ifs at h
  all_goals simp only [*, if_true, if_false]

theorem Asked.copy (h : Asked crc out again) (hnext : tryReadRecordAt crc out again = .copy)
    (b : UInt8) : Asked crc (out ++ [b]) again where
  first k hk := by
    rw [length_append, List.length_singleton] at hk
    rw [List.take_append_of_le_length (by omega)]
    rcases Nat.lt_succ_iff_lt_or_eq.mp hk with hlt | rfl
    · exact h.first k hlt
    · rw [take_length]
      exact tryReadRecordAt_copy crc hnext []
  second k hk := by
    -- the crc has read nothing yet
    have hzero := h.second 0 (by omega)
    rw [List.take_zero, tryReadRecordAt_copy crc hnext []] at hzero
    cases hzero

theorem Asked.recopy (h : Asked crc out again) (hnext : tryReadRecordAt crc out again = .recopy)
    (b : UInt8) : Asked crc out (again ++ [b]) where
  first := h.first
  second k hk := by
    rw [length_append, List.length_singleton] at hk
    rw [List.take_append_of_le_length (by omega)]
    rcases Nat.lt_succ_iff_lt_or_eq.mp hk with hlt | rfl
    · exact h.second k hlt
    · rw [take_length]
      exact hnext

theorem Asked.raw_eq {e : RingEntry} {raw : RawRead} (hask : Asked crc out again) (he : e.Ok)
    (hout : ∀ i < (e.bytes crc).length, ∀ b, out[i]? = some b → (e.bytes crc)[i]? = some b)
    (hagain : ∀ i, 4 + i < (e.bytes crc).length → ∀ b, again[i]? = some b →
      (e.bytes crc)[4 + i]? = some b) (hdone : tryReadRecordAt crc out again = .done raw) :
    raw = e.raw := by
  -- the copy is a part of the entry
  have hpart : ∀ n ≤ out.length, n ≤ (e.bytes crc).length → out.take n = (e.bytes crc).take n := by
    intro n hn hn'
    refine List.ext_getElem? fun i => ?_
    rw [List.getElem?_take, List.getElem?_take]
    split_ifs with hi
    · have hlt : i < out.length := by omega
      rw [List.getElem?_eq_getElem hlt]
      exact (hout i (by omega) _ (List.getElem?_eq_getElem hlt)).symm
    · rfl
  have hle : out.length ≤ (e.bytes crc).length := by
    by_contra hgt
    have hcopy := hask.first (e.bytes crc).length (by omega)
    rw [hpart _ (by omega) le_rfl, take_length] at hcopy
    exact e.tryReadRecordAt_bytes_ne crc he [] hcopy
  have hall : out = e.bytes crc := by
    have htake := hpart out.length le_rfl hle
    rw [take_length] at htake
    by_contra hne
    have hlt : out.length < (e.bytes crc).length := by
      rcases hle.lt_or_eq with hlt | heq
      · exact hlt
      · rw [heq, take_length] at htake
        exact absurd htake hne
    rw [htake, e.tryReadRecordAt_take crc he hlt] at hdone
    cases hdone
  subst hall
  cases e with
  | padding len =>
    have hlen := RingEntry.length_bytes_padding crc len
    have hread := RingEntry.tryReadRecordAt_padding crc he le_rfl again
    rw [take_of_length_le hlen.le, if_neg (lt_irrefl _), hdone] at hread
    exact ReadNext.done.inj hread
  | record r =>
    have hlen := RingEntry.length_bytes_record crc he.1
    have hread : ∀ again', tryReadRecordAt crc ((RingEntry.record r).bytes crc) again' =
        if again'.length < r.body.length then .recopy
        else if (crc r.body).toNat = (crc again').toNat then .done (RingEntry.record r).raw
        else .done .badCrc := by
      intro again'
      have h := RingEntry.tryReadRecordAt_record crc he le_rfl again'
      rwa [take_of_length_le hlen.le, if_neg (lt_irrefl _)] at h
    have hge : r.body.length ≤ again.length := by
      by_contra hlt
      rw [hread, if_pos (not_le.mp hlt)] at hdone
      cases hdone
    have hle' : again.length ≤ r.body.length := by
      by_contra hgt
      have hrecopy := hask.second r.body.length (by omega)
      rw [hread, if_neg (by rw [length_take]; omega)] at hrecopy
      split_ifs at hrecopy
    have hbody : again = r.body := by
      refine List.ext_getElem (by omega) fun i hi hi' => ?_
      have hbound : 4 + i < ((RingEntry.record r).bytes crc).length := by
        have := RingEntry.length_body he.1
        rw [hlen]
        unfold total recordHeaderLen
        omega
      have hget := hagain i hbound _ (List.getElem?_eq_getElem hi)
      dsimp only [RingEntry.bytes] at hget
      rw [List.getElem?_append_right (by simp), length_le, Nat.add_sub_cancel_left,
        List.getElem?_append_left hi', List.getElem?_eq_getElem hi'] at hget
      exact (Option.some.inj hget).symm
    rw [hread, hbody, if_neg (lt_irrefl _), if_pos rfl] at hdone
    exact (ReadNext.done.inj hdone).symm

end Copy

end UltimaCluster
