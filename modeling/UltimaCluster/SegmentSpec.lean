/-
  What a segment holds: scans and windowed reads return exactly the records
  that were appended to it.
-/
import UltimaCluster.Segment
import Mathlib.Data.List.Induction

namespace UltimaCluster

open JournalRecord (body total)
open List (append_assoc drop_left' mem_cons_self mem_of_getElem? replicate take_append_drop
  take_take)

open Bytes

/-- The fields hold the record. -/
structure JournalRecord.Fits (r : JournalRecord) : Prop where
  seq : r.seq < 2 ^ 64
  meta_ : r.meta_ < 2 ^ 64
  payload : 16 + r.payload.length < 2 ^ 32

/-- The bytes of a list of records. -/
def span (rs : List JournalRecord) : ℕ := (rs.map (·.total)).sum

@[simp] theorem span_nil : span [] = 0 := rfl

@[simp] theorem span_cons (r : JournalRecord) (rs : List JournalRecord) :
    span (r :: rs) = r.total + span rs := by simp [span]

@[simp] theorem span_append (rs rs' : List JournalRecord) :
    span (rs ++ rs') = span rs + span rs' := by simp [span]

theorem JournalRecord.total_pos (r : JournalRecord) : 24 ≤ r.total := by
  unfold total
  omega

section
variable (crc : Bytes → UInt32)

@[simp] theorem length_encodeRecord (r : JournalRecord) :
    (encodeRecord crc r).length = r.total := by
  simp [encodeRecord, body, total]
  omega

@[simp] theorem encodeAll_nil : encodeAll crc [] = [] := rfl

@[simp] theorem encodeAll_cons (r : JournalRecord) (rs : List JournalRecord) :
    encodeAll crc (r :: rs) = encodeRecord crc r ++ encodeAll crc rs := rfl

@[simp] theorem encodeAll_append (rs rs' : List JournalRecord) :
    encodeAll crc (rs ++ rs') = encodeAll crc rs ++ encodeAll crc rs' := by simp [encodeAll]

@[simp] theorem length_encodeAll (rs : List JournalRecord) :
    (encodeAll crc rs).length = span rs := by
  induction rs with
  | nil => rfl
  | cons r rs ih => simp [ih]

@[simp] theorem length_encodeHeader (baseSeq now : ℕ) :
    (encodeHeader crc baseSeq now).length = segmentHeaderSize := by
  simp [encodeHeader, segmentMagic, segmentHeaderSize]

/-! ## Decoding -/

variable {r : JournalRecord}

theorem decodeRecord_encodeRecord (h : r.Fits) (rest : Bytes) (off : ℕ) :
    decodeRecord crc (encodeRecord crc r ++ rest) off = .ok (some (r, r.total)) := by
  have hbody : r.body.length = 16 + r.payload.length := by simp [body]; omega
  have hlen : num (encodeRecord crc r ++ rest) 0 4 = 16 + r.payload.length := by
    unfold encodeRecord
    rw [num_append_left (by simp), num_append_left (by simp), num_append_left (by simp)]
    exact num_le h.payload
  have hslice : slice (encodeRecord crc r ++ rest) 4 (4 + (16 + r.payload.length)) = r.body := by
    unfold encodeRecord
    rw [append_assoc, append_assoc, slice_append_right (by simp)]
    simp only [length_le, Nat.sub_self, Nat.add_sub_cancel_left]
    exact slice_append_self hbody
  have hcrc : num (encodeRecord crc r ++ rest) (4 + (16 + r.payload.length))
      (4 + (16 + r.payload.length) + 4) = (crc r.body).toNat := by
    unfold encodeRecord
    rw [num_append_left (by simp [hbody]; omega)]
    exact num_append_le (by simp [hbody]) rfl (crc r.body).toNat_lt
  have hseq : num r.body 0 8 = r.seq := by
    unfold body
    rw [num_append_left (by simp), num_append_left (by simp)]
    exact num_le h.seq
  have hmeta : num r.body 8 16 = r.meta_ := by
    unfold body
    rw [num_append_left (by simp)]
    exact num_append_le (by simp) rfl h.meta_
  have hdrop : r.body.drop 16 = r.payload := by
    exact drop_left' (by simp)
  have htotal := r.total_pos
  unfold decodeRecord
  rw [if_neg (by simp; omega)]
  rw [hlen, if_neg (by omega), if_neg (by omega),
    if_neg (by simp only [List.length_append, length_encodeRecord, total]; omega),
    hslice, hcrc, if_neg (by simp), hseq, hmeta, hdrop]
  rfl

theorem decodeRecord_zeros (z off : ℕ) :
    decodeRecord crc (replicate z 0) off = .ok none := by
  unfold decodeRecord
  split
  · rfl
  · rename_i hz
    rw [List.length_replicate, not_lt] at hz
    have hnum : num (replicate z 0) 0 4 = 0 := by
      unfold num slice
      simp only [List.drop_zero, Nat.sub_zero, List.take_replicate, Nat.min_eq_left hz]
      rfl
    simp [hnum]

/-! ## The sparse index -/

open SegmentFile (indexRun)

/-- An entry is the start of a record. -/
def Marks (rs : List JournalRecord) (e : ℕ × ℕ) : Prop :=
  ∃ i r, rs[i]? = some r ∧ e = (r.seq, segmentHeaderSize + span (rs.take i))

theorem indexRun_append (index : List (ℕ × ℕ)) (off : ℕ) (rs rs' : List JournalRecord) :
    indexRun index off (rs ++ rs') = indexRun (indexRun index off rs) (off + span rs) rs' := by
  induction rs generalizing index off with
  | nil => simp [indexRun]
  | cons r rs ih => simp [indexRun, ih, Nat.add_assoc]

theorem pushIndex_cases (index : List (ℕ × ℕ)) (seq off : ℕ) :
    pushIndex index seq off = index ∧ index ≠ [] ∨ pushIndex index seq off = index ++ [(seq, off)] := by
  unfold pushIndex
  split
  · rename_i h
    rw [List.getLast?_eq_none_iff] at h
    exact .inr (by simp [h])
  · rename_i h
    have hne : index ≠ [] := by
      rintro rfl
      cases h
    split
    · exact .inr rfl
    · exact .inl ⟨rfl, hne⟩

theorem indexRun_eq (rs0 : List JournalRecord) (index : List (ℕ × ℕ)) (rs : List JournalRecord) :
    ∃ more, indexRun index (segmentHeaderSize + span rs0) rs = index ++ more ∧
      ∀ e ∈ more, ∃ i r, rs[i]? = some r ∧
        e = (r.seq, segmentHeaderSize + span rs0 + span (rs.take i)) := by
  induction rs generalizing rs0 index with
  | nil => exact ⟨[], by simp [indexRun]⟩
  | cons r rs ih =>
    obtain ⟨more, heq, hmore⟩ := ih (rs0 ++ [r]) (pushIndex index r.seq (segmentHeaderSize + span rs0))
    simp only [span_append, span_cons, span_nil, Nat.add_zero] at heq hmore
    have hlift : ∀ e ∈ more, ∃ i r', (r :: rs)[i]? = some r' ∧
        e = (r'.seq, segmentHeaderSize + span rs0 + span ((r :: rs).take i)) := by
      intro e he
      obtain ⟨i, r', hr', rfl⟩ := hmore e he
      exact ⟨i + 1, r', hr', by simp [Nat.add_assoc]⟩
    rcases pushIndex_cases index r.seq (segmentHeaderSize + span rs0) with ⟨hp, -⟩ | hp
    · refine ⟨more, ?_, hlift⟩
      rw [indexRun, Nat.add_assoc, heq, hp]
    · refine ⟨(r.seq, segmentHeaderSize + span rs0) :: more, ?_, ?_⟩
      · rw [indexRun, Nat.add_assoc, heq, hp, append_assoc]
        rfl
      · intro e he
        rcases List.mem_cons.mp he with rfl | he
        · exact ⟨0, r, rfl, by simp⟩
        · exact hlift e he

theorem index_marks {rs : List JournalRecord} {e : ℕ × ℕ}
    (he : e ∈ indexRun [] segmentHeaderSize rs) : Marks rs e := by
  obtain ⟨more, heq, hmore⟩ := indexRun_eq [] [] rs
  simp only [span_nil, Nat.add_zero, List.nil_append] at heq hmore
  rw [heq] at he
  exact hmore e he

theorem index_eq_nil {rs : List JournalRecord} :
    indexRun [] segmentHeaderSize rs = [] ↔ rs = [] := by
  cases rs with
  | nil => simp [indexRun]
  | cons r rs =>
    obtain ⟨more, heq, -⟩ := indexRun_eq [r] [(r.seq, segmentHeaderSize)] rs
    simp only [span_cons, span_nil, Nat.add_zero] at heq
    simp [indexRun, pushIndex, heq]

theorem span_take_lt {rs : List JournalRecord} {i j : ℕ} (hij : i < j) (hj : i < rs.length) :
    span (rs.take i) < span (rs.take j) := by
  induction rs generalizing i j with
  | nil => cases hj
  | cons r rs ih =>
    obtain ⟨j, rfl⟩ := Nat.exists_eq_add_of_lt hij
    have hr := r.total_pos
    cases i with
    | zero => simp; omega
    | succ i =>
      have := ih (show i < i + j + 1 by omega) (by simpa using hj)
      rw [show i + 1 + j + 1 = (i + j + 1) + 1 by omega]
      simpa using this

theorem index_sorted (rs : List JournalRecord) (hrs : rs.Pairwise (·.seq < ·.seq)) :
    (indexRun [] segmentHeaderSize rs).Pairwise fun e e' => e.1 < e'.1 := by
  induction rs using List.reverseRecOn with
  | nil => exact List.Pairwise.nil
  | append_singleton rs r ih =>
    obtain ⟨hpre, -, hlast⟩ := List.pairwise_append.mp hrs
    rw [indexRun_append]
    simp only [indexRun]
    rcases pushIndex_cases (indexRun [] segmentHeaderSize rs) r.seq (segmentHeaderSize + span rs)
      with ⟨hp, -⟩ | hp
    · rw [hp]
      exact ih hpre
    · rw [hp, List.pairwise_append]
      refine ⟨ih hpre, List.pairwise_singleton _ _, fun e he e' he' => ?_⟩
      obtain ⟨i, r', hr', rfl⟩ := index_marks he
      rw [List.mem_singleton.mp he']
      exact hlast r' (mem_of_getElem? hr') r (List.mem_singleton.mpr rfl)

theorem index_filter (rs rs' : List JournalRecord) :
    (indexRun [] segmentHeaderSize (rs ++ rs')).filter
        (fun e => e.2 < segmentHeaderSize + span rs) = indexRun [] segmentHeaderSize rs := by
  rw [indexRun_append]
  obtain ⟨more, heq, hmore⟩ := indexRun_eq rs (indexRun [] segmentHeaderSize rs) rs'
  rw [heq, List.filter_append]
  have hold : ∀ e ∈ indexRun [] segmentHeaderSize rs, e.2 < segmentHeaderSize + span rs := by
    intro e he
    obtain ⟨i, r, hr, rfl⟩ := index_marks he
    have hlt := (List.getElem?_eq_some_iff.mp hr).1
    have := span_take_lt hlt hlt
    rw [List.take_length] at this
    omega
  have hnew : more.filter (fun e => e.2 < segmentHeaderSize + span rs) = [] := by
    rw [List.filter_eq_nil_iff]
    intro e he
    obtain ⟨i, r, -, rfl⟩ := hmore e he
    simp
  rw [hnew, List.append_nil, List.filter_eq_self]
  simpa using hold

/-! ## Scans -/

theorem scanLoop_encodeAll {onError : Bytes → ScanResult → JournalError → Except JournalError ScanResult}
    {rs : List JournalRecord} (h : ∀ r ∈ rs, r.Fits) (fuel : ℕ) (tail : Bytes)
    (recs : List JournalRecord) (off : ℕ) (index : List (ℕ × ℕ)) :
    scanLoop crc onError (rs.length + fuel) (encodeAll crc rs ++ tail) ⟨recs, off, false, index⟩ =
      scanLoop crc onError fuel tail ⟨recs ++ rs, off + span rs, false, indexRun index off rs⟩ := by
  induction rs generalizing recs off index with
  | nil => simp [indexRun]
  | cons r rs ih =>
    have hr := h r mem_cons_self
    rw [show (r :: rs).length + fuel = (rs.length + fuel) + 1 by simp; omega]
    have hstep : ∀ acc, scanLoop crc onError ((rs.length + fuel) + 1)
        (encodeRecord crc r ++ (encodeAll crc rs ++ tail)) acc =
        scanLoop crc onError (rs.length + fuel) (encodeAll crc rs ++ tail)
          ⟨acc.records ++ [r], acc.lastDurableOffset + r.total, false,
            pushIndex acc.index r.seq acc.lastDurableOffset⟩ := by
      intro acc
      rw [scanLoop, decodeRecord_encodeRecord crc hr]
      dsimp only
      rw [drop_left' (length_encodeRecord crc r)]
    rw [encodeAll_cons, append_assoc, hstep, ih fun r' hr' => h r' (List.mem_cons_of_mem _ hr')]
    simp [indexRun, Nat.add_assoc]

theorem length_le_span (rs : List JournalRecord) : rs.length ≤ span rs := by
  induction rs with
  | nil => rfl
  | cons r rs ih =>
    have := r.total_pos
    simp
    omega

/-- A segment file holds the records: a header, the records and zeros. -/
structure SegOk (s : SegmentFile) (rs : List JournalRecord) : Prop where
  fits : ∀ r ∈ rs, r.Fits
  sorted : rs.Pairwise (·.seq < ·.seq)
  bytes : ∃ hdr z, hdr.length = segmentHeaderSize ∧
    s.bytes = hdr ++ encodeAll crc rs ++ List.replicate z 0
  size : s.size = segmentHeaderSize + span rs
  index : s.index = indexRun [] segmentHeaderSize rs

variable {crc} {s : SegmentFile} {rs : List JournalRecord}

theorem SegOk.scan (h : SegOk crc s rs) : ∃ torn, s.scan crc =
    .ok ⟨rs, segmentHeaderSize + span rs, torn, indexRun [] segmentHeaderSize rs⟩ := by
  obtain ⟨hdr, z, hhdr, hbytes⟩ := h.bytes
  unfold SegmentFile.scan scanBytes
  rw [hbytes, append_assoc, drop_left' hhdr]
  have hfuel : (encodeAll crc rs ++ replicate z (0 : UInt8)).length + 1 =
      rs.length + ((span rs + z - rs.length) + 1) := by
    have := length_le_span rs
    simp
    omega
  dsimp only
  rw [hfuel, scanStart, scanLoop_encodeAll crc h.fits, scanLoop, decodeRecord_zeros]
  exact ⟨_, rfl⟩

/-! ## Windowed reads -/

theorem slice_encodeAll (h : SegOk crc s rs) (i j : ℕ) :
    slice s.bytes (segmentHeaderSize + span (rs.take i)) (segmentHeaderSize + span (rs.take j)) =
      encodeAll crc ((rs.take j).drop i) := by
  obtain ⟨hdr, z, hhdr, hbytes⟩ := h.bytes
  rw [hbytes]
  by_cases hij : i ≤ j
  · have hpre : rs.take i ++ (rs.take j).drop i = rs.take j := by
      have := take_append_drop i (rs.take j)
      rwa [take_take, Nat.min_eq_left hij] at this
    have henc : encodeAll crc rs = encodeAll crc (rs.take i) ++
        (encodeAll crc ((rs.take j).drop i) ++ encodeAll crc (rs.drop j)) := by
      rw [← encodeAll_append, ← encodeAll_append, ← append_assoc, hpre, take_append_drop]
    have hfile : hdr ++ encodeAll crc rs ++ replicate z 0 =
        (hdr ++ encodeAll crc (rs.take i)) ++ (encodeAll crc ((rs.take j).drop i) ++
          (encodeAll crc (rs.drop j) ++ replicate z 0)) := by
      rw [henc]
      simp
    have hspan : span (rs.take j) = span (rs.take i) + span ((rs.take j).drop i) := by
      rw [← span_append, hpre]
    rw [hfile, slice_append_right (by simp [hhdr]), hspan]
    simp only [List.length_append, hhdr, length_encodeAll, Nat.sub_self, ← Nat.add_assoc,
      Nat.add_sub_cancel_left]
    exact slice_append_self (by simp)
  · have hnil : (rs.take j).drop i = [] := by
      rw [List.drop_eq_nil_iff]
      simp
      omega
    have hle : span (rs.take j) ≤ span (rs.take i) := by
      rw [← take_append_drop j (rs.take i), take_take, Nat.min_eq_left (by omega)]
      simp
    unfold slice
    rw [hnil, Nat.sub_eq_zero_of_le (by omega)]
    rfl

/-- The record of a sequence. -/
def lookup (rs : List JournalRecord) (seq : ℕ) : Option (ℕ × Bytes) :=
  (rs.find? (·.seq = seq)).map fun r => (r.meta_, r.payload)

/-- The records between two sequences. -/
def between (lo hi : ℕ) (rs : List JournalRecord) : List JournalRecord :=
  rs.filter fun r => lo ≤ r.seq ∧ r.seq ≤ hi

theorem between_append (lo hi : ℕ) (rs rs' : List JournalRecord) :
    between lo hi (rs ++ rs') = between lo hi rs ++ between lo hi rs' := List.filter_append ..

theorem between_eq_nil {lo hi : ℕ} {rs : List JournalRecord}
    (h : ∀ r ∈ rs, r.seq < lo ∨ hi < r.seq) : between lo hi rs = [] := by
  unfold between
  rw [List.filter_eq_nil_iff]
  intro r hr
  have := h r hr
  simp
  omega

open SegmentFile (findSeq findLoop windowSeq windowLoop partitionPoint)

theorem findSeq_eq (hs : rs.Pairwise (·.seq < ·.seq)) (seq : ℕ) : findSeq seq rs = lookup rs seq := by
  induction rs with
  | nil => rfl
  | cons r rs ih =>
    obtain ⟨hr, hrest⟩ := List.pairwise_cons.mp hs
    unfold findSeq lookup
    by_cases h1 : r.seq = seq
    · simp [h1]
    · rw [if_neg h1, List.find?_cons_of_neg (by simpa using h1)]
      split
      · have hnone : rs.find? (·.seq = seq) = none := by
          rw [List.find?_eq_none]
          intro r' hr'
          have := hr r' hr'
          simp
          omega
        rw [hnone]
        rfl
      · exact ih hrest

theorem windowSeq_eq (hs : rs.Pairwise (·.seq < ·.seq)) (lo hi : ℕ) :
    windowSeq lo hi rs = between lo hi rs := by
  induction rs with
  | nil => rfl
  | cons r rs ih =>
    obtain ⟨hr, hrest⟩ := List.pairwise_cons.mp hs
    unfold windowSeq
    split
    · rename_i h1
      refine (between_eq_nil fun r' hr' => ?_).symm
      rcases List.mem_cons.mp hr' with rfl | hr'
      · exact .inr h1
      · exact .inr (h1.trans (hr r' hr'))
    · split
      · unfold between
        rw [List.filter_cons_of_pos (by simp; omega), ih hrest]
        rfl
      · unfold between
        rw [List.filter_cons_of_neg (by simp; omega), ih hrest]
        rfl

theorem findLoop_encodeAll {xs : List JournalRecord} (h : ∀ r ∈ xs, r.Fits) (seq fuel off : ℕ)
    (hfuel : xs.length < fuel) :
    findLoop crc seq fuel (encodeAll crc xs) off = .ok (findSeq seq xs) := by
  induction xs generalizing fuel off with
  | nil =>
    obtain ⟨fuel, rfl⟩ := Nat.exists_eq_add_of_lt hfuel
    rfl
  | cons r xs ih =>
    obtain ⟨fuel, rfl⟩ := Nat.exists_eq_add_of_lt hfuel
    have hne : encodeAll crc (r :: xs) ≠ [] := by
      rw [← List.length_pos_iff]
      have := r.total_pos
      simp
      omega
    have hr := h r mem_cons_self
    rw [findLoop, if_neg hne, encodeAll_cons, decodeRecord_encodeRecord crc hr]
    dsimp only
    unfold findSeq
    split
    · rfl
    · split
      · rfl
      · rw [drop_left' (length_encodeRecord crc r)]
        exact ih (fun r' hr' => h r' (List.mem_cons_of_mem _ hr')) _ _ (by simp; omega)

theorem windowLoop_encodeAll {xs : List JournalRecord} (h : ∀ r ∈ xs, r.Fits) (lo hi fuel off : ℕ)
    (hfuel : xs.length < fuel) :
    windowLoop crc lo hi fuel (encodeAll crc xs) off = .ok (windowSeq lo hi xs) := by
  induction xs generalizing fuel off with
  | nil =>
    obtain ⟨fuel, rfl⟩ := Nat.exists_eq_add_of_lt hfuel
    rfl
  | cons r xs ih =>
    obtain ⟨fuel, rfl⟩ := Nat.exists_eq_add_of_lt hfuel
    have hne : encodeAll crc (r :: xs) ≠ [] := by
      rw [← List.length_pos_iff]
      have := r.total_pos
      simp
      omega
    have hr := h r mem_cons_self
    rw [windowLoop, if_neg hne, encodeAll_cons, decodeRecord_encodeRecord crc hr]
    dsimp only
    unfold windowSeq
    split
    · rfl
    · rw [drop_left' (length_encodeRecord crc r),
        ih (fun r' hr' => h r' (List.mem_cons_of_mem _ hr')) _ _ (by simp; omega)]
      split <;> rfl

/-- Up to the partition point the entries are at most `seq`, from there on they
    are above it. -/
theorem partitionPoint_spec {index : List (ℕ × ℕ)} (hs : index.Pairwise fun e e' => e.1 < e'.1)
    (seq : ℕ) :
    (∀ i e, i < partitionPoint index seq → index[i]? = some e → e.1 ≤ seq) ∧
    (∀ i e, partitionPoint index seq ≤ i → index[i]? = some e → seq < e.1) ∧
    partitionPoint index seq ≤ index.length := by
  unfold partitionPoint
  induction index with
  | nil => simp
  | cons e index ih =>
    obtain ⟨he, hrest⟩ := List.pairwise_cons.mp hs
    obtain ⟨h1, h2, h3⟩ := ih hrest
    by_cases hle : e.1 ≤ seq
    · rw [List.takeWhile_cons_of_pos (by simpa using hle), List.length_cons]
      refine ⟨fun i e' hi he' => ?_, fun i e' hi he' => ?_, by simpa using h3⟩
      · cases i with
        | zero =>
          cases he'
          exact hle
        | succ i => exact h1 i e' (by omega) he'
      · cases i with
        | zero => omega
        | succ i => exact h2 i e' (by omega) he'
    · rw [List.takeWhile_cons_of_neg (by simpa using hle), List.length_nil]
      refine ⟨fun i e' hi _ => absurd hi (Nat.not_lt_zero i), fun i e' _ he' => ?_, Nat.zero_le _⟩
      cases i with
      | zero =>
        cases he'
        omega
      | succ i =>
        have := he e' (mem_of_getElem? he')
        omega

theorem index_head (r : JournalRecord) (rs : List JournalRecord) :
    (indexRun [] segmentHeaderSize (r :: rs))[0]? = some (r.seq, segmentHeaderSize) := by
  obtain ⟨more, heq, -⟩ := indexRun_eq [r] [(r.seq, segmentHeaderSize)] rs
  simp only [span_cons, span_nil, Nat.add_zero] at heq
  simp [indexRun, pushIndex, heq]

theorem seq_lt_of_take {i : ℕ} (hs : rs.Pairwise (·.seq < ·.seq)) (hr : rs[i]? = some r) :
    ∀ x ∈ rs.take i, x.seq < r.seq := by
  obtain ⟨hi, rfl⟩ := List.getElem?_eq_some_iff.mp hr
  rw [← take_append_drop i rs] at hs
  intro x hx
  refine (List.pairwise_append.mp hs).2.2 x hx _ ?_
  rw [List.drop_eq_getElem_cons hi]
  exact mem_cons_self

theorem seq_le_of_drop {i : ℕ} (hs : rs.Pairwise (·.seq < ·.seq)) (hr : rs[i]? = some r) :
    ∀ x ∈ rs.drop i, r.seq ≤ x.seq := by
  obtain ⟨hi, rfl⟩ := List.getElem?_eq_some_iff.mp hr
  have hd := hs.sublist (List.drop_sublist i rs)
  rw [List.drop_eq_getElem_cons hi] at hd ⊢
  intro x hx
  rcases List.mem_cons.mp hx with rfl | hx
  · exact le_rfl
  · exact ((List.pairwise_cons.mp hd).1 x hx).le

/-- A window ends before the first indexed record above `seq`. -/
theorem SegOk.stop (h : SegOk crc s rs) (seq : ℕ) :
    ∃ j, ((s.index[partitionPoint s.index seq]?).map Prod.snd).getD s.size =
      segmentHeaderSize + span (rs.take j) ∧ ∀ r ∈ rs.drop j, seq < r.seq := by
  rw [h.index]
  obtain ⟨-, habove, -⟩ := partitionPoint_spec (index_sorted rs h.sorted) seq
  cases he : (indexRun [] segmentHeaderSize rs)[partitionPoint
      (indexRun [] segmentHeaderSize rs) seq]? with
  | none => exact ⟨rs.length, by simp [h.size], by simp⟩
  | some e =>
    have hlt := habove _ e le_rfl he
    obtain ⟨j, r, hr, rfl⟩ := index_marks (mem_of_getElem? he)
    exact ⟨j, rfl, fun x hx => hlt.trans_le (seq_le_of_drop h.sorted hr x hx)⟩

/-- A window starts at an indexed record up to `seq`, or at the first one. -/
theorem SegOk.start (h : SegOk crc s rs) (hne : rs ≠ []) (seq : ℕ) :
    ∃ i, ((s.index[partitionPoint s.index seq - 1]?).map Prod.snd).getD s.size =
      segmentHeaderSize + span (rs.take i) ∧ ∀ r ∈ rs.take i, r.seq < seq := by
  rw [h.index]
  obtain ⟨hbelow, -, hlen⟩ := partitionPoint_spec (index_sorted rs h.sorted) seq
  generalize hp : partitionPoint (indexRun [] segmentHeaderSize rs) seq = p at *
  cases p with
  | zero =>
    obtain ⟨r, rest, rfl⟩ := List.exists_cons_of_ne_nil hne
    refine ⟨0, ?_, by simp⟩
    rw [Nat.zero_sub, index_head]
    simp
  | succ p =>
    obtain ⟨e, he⟩ : ∃ e, (indexRun [] segmentHeaderSize rs)[p]? = some e :=
      ⟨_, List.getElem?_eq_getElem (by omega)⟩
    have hle := hbelow p e (Nat.lt_succ_self p) he
    obtain ⟨i, r, hr, rfl⟩ := index_marks (mem_of_getElem? he)
    rw [Nat.add_sub_cancel, he]
    exact ⟨i, rfl, fun x hx => (seq_lt_of_take h.sorted hr x hx).trans_le hle⟩

theorem between_window {lo hi i j : ℕ} (hi' : ∀ r ∈ rs.take i, r.seq < lo)
    (hj : ∀ r ∈ rs.drop j, hi < r.seq) :
    between lo hi rs = between lo hi ((rs.take j).drop i) := by
  have hright : between lo hi rs = between lo hi (rs.take j) := by
    conv_lhs => rw [← take_append_drop j rs]
    rw [between_append, between_eq_nil fun r hr => .inr (hj r hr), List.append_nil]
  have hleft : between lo hi (rs.take j) = between lo hi ((rs.take j).drop i) := by
    conv_lhs => rw [← take_append_drop i (rs.take j)]
    rw [between_append, between_eq_nil, List.nil_append]
    intro r hr
    rw [take_take] at hr
    exact .inl (hi' r (List.take_subset_take_left rs (Nat.min_le_left i j) hr))
  rw [hright, hleft]

theorem lookup_eq (rs : List JournalRecord) (seq : ℕ) :
    lookup rs seq = (between seq seq rs).head?.map fun r => (r.meta_, r.payload) := by
  unfold lookup between
  rw [List.head?_filter]
  congr 2
  funext r
  simp only [decide_eq_decide]
  omega

theorem SegOk.window_fits (h : SegOk crc s rs) (i j : ℕ) :
    (∀ r ∈ (rs.take j).drop i, r.Fits) ∧ ((rs.take j).drop i).Pairwise (·.seq < ·.seq) := by
  have hsub : ((rs.take j).drop i).Sublist rs :=
    (List.drop_sublist _ _).trans (List.take_sublist _ _)
  exact ⟨fun r hr => h.fits r (hsub.subset hr), h.sorted.sublist hsub⟩

theorem SegOk.readWindow (h : SegOk crc s rs) (lo hi : ℕ) :
    s.readWindow crc lo hi = .ok (between lo hi rs) := by
  unfold SegmentFile.readWindow
  split
  · obtain ⟨torn, hscan⟩ := h.scan
    rw [hscan]
    exact congrArg Except.ok (windowSeq_eq h.sorted lo hi)
  · rename_i hidx
    have hne : rs ≠ [] := fun hnil => hidx (by rw [h.index, index_eq_nil.mpr hnil])
    obtain ⟨i, hstart, hi'⟩ := h.start hne lo
    obtain ⟨j, hstop, hj⟩ := h.stop hi
    dsimp only
    rw [hstart, hstop, slice_encodeAll h, between_window hi' hj]
    split
    · have hnil : (rs.take j).drop i = [] := by
        by_contra hne
        have hlt : i < (rs.take j).length := by
          by_contra hge
          exact hne (List.drop_eq_nil_iff.mpr (not_lt.mp hge))
        rw [List.length_take] at hlt
        have := span_take_lt (show i < j by omega) (show i < rs.length by omega)
        omega
      rw [hnil]
      rfl
    · obtain ⟨hfits, hsort⟩ := h.window_fits i j
      rw [windowLoop_encodeAll hfits, windowSeq_eq hsort]
      have := length_le_span ((rs.take j).drop i)
      simp only [length_encodeAll]
      omega

theorem SegOk.readRecord (h : SegOk crc s rs) (seq : ℕ) :
    s.readRecord crc seq = .ok (lookup rs seq) := by
  unfold SegmentFile.readRecord
  split
  · obtain ⟨torn, hscan⟩ := h.scan
    rw [hscan]
    exact congrArg Except.ok (findSeq_eq h.sorted seq)
  · rename_i hidx
    have hne : rs ≠ [] := fun hnil => hidx (by rw [h.index, index_eq_nil.mpr hnil])
    obtain ⟨i, hstart, hi'⟩ := h.start hne seq
    obtain ⟨j, hstop, hj⟩ := h.stop seq
    dsimp only
    rw [hstart, hstop, slice_encodeAll h]
    split
    · rename_i hp
      -- the first record is indexed, so all are above `seq`
      obtain ⟨r, rest, rfl⟩ := List.exists_cons_of_ne_nil hne
      have habove := (partitionPoint_spec (index_sorted _ h.sorted) seq).2.1 0 _
        (by rw [← h.index, hp]) (index_head r rest)
      have hnone : between seq seq (r :: rest) = [] := by
        refine between_eq_nil fun x hx => .inr (habove.trans_le ?_)
        exact seq_le_of_drop h.sorted (i := 0) rfl x hx
      rw [lookup_eq, hnone]
      rfl
    · obtain ⟨hfits, hsort⟩ := h.window_fits i j
      rw [findLoop_encodeAll hfits, findSeq_eq hsort, lookup_eq, lookup_eq, between_window hi' hj]
      have := length_le_span ((rs.take j).drop i)
      simp only [length_encodeAll]
      omega

/-! ## Appends and truncation -/

theorem SegOk.appendRecords (h : SegOk crc s rs) {run : List JournalRecord}
    (hfits : ∀ r ∈ run, r.Fits) (hsort : (rs ++ run).Pairwise (·.seq < ·.seq)) :
    SegOk crc (s.appendRecords crc run) (rs ++ run) where
  fits r hr := (List.mem_append.mp hr).elim (h.fits r) (hfits r)
  sorted := hsort
  bytes := by
    obtain ⟨hdr, z, hhdr, hbytes⟩ := h.bytes
    refine ⟨hdr, z - span run, hhdr, ?_⟩
    have hfront : (hdr ++ encodeAll crc rs).length = s.size := by simp [hhdr, h.size]
    simp only [SegmentFile.appendRecords]
    rw [hbytes, ← hfront, List.take_left' rfl, ← List.drop_drop, drop_left' rfl]
    simp
  size := by simp [SegmentFile.appendRecords, h.size, Nat.add_assoc]
  index := by simp [SegmentFile.appendRecords, h.index, h.size, indexRun_append]

theorem SegOk.truncate {kept dropped : List JournalRecord} (h : SegOk crc s (kept ++ dropped)) :
    SegOk crc (s.truncate (segmentHeaderSize + span kept)) kept where
  fits r hr := h.fits r (List.mem_append_left _ hr)
  sorted := (List.pairwise_append.mp h.sorted).1
  bytes := by
    obtain ⟨hdr, z, hhdr, hbytes⟩ := h.bytes
    refine ⟨hdr, 0, hhdr, ?_⟩
    have hfront : (hdr ++ encodeAll crc kept).length = segmentHeaderSize + span kept := by
      simp [hhdr]
    have hlen : segmentHeaderSize + span kept ≤ s.bytes.length := by
      rw [hbytes]
      simp [hhdr]
    simp only [SegmentFile.truncate]
    rw [Nat.sub_eq_zero_of_le hlen, hbytes, encodeAll_append]
    rw [show hdr ++ (encodeAll crc kept ++ encodeAll crc dropped) ++ replicate z 0 =
      (hdr ++ encodeAll crc kept) ++ (encodeAll crc dropped ++ replicate z 0) by simp,
      List.take_left' hfront]
  size := rfl
  index := by
    simp only [SegmentFile.truncate]
    rw [h.index, index_filter]

end

end UltimaCluster
