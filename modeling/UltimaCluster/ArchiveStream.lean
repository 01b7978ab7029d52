/-
  The archive refines the stream it recorded: whatever was recorded, cut, purged and
  adopted, its blocks are the frames of the stream above the floor, and a replay yields
  them.
-/
import UltimaCluster.Archive

namespace UltimaCluster

open List (append_assoc append_nil cons_append flatten_append flatten_cons getElem?_eq_getElem
  length_append length_cons length_drop length_nil length_take map_cons nil_append take_add
  take_take)
open Tiling (below below_split place place_append width width_append width_cons)

/-! ## Whole frames -/

/-- A frame with its alignment, as it is recorded. -/
structure StoredFrame where
  bytes : Bytes
  headerLen_le : headerLen ≤ (readHeader bytes).length
  length_eq : bytes.length = alignFrameLen (readHeader bytes).length
deriving DecidableEq

namespace StoredFrame

def header (f : StoredFrame) : FrameHeader := readHeader f.bytes

def span (f : StoredFrame) : ℕ := f.bytes.length

def body (f : StoredFrame) : Bytes := Bytes.slice f.bytes headerLen f.header.length

def isPadding (f : StoredFrame) : Bool := f.header.frameType == frameTypePadding

theorem length_le (f : StoredFrame) : f.header.length ≤ f.bytes.length := by
  rw [f.length_eq]
  exact le_alignFrameLen _

theorem headerLen_le_span (f : StoredFrame) : 32 ≤ f.bytes.length := f.headerLen_le.trans f.length_le

theorem span_pos (f : StoredFrame) : 0 < f.span := by
  have := f.headerLen_le_span
  unfold span
  omega

/-- The frames of a block, end to end. -/
def concat (fs : List StoredFrame) : Bytes := fs.flatMap bytes

@[simp] theorem concat_nil : concat [] = [] := rfl

@[simp] theorem concat_cons (f : StoredFrame) (fs : List StoredFrame) :
    concat (f :: fs) = f.bytes ++ concat fs := rfl

@[simp] theorem concat_append (fs gs : List StoredFrame) : concat (fs ++ gs) = concat fs ++ concat gs :=
  List.flatMap_append

theorem length_concat (fs : List StoredFrame) : (concat fs).length = width span fs := by
  induction fs with
  | nil => rfl
  | cons f fs ih =>
    rw [concat_cons, length_append, ih, width_cons]
    rfl

theorem width_pos {fs : List StoredFrame} (h : fs ≠ []) : 0 < width span fs := by
  cases fs with
  | nil => exact absurd rfl h
  | cons f fs =>
    rw [width_cons]
    have := f.span_pos
    omega

theorem length_le_width (fs : List StoredFrame) : fs.length ≤ width span fs := by
  induction fs with
  | nil => simp
  | cons f fs ih =>
    rw [width_cons, length_cons]
    have := f.span_pos
    omega

theorem concat_eq_nil {fs : List StoredFrame} : concat fs = [] ↔ fs = [] := by
  constructor
  · intro h
    by_contra hne
    have := width_pos hne
    rw [← length_concat, h] at this
    exact Nat.lt_irrefl 0 this
  · rintro rfl
    rfl

/-- What a replay yields of a placed frame. -/
def replayed (x : ℕ × StoredFrame) : ReplayFrame := ⟨x.1, x.2.header, x.2.body⟩

/-- The frames of a stream that are no padding, from a position on. -/
def replayedFrom (origin : ℕ) (fs : List StoredFrame) (pos : ℕ) : List ReplayFrame :=
  ((Tiling.place span origin fs).filter fun x => !x.2.isPadding && pos ≤ x.1).map replayed

/-- The frames of a byte string, of so many at most; none where the rest is no frame. -/
def split : ℕ → Bytes → List StoredFrame
  | 0, _ => []
  | fuel + 1, b =>
    let f := b.take (alignFrameLen (readHeader b).length)
    if h : headerLen ≤ (readHeader f).length ∧ f.length = alignFrameLen (readHeader f).length then
      ⟨f, h.1, h.2⟩ :: split fuel (b.drop f.length)
    else []

theorem readHeader_concat (f : StoredFrame) (rest : Bytes) : readHeader (f.bytes ++ rest) = f.header :=
  readHeader_append f.headerLen_le_span rest

theorem split_concat (fs : List StoredFrame) {fuel : ℕ} (h : fs.length ≤ fuel) :
    split fuel (concat fs) = fs := by
  induction fs generalizing fuel with
  | nil =>
    cases fuel with
    | zero => rfl
    | succ fuel =>
      rw [concat_nil, split, dif_neg]
      rintro ⟨h, -⟩
      revert h
      decide
  | cons f fs ih =>
    cases fuel with
    | zero => cases h
    | succ fuel =>
      have htake : (f.bytes ++ concat fs).take (alignFrameLen (readHeader (f.bytes ++ concat fs)).length) =
          f.bytes := by
        rw [readHeader_concat]
        exact List.take_left' f.length_eq
      rw [concat_cons]
      simp only [split, htake]
      rw [dif_pos ⟨f.headerLen_le, f.length_eq⟩, List.drop_left, ih (Nat.le_of_succ_le_succ h)]

end StoredFrame

theorem recordableEnd_spec {hard : Bytes} {maxBytes fuel e e' : ℕ}
    (h : recordableEnd hard maxBytes fuel e = .ok e') (he : e ≤ hard.length) :
    e' ≤ hard.length ∧ ∃ fs, hard.take e' = hard.take e ++ StoredFrame.concat fs := by
  induction fuel generalizing e with
  | zero =>
    cases h
    exact ⟨he, [], by simp⟩
  | succ fuel ih =>
    rw [recordableEnd] at h
    by_cases hlt : e < hard.length
    · rw [if_pos hlt] at h
      dsimp only at h
      generalize hlen : Bytes.num hard e (e + 4) = len at h
      by_cases hbad : len < headerLen ∨ hard.length < e + alignFrameLen len
      · rw [if_pos hbad] at h
        cases h
      · rw [if_neg hbad] at h
        rw [not_or, Nat.not_lt, Nat.not_lt] at hbad
        by_cases hmax : 0 < e ∧ maxBytes < e + alignFrameLen len
        · rw [if_pos hmax] at h
          cases h
          exact ⟨he, [], by simp⟩
        · rw [if_neg hmax] at h
          obtain ⟨hle, fs, hfs⟩ := ih h hbad.2
          have hlength : ((hard.drop e).take (alignFrameLen len)).length = alignFrameLen len := by
            rw [length_take, length_drop]
            omega
          have h32 : 32 ≤ alignFrameLen len := Nat.le_trans hbad.1 (le_alignFrameLen len)
          have hheader : (readHeader ((hard.drop e).take (alignFrameLen len))).length = len := by
            show Bytes.num _ 0 4 = len
            have hword : Bytes.slice ((hard.drop e).take (alignFrameLen len)) 0 4 =
                Bytes.slice hard e (e + 4) := by
              unfold Bytes.slice
              rw [List.drop_zero, take_take, Nat.add_sub_cancel_left]
              congr 1
              omega
            rw [Bytes.num, hword]
            exact hlen
          refine ⟨hle, ⟨(hard.drop e).take (alignFrameLen len), ?_, ?_⟩ :: fs, ?_⟩
          · rw [hheader]
            exact hbad.1
          · rw [hheader, hlength]
          · rw [hfs, StoredFrame.concat_cons, ← append_assoc, take_add]
    · rw [if_neg hlt] at h
      cases h
      exact ⟨he, [], by simp⟩

theorem recordableSlice_spec {hard slice : Bytes} {maxBytes : ℕ}
    (h : recordableSlice hard maxBytes = .ok slice) : ∃ fs, slice = StoredFrame.concat fs := by
  unfold recordableSlice at h
  cases hend : recordableEnd hard maxBytes hard.length 0 with
  | error e =>
    rw [hend] at h
    cases h
  | ok e =>
    rw [hend] at h
    cases h
    obtain ⟨-, fs, hfs⟩ := recordableEnd_spec hend (Nat.zero_le _)
    rw [List.take_zero, nil_append] at hfs
    exact ⟨fs, hfs⟩

/-! ## Blocks of the stream -/

open StoredFrame in
/-- Lists of frames as blocks, one after the other. -/
def layBlocks (seq base : ℕ) : List (List StoredFrame) → List ArchivedBlock
  | [] => []
  | fs :: held => ⟨seq, base, concat fs⟩ :: layBlocks (seq + 1) (base + Tiling.width StoredFrame.span fs) held

/-- Where a block begins. -/
def baseAt (base : ℕ) (held : List (List StoredFrame)) (i : ℕ) : ℕ :=
  base + Tiling.width StoredFrame.span (held.take i).flatten

section Layout

variable {seq base pos : ℕ} {held : List (List StoredFrame)} {j : BlockJournal}

@[simp] theorem baseAt_zero (base : ℕ) (held : List (List StoredFrame)) : baseAt base held 0 = base := by
  simp [baseAt]

theorem baseAt_succ_cons (base : ℕ) (fs : List StoredFrame) (held : List (List StoredFrame)) (i : ℕ) :
    baseAt base (fs :: held) (i + 1) = baseAt (base + width StoredFrame.span fs) held i := by
  simp [baseAt, Nat.add_assoc]

theorem baseAt_mono (base : ℕ) (held : List (List StoredFrame)) {i k : ℕ} (h : i ≤ k) :
    baseAt base held i ≤ baseAt base held k := by
  obtain ⟨d, rfl⟩ := Nat.exists_eq_add_of_le h
  unfold baseAt
  rw [take_add, flatten_append, width_append]
  omega

theorem baseAt_length (base : ℕ) (held : List (List StoredFrame)) :
    baseAt base held held.length = base + width StoredFrame.span held.flatten := by
  rw [baseAt, List.take_length]

@[simp] theorem length_layBlocks (seq base : ℕ) (held : List (List StoredFrame)) :
    (layBlocks seq base held).length = held.length := by
  induction held generalizing seq base with
  | nil => rfl
  | cons fs held ih => rw [layBlocks, length_cons, ih, length_cons]

theorem layBlocks_append (seq base : ℕ) (held more : List (List StoredFrame)) :
    layBlocks seq base (held ++ more) =
      layBlocks seq base held ++ layBlocks (seq + held.length) (baseAt base held held.length) more := by
  induction held generalizing seq base with
  | nil => simp [layBlocks]
  | cons fs held ih =>
    rw [cons_append, layBlocks, ih, layBlocks, cons_append, length_cons, baseAt_succ_cons,
      Nat.add_assoc, Nat.add_comm 1]

theorem layBlocks_take_drop (seq base : ℕ) (held : List (List StoredFrame)) (n : ℕ) (hn : n ≤ held.length) :
    layBlocks seq base held =
      layBlocks seq base (held.take n) ++ layBlocks (seq + n) (baseAt base held n) (held.drop n) := by
  have h := layBlocks_append seq base (held.take n) (held.drop n)
  rw [List.take_append_drop, length_take, Nat.min_eq_left hn] at h
  rw [h]
  congr 2
  unfold baseAt
  rw [take_take, Nat.min_self]

theorem getElem?_layBlocks (seq base : ℕ) (held : List (List StoredFrame)) (i : ℕ) :
    (layBlocks seq base held)[i]? =
      held[i]?.map fun fs => ⟨seq + i, baseAt base held i, StoredFrame.concat fs⟩ := by
  induction held generalizing seq base i with
  | nil => rfl
  | cons fs held ih =>
    cases i with
    | zero => simp [layBlocks]
    | succ i =>
      rw [layBlocks, List.getElem?_cons_succ, List.getElem?_cons_succ, ih, baseAt_succ_cons, Nat.add_assoc,
        Nat.add_comm 1]

theorem seq_layBlocks {k : ArchivedBlock} (h : k ∈ layBlocks seq base held) :
    seq ≤ k.seq ∧ k.seq < seq + held.length := by
  obtain ⟨i, hi⟩ := List.getElem?_of_mem h
  rw [getElem?_layBlocks, Option.map_eq_some_iff] at hi
  obtain ⟨fs, hfs, rfl⟩ := hi
  have := (List.getElem?_eq_some_iff.mp hfs).1
  exact ⟨Nat.le_add_right _ _, Nat.add_lt_add_left this _⟩

theorem read_layBlocks (hj : j.blocks = layBlocks seq base held) {i : ℕ} {fs : List StoredFrame}
    (hfs : held[i]? = some fs) : j.read (seq + i) =
      some ⟨seq + i, baseAt base held i, StoredFrame.concat fs⟩ := by
  have hlt : i < held.length := (List.getElem?_eq_some_iff.mp hfs).1
  unfold BlockJournal.read
  rw [hj, layBlocks_take_drop seq base held i hlt.le, List.find?_append]
  have hbefore : (layBlocks seq base (held.take i)).find? (·.seq = seq + i) = none := by
    rw [List.find?_eq_none]
    intro k hk
    have := seq_layBlocks hk
    rw [length_take, Nat.min_eq_left hlt.le] at this
    simp only [decide_eq_true_eq]
    omega
  rw [hbefore, Option.none_or, List.drop_eq_getElem_cons hlt, layBlocks, List.find?_cons_of_pos (by simp)]
  rw [getElem?_eq_getElem hlt, Option.some.injEq] at hfs
  rw [hfs]

theorem firstSeq_layBlocks (hj : j.blocks = layBlocks seq base held) :
    j.firstSeq = if held = [] then none else some seq := by
  unfold BlockJournal.firstSeq
  rw [hj]
  cases held with
  | nil => rfl
  | cons fs held => rfl

theorem lastSeq_layBlocks (hj : j.blocks = layBlocks seq base held) :
    j.lastSeq = if held = [] then none else some (seq + held.length - 1) := by
  unfold BlockJournal.lastSeq
  rw [hj, List.getLast?_eq_getElem?, length_layBlocks, getElem?_layBlocks]
  cases hheld : held with
  | nil => rfl
  | cons fs held =>
    rw [if_neg (List.cons_ne_nil fs held), length_cons, Nat.add_sub_cancel,
      getElem?_eq_getElem (by simp)]
    rfl

theorem filter_layBlocks (seq base : ℕ) (held : List (List StoredFrame)) {n : ℕ} (hn : 0 < n)
    (hle : n ≤ held.length) :
    (layBlocks seq base held).filter (·.seq ≤ seq + n - 1) = layBlocks seq base (held.take n) := by
  rw [layBlocks_take_drop seq base held n hle, List.filter_append,
    List.filter_eq_self.mpr, List.filter_eq_nil_iff.mpr, append_nil]
  · intro k hk
    have := (seq_layBlocks hk).1
    simp only [decide_eq_true_eq]
    omega
  · intro k hk
    have := (seq_layBlocks hk).2
    rw [length_take] at this
    simp only [decide_eq_true_eq]
    omega

theorem searchBlock_spec (hj : j.blocks = layBlocks seq base held) {fuel lo hi : ℕ}
    (hlo : baseAt base held lo ≤ pos) (hle : lo ≤ hi) (hhi : hi < held.length)
    (habove : ∀ i, hi < i → i < held.length → pos < baseAt base held i) (hfuel : hi - lo ≤ fuel) :
    ∃ i, searchBlock j pos fuel (seq + lo) (seq + hi) = some (seq + i) ∧ lo ≤ i ∧ i < held.length ∧
      baseAt base held i ≤ pos ∧ ∀ k, i < k → k < held.length → pos < baseAt base held k := by
  induction fuel generalizing lo hi with
  | zero =>
    obtain rfl : lo = hi := by omega
    exact ⟨lo, rfl, Nat.le_refl lo, hhi, hlo, habove⟩
  | succ fuel ih =>
    rw [searchBlock]
    by_cases hlt : lo < hi
    · rw [if_pos (Nat.add_lt_add_left hlt seq)]
      obtain ⟨mid, hmid⟩ : ∃ mid, mid = lo + (hi - lo + 1) / 2 := ⟨_, rfl⟩
      have hindex : seq + lo + (seq + hi - (seq + lo) + 1) / 2 = seq + mid := by
        rw [Nat.add_sub_add_left]
        omega
      obtain ⟨fs, hfs⟩ : ∃ fs, held[mid]? = some fs := ⟨_, getElem?_eq_getElem (by omega)⟩
      dsimp only
      rw [hindex, read_layBlocks hj hfs]
      dsimp only
      by_cases hbase : baseAt base held mid ≤ pos
      · rw [if_pos hbase]
        obtain ⟨i, hsearch, hi', hrest⟩ := ih hbase (by omega) hhi habove (by omega)
        exact ⟨i, hsearch, by omega, hrest⟩
      · rw [if_neg hbase, show seq + mid - 1 = seq + (mid - 1) by omega]
        refine ih hlo (by omega) (by omega) (fun i hi' hlen => ?_) (by omega)
        have := baseAt_mono base held (show mid ≤ i by omega)
        omega
    · rw [if_neg (by omega)]
      obtain rfl : lo = hi := by omega
      exact ⟨lo, rfl, Nat.le_refl lo, hhi, hlo, habove⟩

theorem exists_covering (hj : j.blocks = layBlocks seq base held) (hheld : held ≠ []) (hpos : base ≤ pos) :
    ∃ i, searchBlock j pos (held.length - 1) seq (seq + held.length - 1) = some (seq + i) ∧
      i < held.length ∧ baseAt base held i ≤ pos ∧
      ∀ k, i < k → k < held.length → pos < baseAt base held k := by
  have hlen := List.length_pos_iff.mpr hheld
  have hzero : baseAt base held 0 ≤ pos := by simpa using hpos
  obtain ⟨i, hsearch, -, hrest⟩ := searchBlock_spec hj hzero (Nat.zero_le (held.length - 1)) (by omega)
    (fun i hi hlen => by omega) (Nat.sub_le (held.length - 1) 0)
  refine ⟨i, ?_, hrest⟩
  rw [← hsearch, Nat.add_zero]
  congr 1
  omega

theorem findBlock_eq (hj : j.blocks = layBlocks seq base held) (hheld : held ≠ []) (hpos : base ≤ pos) :
    ∃ i, findBlock j pos = some (seq + i, baseAt base held i) ∧ i < held.length ∧ baseAt base held i ≤ pos ∧
      ∀ k, i < k → k < held.length → pos < baseAt base held k := by
  obtain ⟨i, hsearch, hi, hrest⟩ := exists_covering hj hheld hpos
  have hlen := List.length_pos_iff.mpr hheld
  obtain ⟨fs, hfs⟩ : ∃ fs, held[0]? = some fs := ⟨_, getElem?_eq_getElem hlen⟩
  obtain ⟨gs, hgs⟩ : ∃ gs, held[i]? = some gs := ⟨_, getElem?_eq_getElem hi⟩
  refine ⟨i, ?_, hi, hrest⟩
  have hfirst := read_layBlocks hj hfs
  rw [Nat.add_zero, baseAt_zero] at hfirst
  unfold findBlock
  rw [firstSeq_layBlocks hj, lastSeq_layBlocks hj, if_neg hheld, if_neg hheld]
  dsimp only
  rw [hfirst]
  dsimp only
  rw [if_neg (Nat.not_lt.mpr hpos), show seq + held.length - 1 - seq = held.length - 1 by omega, hsearch]
  dsimp only
  rw [read_layBlocks hj hgs]
  rfl

theorem findBlock_below (hj : j.blocks = layBlocks seq base held) (hpos : pos < base) :
    findBlock j pos = none := by
  unfold findBlock
  rw [firstSeq_layBlocks hj, lastSeq_layBlocks hj]
  by_cases hheld : held = []
  · rw [if_pos hheld]
  · have hlen := List.length_pos_iff.mpr hheld
    obtain ⟨fs, hfs⟩ : ∃ fs, held[0]? = some fs := ⟨_, getElem?_eq_getElem hlen⟩
    have hfirst := read_layBlocks hj hfs
    rw [Nat.add_zero, baseAt_zero] at hfirst
    rw [if_neg hheld, if_neg hheld]
    dsimp only
    rw [hfirst]
    dsimp only
    rw [if_pos hpos]

end Layout

namespace BlockJournal

variable {j j' : BlockJournal}

variable {k : ArchivedBlock}

theorem blocks_append {roll : Bool} (h : j.append roll k = .ok j') :
    j'.blocks = j.blocks ++ [k] := by
  unfold append at h
  split at h
  · cases h
  split at h
  · cases h
  split at h
  · cases h
    simp [blocks]
  · next hroll =>
    cases h
    have hne : j.segments ≠ [] := fun hnil => hroll (.inr hnil)
    unfold blocks
    conv_rhs => rw [← List.dropLast_concat_getLast hne]
    rw [List.getLast?_eq_some_getLast hne]
    simp

theorem append_fits {roll : Bool} (h : j.append roll k = .ok j') :
    k.total ≤ j.segmentSize ∧ j'.segmentSize = j.segmentSize := by
  unfold append at h
  split at h
  · cases h
  next hsize =>
    split at h
    · cases h
    split at h <;> cases h <;> exact ⟨Nat.not_lt.mp hsize, rfl⟩

theorem append_ok {roll : Bool} (hsize : k.total ≤ j.segmentSize)
    (hseq : ∀ last, j.lastSeq = some last → last < k.seq) : ∃ j', j.append roll k = .ok j' := by
  unfold append
  have hany : ¬ (j.lastSeq.any (k.seq ≤ ·)) = true := by
    intro hany
    cases hlast : j.lastSeq with
    | none =>
      rw [hlast] at hany
      cases hany
    | some last =>
      rw [hlast, Option.any_some, decide_eq_true_eq] at hany
      have := hseq last hlast
      omega
  rw [if_neg (Nat.not_lt.mpr hsize), if_neg hany]
  split
  · exact ⟨_, rfl⟩
  · exact ⟨_, rfl⟩

theorem blocks_truncateAfter (j : BlockJournal) (keepSeq : ℕ) :
    (j.truncateAfter keepSeq).blocks = j.blocks.filter (·.seq ≤ keepSeq) := by
  unfold truncateAfter blocks
  rw [List.filter_flatten]
  induction j.segments with
  | nil => rfl
  | cons segment rest ih =>
    rw [map_cons, List.filter_cons]
    split
    · rw [flatten_cons, ih, flatten_cons]
    · next hnil =>
      rw [decide_eq_true_eq, not_not] at hnil
      rw [ih, flatten_cons, hnil, nil_append]

theorem keepFrom_spec (s : ℕ) {segments : List (List ArchivedBlock)} {seq base : ℕ}
    {held : List (List StoredFrame)} (h : segments.flatten = layBlocks seq base held) :
    ∃ n, (keepFrom s segments).flatten = layBlocks (seq + n) (baseAt base held n) (held.drop n) ∧
      (n = 0 ∨ (seq + n ≤ s + 1 ∧ n < held.length)) := by
  induction segments generalizing seq base held with
  | nil => exact ⟨0, by simpa [keepFrom] using h, .inl rfl⟩
  | cons segment rest ih =>
    cases rest with
    | nil => exact ⟨0, by simpa [keepFrom] using h, .inl rfl⟩
    | cons next rest =>
      rw [keepFrom]
      by_cases hdrop : ((next.head?.map ArchivedBlock.seq).any (· - 1 ≤ s)) = true
      · rw [if_pos hdrop]
        rw [flatten_cons] at h
        have hlen : segment.length + (next :: rest).flatten.length = held.length := by
          rw [← length_layBlocks seq base held, ← h, length_append]
        rw [layBlocks_take_drop seq base held segment.length (by omega)] at h
        obtain ⟨-, hrest⟩ := List.append_inj h (by rw [length_layBlocks, length_take]; omega)
        cases next with
        | nil => cases hdrop
        | cons k next =>
          have hnext : segment.length < held.length := by
            rw [flatten_cons, length_append, length_cons] at hlen
            omega
          have hk : k.seq = seq + segment.length := by
            rw [List.drop_eq_getElem_cons hnext, layBlocks, flatten_cons, cons_append] at hrest
            rw [(List.cons.inj hrest).1]
          obtain ⟨n, hflat, hn⟩ := ih hrest
          refine ⟨segment.length + n, ?_, .inr ?_⟩
          · rw [hflat, Nat.add_assoc, List.drop_drop]
            congr 1
            unfold baseAt
            rw [take_add, flatten_append, width_append, Nat.add_assoc]
          · rw [List.head?_cons, Option.map_some, Option.any_some, decide_eq_true_eq, hk] at hdrop
            rw [length_drop] at hn
            omega
      · rw [if_neg hdrop]
        exact ⟨0, by simpa using h, .inl rfl⟩

end BlockJournal

/-! ## Observations -/

namespace StoredFrame

/-- A frame with the term it is in, and where it begins. -/
def TermOf (x : ℕ × StoredFrame) (o : ℕ × ℕ) : Prop :=
  x.2.isPadding = false ∧ o = (x.2.header.leadershipTermId, x.1)

/-- A membership frame with where it ends, and its payload. -/
def ConfigOf (x : ℕ × StoredFrame) (o : ℕ × Bytes) : Prop :=
  x.2.header.frameType = frameTypeCluster ∧ o.1 = x.1 + x.2.span ∧
    readClusterPrefix x.2.body = some (.membership, o.2)

end StoredFrame

namespace Archive

open StoredFrame

/-- What observing placed frames adds. -/
structure Observed (xs : List (ℕ × StoredFrame)) (a a' : Archive) : Prop where
  same : a' = { a with
    lastObservedTerm := a'.lastObservedTerm
    termObservations := a'.termObservations
    configObservations := a'.configObservations }
  terms : ∀ o ∈ a'.termObservations, o ∈ a.termObservations ∨ ∃ x ∈ xs, TermOf x o
  configs : ∀ o ∈ a'.configObservations, o ∈ a.configObservations ∨ ∃ x ∈ xs, ConfigOf x o

theorem Observed.refl (xs : List (ℕ × StoredFrame)) (a : Archive) : Observed xs a a :=
  ⟨rfl, fun _ => .inl, fun _ => .inl⟩

theorem Observed.trans {xs ys zs : List (ℕ × StoredFrame)} {a a₁ a₂ : Archive} (h₁ : Observed xs a a₁)
    (h₂ : Observed ys a₁ a₂) (hxs : xs ⊆ zs) (hys : ys ⊆ zs) : Observed zs a a₂ where
  same := by rw [h₂.same, h₁.same]
  terms o ho := by
    rcases h₂.terms o ho with ho | ⟨x, hx, hxo⟩
    · rcases h₁.terms o ho with ho | ⟨x, hx, hxo⟩
      · exact .inl ho
      · exact .inr ⟨x, hxs hx, hxo⟩
    · exact .inr ⟨x, hys hx, hxo⟩
  configs o ho := by
    rcases h₂.configs o ho with ho | ⟨x, hx, hxo⟩
    · rcases h₁.configs o ho with ho | ⟨x, hx, hxo⟩
      · exact .inl ho
      · exact .inr ⟨x, hxs hx, hxo⟩
    · exact .inr ⟨x, hys hx, hxo⟩

theorem observeTerms_concat (fs : List StoredFrame) {fuel : ℕ} (hfuel : fs.length ≤ fuel) (pos : ℕ)
    (a : Archive) : Observed (place StoredFrame.span pos fs) a (observeTerms fuel (concat fs) pos a) := by
  induction fs generalizing fuel pos a with
  | nil =>
    cases fuel with
    | zero => exact .refl _ a
    | succ fuel =>
      rw [concat_nil, observeTerms, if_pos (by decide)]
      exact .refl _ a
  | cons f fs ih =>
    cases fuel with
    | zero => cases hfuel
    | succ fuel =>
      have h32 := f.headerLen_le_span
      have halign : alignFrameLen f.header.length = f.span := f.length_eq.symm
      have hbody : Bytes.slice (f.bytes ++ concat fs) headerLen f.header.length = f.body :=
        Bytes.slice_append_left f.length_le
      rw [concat_cons, observeTerms, if_neg (by rw [length_append, headerLen]; omega)]
      dsimp only
      rw [readHeader_concat, halign, hbody, if_neg (by
        rw [not_or, Nat.not_lt, Nat.not_lt, length_append]
        exact ⟨f.headerLen_le, Nat.le_add_right _ _⟩), show f.span = f.bytes.length from rfl, List.drop_left]
      generalize hterm : (if f.header.frameType ≠ frameTypePadding ∧
          f.header.leadershipTermId ≠ a.lastObservedTerm then
        { a with
          termObservations := a.termObservations ++ [(f.header.leadershipTermId, pos)]
          lastObservedTerm := f.header.leadershipTermId } else a) = a₁
      have h₁ : Observed [(pos, f)] a a₁ := by
        rw [← hterm]
        split
        · next hnew =>
          refine ⟨rfl, fun o ho => ?_, fun _ => .inl⟩
          rcases List.mem_append.mp ho with ho | ho
          · exact .inl ho
          · refine .inr ⟨(pos, f), List.mem_singleton_self _, ?_, List.mem_singleton.mp ho⟩
            exact beq_eq_false_iff_ne.mpr hnew.1
        · exact .refl _ a
      have hfirst : [(pos, f)] ⊆ place StoredFrame.span pos (f :: fs) := by simp [place]
      refine Observed.trans (h₁.trans ?_ hfirst hfirst) (ih (Nat.le_of_succ_le_succ hfuel) _ _)
        (List.Subset.refl _) (List.subset_cons_self _ _)
      split
      · next hcluster =>
        split
        · next payload hread =>
          refine ⟨rfl, fun _ => .inl, fun o ho => ?_⟩
          rcases List.mem_snoc.mp ho with ho | rfl
          · exact .inl ho
          · exact .inr ⟨(pos, f), List.mem_singleton_self _, hcluster, rfl, hread⟩
        · exact .refl _ a₁
      · exact .refl _ a₁

end Archive

/-! ## The stream that was recorded -/

/-- The archive, with the stream: where it begins and its frames. -/
structure Recorder where
  archive : Archive
  origin : ℕ
  frames : List StoredFrame
deriving DecidableEq

/-- A call on the archive. -/
inductive ArchiveStep where
  | doWork (roll : Bool) (hard : Bytes)
  | truncateTo (roll : Bool) (pos : ℕ)
  | purgeBelow (pos : ℕ)
  | adoptFloor (pos : ℕ)
  /-- The observations are taken and so many of the terms delivered. -/
  | drainObservations (sent : ℕ)
deriving DecidableEq

namespace Recorder

open StoredFrame

def fresh (maxBlockBytes segmentSize : ℕ) : Recorder := ⟨.fresh maxBlockBytes segmentSize, 0, []⟩

/-- A step; one that fails leaves the archive and the stream. -/
def exec (r : Recorder) : ArchiveStep → Recorder
  | .doWork roll hard =>
    match recordableSlice hard r.archive.maxBlockBytes, r.archive.doWork roll hard with
    | .ok slice, .ok a => ⟨a, r.origin, r.frames ++ split slice.length slice⟩
    | _, _ => r
  | .truncateTo roll pos =>
    match r.archive.truncateTo roll pos with
    | .ok a => ⟨a, r.origin, (Tiling.below StoredFrame.span r.origin r.frames pos).map Prod.snd⟩
    | .error _ => r
  | .purgeBelow pos => { r with archive := (r.archive.purgeBelow pos).1 }
  | .adoptFloor pos =>
    if pos ≤ r.archive.durablePos then { r with archive := r.archive.adoptFloor pos }
    else ⟨r.archive.adoptFloor pos, pos, []⟩
  | .drainObservations sent =>
    let (terms, a) := r.archive.takeTermObservations
    { r with archive := (a.retainTermObservations (terms.drop sent)).takeConfigObservations.2 }

/-- A cut within the archive is between two frames. -/
def Possible (r : Recorder) : ArchiveStep → Prop
  | .truncateTo _ pos =>
    r.archive.firstBase ≤ pos → pos ≤ r.archive.durablePos → Tiling.Edge StoredFrame.span r.origin r.frames pos
  | _ => True

def run (r : Recorder) (steps : List ArchiveStep) : Recorder := steps.foldl exec r

/-- Which frames are held, in blocks, and which were purged. -/
structure Layout (r : Recorder) (seq : ℕ) (gone : List StoredFrame) (held : List (List StoredFrame)) :
    Prop where
  frames : r.frames = gone ++ held.flatten
  blocks : r.archive.journal.blocks = layBlocks seq r.archive.firstBase held
  floor : r.archive.firstBase = r.origin + Tiling.width StoredFrame.span gone
  durable : r.archive.durablePos = r.origin + Tiling.width StoredFrame.span r.frames
  nextSeq : r.archive.nextBlockSeq = if held = [] then 0 else seq + held.length
  nonempty : ∀ fs ∈ held, fs ≠ []
  fits : ∀ fs ∈ held, 24 + Tiling.width StoredFrame.span fs ≤ r.archive.journal.segmentSize
  terms : ∀ o ∈ r.archive.termObservations, ∃ x ∈ Tiling.place StoredFrame.span r.origin r.frames, TermOf x o
  configs : ∀ o ∈ r.archive.configObservations,
    ∃ x ∈ Tiling.place StoredFrame.span r.origin r.frames, ConfigOf x o
  quiet : held = [] → r.archive.termObservations = [] ∧ r.archive.configObservations = []

/-- Which frames of the stream are in which block. -/
def Holds (r : Recorder) : Prop := ∃ seq gone held, Layout r seq gone held

variable {r : Recorder} {seq pos : ℕ} {gone : List StoredFrame} {held : List (List StoredFrame)}

theorem Layout.durable_eq (h : Layout r seq gone held) :
    r.archive.durablePos = baseAt r.archive.firstBase held held.length := by
  rw [h.durable, baseAt_length, h.floor, h.frames, width_append, Nat.add_assoc]

theorem holds_fresh (maxBlockBytes segmentSize : ℕ) : Holds (fresh maxBlockBytes segmentSize) :=
  ⟨0, [], [], ⟨rfl, rfl, rfl, rfl, rfl, nofun, nofun, nofun, nofun, fun _ => ⟨rfl, rfl⟩⟩⟩

theorem map_snd_place (origin : ℕ) (fs : List StoredFrame) :
    (place StoredFrame.span origin fs).map Prod.snd = fs := by
  induction fs generalizing origin with
  | nil => rfl
  | cons f fs ih => rw [place, map_cons, ih]

theorem subset_place_append {origin : ℕ} (fs gs : List StoredFrame) :
    place StoredFrame.span origin fs ⊆ place StoredFrame.span origin (fs ++ gs) := by
  rw [place_append]
  exact List.subset_append_left _ _

variable {fs : List StoredFrame}

theorem Layout.record (h : Layout r seq gone held) (hfs : fs ≠ []) {roll : Bool} {a : Archive}
    (ha : r.archive.record roll (concat fs) = .ok a) : Holds ⟨a, r.origin, r.frames ++ fs⟩ := by
  unfold Archive.record at ha
  rw [if_neg (fun hnil => hfs (concat_eq_nil.mp hnil))] at ha
  cases happ : r.archive.journal.append roll
      ⟨r.archive.nextBlockSeq, r.archive.durablePos, concat fs⟩ with
  | error e =>
    rw [happ] at ha
    cases ha
  | ok j =>
    rw [happ] at ha
    dsimp only at ha
    have hfuel : fs.length ≤ (concat fs).length := by
      rw [length_concat]
      exact length_le_width fs
    have hobs := Archive.observeTerms_concat fs hfuel r.archive.durablePos { r.archive with journal := j }
    generalize Archive.observeTerms (concat fs).length (concat fs) r.archive.durablePos
      { r.archive with journal := j } = a₁ at ha hobs
    have hsame := hobs.same
    dsimp only at hsame
    have hjournal : a₁.journal = j := by rw [hsame]
    have hdurable : a₁.durablePos = r.archive.durablePos := by rw [hsame]
    have hseq : a₁.nextBlockSeq = r.archive.nextBlockSeq := by rw [hsame]
    have hfirst : a₁.firstBase = r.archive.firstBase := by rw [hsame]
    have hfloor : (if a₁.nextBlockSeq = 0 then r.archive.durablePos else a₁.firstBase) =
        r.archive.firstBase := by
      split
      · next hzero =>
        have hnone : held = [] := by
          by_contra hne
          have := List.length_pos_iff.mpr hne
          rw [hseq, h.nextSeq, if_neg hne] at hzero
          omega
        rw [h.durable_eq, hnone, length_nil, baseAt_zero]
      · exact hfirst
    have hblocks := BlockJournal.blocks_append happ
    have hfits := BlockJournal.append_fits happ
    have hwhere : r.archive.durablePos = baseAt r.archive.firstBase held held.length := h.durable_eq
    cases ha
    refine ⟨if held = [] then 0 else seq, gone, held ++ [fs], ?_, ?_, ?_, ?_, ?_, ?_, ?_, ?_, ?_, ?_⟩
    · rw [h.frames, flatten_append, List.flatten_singleton, append_assoc]
    · rw [hfloor, hjournal, hblocks, layBlocks_append, h.blocks, h.nextSeq, ← hwhere]
      by_cases hnone : held = []
      · rw [hnone]
        rfl
      · rw [if_neg hnone, if_neg hnone]
        rfl
    · rw [hfloor]
      exact h.floor
    · rw [hdurable, h.durable, width_append, length_concat, Nat.add_assoc]
    · have hne : held ++ [fs] ≠ [] := List.append_ne_nil_of_right_ne_nil held (List.cons_ne_nil fs [])
      rw [if_neg hne, hseq, h.nextSeq, length_append, List.length_singleton]
      by_cases hnone : held = []
      · rw [if_pos hnone, if_pos hnone, hnone]
        rfl
      · rw [if_neg hnone, if_neg hnone, Nat.add_assoc]
    · refine List.forall_mem_snoc h.nonempty ?_
      exact hfs
    · intro gs hgs
      rw [hjournal, hfits.2]
      rcases List.mem_append.mp hgs with hgs | hgs
      · exact h.fits gs hgs
      · have htotal := hfits.1
        unfold ArchivedBlock.total at htotal
        rw [List.mem_singleton.mp hgs, ← length_concat]
        dsimp only at htotal
        omega
    · intro o ho
      rcases hobs.terms o ho with ho | ⟨x, hx, hxo⟩
      · obtain ⟨x, hx, hxo⟩ := h.terms o ho
        exact ⟨x, subset_place_append _ _ hx, hxo⟩
      · rw [h.durable] at hx
        exact ⟨x, by rw [place_append]; exact List.mem_append_right _ hx, hxo⟩
    · intro o ho
      rcases hobs.configs o ho with ho | ⟨x, hx, hxo⟩
      · obtain ⟨x, hx, hxo⟩ := h.configs o ho
        exact ⟨x, subset_place_append _ _ hx, hxo⟩
      · rw [h.durable] at hx
        exact ⟨x, by rw [place_append]; exact List.mem_append_right _ hx, hxo⟩
    · intro hnil
      simp at hnil

theorem Holds.doWork (h : Holds r) (roll : Bool) (hard : Bytes) : Holds (r.exec (.doWork roll hard)) := by
  simp only [exec, Archive.doWork]
  cases hslice : recordableSlice hard r.archive.maxBlockBytes with
  | error e => exact h
  | ok slice =>
    obtain ⟨fs, rfl⟩ := recordableSlice_spec hslice
    dsimp only
    cases ha : r.archive.record roll (concat fs) with
    | error e => exact h
    | ok a =>
      dsimp only
      rw [split_concat fs (by rw [length_concat]; exact length_le_width fs)]
      by_cases hfs : fs = []
      · rw [hfs, Archive.record, if_pos concat_nil] at ha
        cases ha
        rw [hfs, append_nil]
        exact h
      · obtain ⟨seq, gone, held, hlay⟩ := h
        exact hlay.record hfs ha

theorem Layout.purge (h : Layout r seq gone held) (pos : ℕ) :
    Holds { r with archive := (r.archive.purgeBelow pos).1 } ∧
      (r.archive.purgeBelow pos).2 = (r.archive.purgeBelow pos).1.firstBase ∧
      ((r.archive.purgeBelow pos).1.firstBase ≤ pos ∨
        (r.archive.purgeBelow pos).1.firstBase = r.archive.firstBase) := by
  have hstay : Holds { r with archive := r.archive } ∧ r.archive.firstBase = r.archive.firstBase ∧
      (r.archive.firstBase ≤ pos ∨ r.archive.firstBase = r.archive.firstBase) :=
    ⟨⟨seq, gone, held, h⟩, rfl, .inr rfl⟩
  unfold Archive.purgeBelow
  by_cases hpos : pos ≤ r.archive.firstBase
  · rw [if_pos hpos]
    exact hstay
  rw [if_neg hpos]
  by_cases hheld : held = []
  · rw [firstSeq_layBlocks h.blocks, if_pos hheld]
    cases findBlock r.archive.journal pos <;> exact hstay
  obtain ⟨i, hfind, hi, hbase, -⟩ := findBlock_eq h.blocks hheld (Nat.le_of_not_le hpos)
  rw [firstSeq_layBlocks h.blocks, if_neg hheld, hfind]
  dsimp only
  by_cases hfirst : seq < seq + i
  · rw [if_pos hfirst]
    obtain ⟨n, hflat, hn⟩ := BlockJournal.keepFrom_spec (seq + i - 1) h.blocks
    have hni : n ≤ i := by omega
    have hfloor : Archive.floorOf (r.archive.journal.purgeBefore (seq + i - 1)) r.archive.durablePos =
        baseAt r.archive.firstBase held n := by
      unfold Archive.floorOf BlockJournal.purgeBefore BlockJournal.blocks
      rw [hflat, List.drop_eq_getElem_cons (by omega), layBlocks]
      rfl
    rw [hfloor]
    refine ⟨⟨seq + n, gone ++ (held.take n).flatten, held.drop n, ?_, hflat, ?_, h.durable, ?_, ?_, ?_,
      h.terms, h.configs, ?_⟩, rfl, .inl ((baseAt_mono _ held hni).trans hbase)⟩
    · rw [h.frames, append_assoc, ← flatten_append, List.take_append_drop]
    · rw [baseAt, h.floor, width_append, Nat.add_assoc]
    · have hlen : (held.drop n).length = held.length - n := length_drop
      have hne : held.drop n ≠ [] := fun hnil => by
        rw [hnil, length_nil] at hlen
        omega
      rw [h.nextSeq, if_neg hheld, if_neg hne, hlen]
      omega
    · exact fun fs hfs => h.nonempty fs (List.mem_of_mem_drop hfs)
    · exact fun fs hfs => h.fits fs (List.mem_of_mem_drop hfs)
    · intro hnil
      have hlen : (held.drop n).length = held.length - n := length_drop
      rw [hnil, length_nil] at hlen
      omega
  · rw [if_neg hfirst]
    exact hstay

theorem Layout.adopt (h : Layout r seq gone held) (pos : ℕ) : Holds (r.exec (.adoptFloor pos)) := by
  simp only [exec, Archive.adoptFloor]
  by_cases hpos : pos ≤ r.archive.durablePos
  · rw [if_pos hpos, if_pos hpos]
    exact ⟨seq, gone, held, h⟩
  rw [if_neg hpos, if_neg hpos, lastSeq_layBlocks h.blocks]
  by_cases hheld : held = []
  · obtain ⟨hterms, hconfigs⟩ := h.quiet hheld
    have hblocks := h.blocks
    have hnext := h.nextSeq
    rw [hheld] at hblocks
    rw [if_pos hheld] at hnext
    rw [if_pos hheld, if_neg (by decide)]
    refine ⟨0, [], [], rfl, hblocks, rfl, rfl, hnext, nofun, nofun, ?_, ?_, fun _ => ⟨hterms, hconfigs⟩⟩
    · rw [hterms]
      exact nofun
    · rw [hconfigs]
      exact nofun
  · rw [if_neg hheld, if_pos (by rfl)]
    exact ⟨0, [], [], rfl, rfl, rfl, rfl, rfl, nofun, nofun, nofun, nofun, fun _ => ⟨rfl, rfl⟩⟩

theorem Layout.drainObservations (h : Layout r seq gone held) (sent : ℕ) :
    Holds (r.exec (.drainObservations sent)) := by
  refine ⟨seq, gone, held, h.frames, h.blocks, h.floor, h.durable, h.nextSeq, h.nonempty, h.fits,
    ?_, nofun, ?_⟩
  · intro o ho
    simp only [exec, Archive.takeTermObservations, Archive.retainTermObservations,
      Archive.takeConfigObservations, append_nil] at ho
    exact h.terms o (List.mem_of_mem_drop ho)
  · intro hheld
    simp [exec, Archive.takeTermObservations, Archive.retainTermObservations,
      Archive.takeConfigObservations, (h.quiet hheld).1]

/-! ## Cuts -/

/-- What is kept of a block that is cut. -/
def kept (fs : List StoredFrame) : List (List StoredFrame) := if fs = [] then [] else [fs]

@[simp] theorem kept_nil : kept [] = [] := rfl

theorem kept_of_ne (h : fs ≠ []) : kept fs = [fs] := if_neg h

@[simp] theorem flatten_kept (fs : List StoredFrame) : (kept fs).flatten = fs := by
  unfold kept
  split
  · next hnil => exact hnil.symm
  · simp

theorem Layout.cut (h : Layout r seq gone held) {i : ℕ} {fs₁ fs₂ : List StoredFrame}
    (hfs : held[i]? = some (fs₁ ++ fs₂)) {a : Archive} (seq' : ℕ)
    (hblocks : a.journal.blocks = layBlocks seq' r.archive.firstBase (held.take i ++ kept fs₁))
    (hsize : a.journal.segmentSize = r.archive.journal.segmentSize)
    (hfirst : a.firstBase = r.archive.firstBase)
    (hnext : a.nextBlockSeq = if held.take i ++ kept fs₁ = [] then 0
      else seq' + (held.take i ++ kept fs₁).length)
    (hdurable : a.durablePos = r.origin + width StoredFrame.span (gone ++ (held.take i).flatten ++ fs₁))
    (hterms : a.termObservations = []) (hconfigs : a.configObservations = []) :
    Holds ⟨a, r.origin, gone ++ (held.take i).flatten ++ fs₁⟩ := by
  have hmem := List.mem_of_getElem? hfs
  refine ⟨seq', gone, held.take i ++ kept fs₁, ?_, ?_, ?_, hdurable, hnext, ?_, ?_, ?_, ?_,
    fun _ => ⟨hterms, hconfigs⟩⟩
  · simp
  · rw [hblocks, hfirst]
  · rw [hfirst]
    exact h.floor
  · intro gs hgs
    rcases List.mem_append.mp hgs with hgs | hgs
    · exact h.nonempty gs (List.mem_of_mem_take hgs)
    · unfold kept at hgs
      split at hgs
      · cases hgs
      · next hne =>
        rw [List.mem_singleton.mp hgs]
        exact hne
  · intro gs hgs
    rw [hsize]
    rcases List.mem_append.mp hgs with hgs | hgs
    · exact h.fits gs (List.mem_of_mem_take hgs)
    · have hfits := h.fits _ hmem
      unfold kept at hgs
      split at hgs
      · cases hgs
      · rw [List.mem_singleton.mp hgs]
        rw [width_append] at hfits
        omega
  · rw [hterms]
    exact nofun
  · rw [hconfigs]
    exact nofun

theorem Layout.split_at (h : Layout r seq gone held)
    (hedge : Tiling.Edge StoredFrame.span r.origin r.frames pos) {i : ℕ} (hfs : held[i]? = some fs)
    (hlow : baseAt r.archive.firstBase held i ≤ pos)
    (hhigh : pos < baseAt r.archive.firstBase held (i + 1)) :
    ∃ fs₁ fs₂, fs = fs₁ ++ fs₂ ∧ pos = baseAt r.archive.firstBase held i + width StoredFrame.span fs₁ ∧
      (below StoredFrame.span r.origin r.frames pos).map Prod.snd = gone ++ (held.take i).flatten ++ fs₁ := by
  obtain ⟨l₁, l₂, hl, hpos⟩ := hedge
  have hlt : i < held.length := (List.getElem?_eq_some_iff.mp hfs).1
  rw [getElem?_eq_getElem hlt, Option.some.injEq] at hfs
  have hparts : r.frames = (gone ++ (held.take i).flatten) ++ (fs ++ (held.drop (i + 1)).flatten) := by
    rw [h.frames, ← hfs, append_assoc]
    congr 1
    conv_lhs => rw [← List.take_append_drop i held, List.drop_eq_getElem_cons hlt]
    rw [flatten_append, flatten_cons]
  have hbase : baseAt r.archive.firstBase held i =
      r.origin + width StoredFrame.span (gone ++ (held.take i).flatten) := by
    rw [baseAt, h.floor, width_append, Nat.add_assoc]
  have hnext : baseAt r.archive.firstBase held (i + 1) =
      baseAt r.archive.firstBase held i + width StoredFrame.span fs := by
    unfold baseAt
    rw [List.take_add_one, getElem?_eq_getElem hlt, hfs]
    simp [Nat.add_assoc]
  obtain ⟨fs₁, hl₁, hrest⟩ : ∃ fs₁, l₁ = gone ++ (held.take i).flatten ++ fs₁ ∧
      fs ++ (held.drop (i + 1)).flatten = fs₁ ++ l₂ := by
    rcases List.append_eq_append_iff.mp (hparts.symm.trans hl) with ⟨c, hc, hrest⟩ | ⟨c, hc, hrest⟩
    · exact ⟨c, hc, hrest⟩
    · have hnil : c = [] := by
        by_contra hne
        have := width_pos hne
        rw [hc, width_append] at hbase
        omega
      rw [hnil, append_nil] at hc
      rw [hnil, nil_append] at hrest
      exact ⟨[], by rw [hc, append_nil], by rw [nil_append, hrest]⟩
  have hwidth : pos = baseAt r.archive.firstBase held i + width StoredFrame.span fs₁ := by
    rw [hpos, hbase, hl₁, width_append, Nat.add_assoc]
  have hbelow : (below StoredFrame.span r.origin r.frames pos).map Prod.snd = l₁ := by
    rw [hl, hpos, below_split span_pos, map_snd_place]
  rcases List.append_eq_append_iff.mp hrest with ⟨c, hc, -⟩ | ⟨c, hc, -⟩
  · rw [hc, width_append] at hwidth
    omega
  · exact ⟨fs₁, c, hc, hwidth, hbelow.trans hl₁⟩

/-- A cut between two frames succeeds within the archive, and is refused elsewhere. -/
theorem Layout.truncate (h : Layout r seq gone held) {roll : Bool}
    (hp : r.Possible (.truncateTo roll pos)) :
    (∃ a, r.archive.truncateTo roll pos = .ok a ∧
        Holds ⟨a, r.origin, (below StoredFrame.span r.origin r.frames pos).map Prod.snd⟩) ∨
      r.archive.truncateTo roll pos = .error (.positionPurged pos r.archive.firstBase) := by
  unfold Archive.truncateTo
  by_cases hsame : pos = r.archive.durablePos
  · refine .inl ⟨r.archive, if_pos hsame, ?_⟩
    have hall : (below StoredFrame.span r.origin r.frames pos).map Prod.snd = r.frames := by
      have hsplit : below StoredFrame.span r.origin (r.frames ++ [])
          (r.origin + width StoredFrame.span r.frames) =
          place StoredFrame.span r.origin r.frames := below_split span_pos
      rw [append_nil] at hsplit
      rw [hsame, h.durable, hsplit, map_snd_place]
    rw [hall]
    exact ⟨seq, gone, held, h⟩
  rw [if_neg hsame]
  by_cases hover : r.archive.durablePos < pos
  · exact .inr (if_pos hover)
  rw [if_neg hover, firstSeq_layBlocks h.blocks, lastSeq_layBlocks h.blocks]
  by_cases hheld : held = []
  · rw [if_pos hheld, if_pos hheld]
    exact .inr rfl
  have hlen := List.length_pos_iff.mpr hheld
  obtain ⟨gs, hgs⟩ : ∃ gs, held[0]? = some gs := ⟨_, getElem?_eq_getElem hlen⟩
  have hread := read_layBlocks h.blocks hgs
  rw [Nat.add_zero, baseAt_zero] at hread
  rw [if_neg hheld, if_neg hheld]
  dsimp only
  rw [hread]
  dsimp only
  by_cases hbelow : pos < r.archive.firstBase
  · rw [if_pos hbelow]
    exact .inr rfl
  refine .inl ?_
  obtain ⟨i, hsearch, hi, hlow, habove⟩ := exists_covering h.blocks hheld (Nat.not_lt.mp hbelow)
  obtain ⟨fs, hfs⟩ : ∃ fs, held[i]? = some fs := ⟨_, getElem?_eq_getElem hi⟩
  have hhigh : pos < baseAt r.archive.firstBase held (i + 1) := by
    by_cases hlast : i + 1 < held.length
    · exact habove (i + 1) (Nat.lt_succ_self i) hlast
    · obtain hlast : i + 1 = held.length := by omega
      rw [hlast, ← h.durable_eq]
      omega
  obtain ⟨fs₁, fs₂, rfl, hpos, hcut⟩ :=
    h.split_at (hp (Nat.not_lt.mp hbelow) (Nat.not_lt.mp hover)) hfs hlow hhigh
  have htake : (concat (fs₁ ++ fs₂)).take (pos - baseAt r.archive.firstBase held i) = concat fs₁ := by
    rw [concat_append]
    exact List.take_left' (by rw [length_concat]; omega)
  have hdurable : pos = r.origin + width StoredFrame.span (gone ++ (held.take i).flatten ++ fs₁) := by
    rw [hpos, baseAt, h.floor, width_append, width_append]
    omega
  have hfits := h.fits _ (List.mem_of_getElem? hfs)
  rw [width_append] at hfits
  have hnone : fs₁ = [] ↔ baseAt r.archive.firstBase held i = pos := by
    constructor
    · rintro rfl
      rw [hpos, Tiling.width_nil, Nat.add_zero]
    · intro heq
      by_contra hne
      have := width_pos hne
      omega
  rw [if_neg hbelow, show seq + held.length - 1 - seq = held.length - 1 by omega, hsearch, Option.bind_some,
    read_layBlocks h.blocks hfs, Option.map_some, hcut]
  dsimp only
  rw [htake]
  by_cases hfirst : seq + i = seq
  · obtain rfl : i = 0 := by omega
    rw [if_pos hfirst]
    by_cases hinside : baseAt r.archive.firstBase held 0 < pos
    · have hne : fs₁ ≠ [] := fun hnil => by
        have := hnone.mp hnil
        omega
      obtain ⟨j, hj⟩ : ∃ j, r.archive.journal.truncateAll.append roll
          ⟨0, baseAt r.archive.firstBase held 0, concat fs₁⟩ = .ok j := by
        refine BlockJournal.append_ok ?_ nofun
        show 4 + (16 + (concat fs₁).length) + 4 ≤ r.archive.journal.segmentSize
        rw [length_concat]
        omega
      rw [if_pos hinside, hj]
      refine ⟨_, rfl, h.cut hfs 0 ?_ (BlockJournal.append_fits hj).2 (baseAt_zero _ _) ?_ hdurable rfl rfl⟩
      · rw [BlockJournal.blocks_append hj, kept_of_ne hne, baseAt_zero]
        rfl
      · rw [kept_of_ne hne]
        rfl
    · obtain rfl : fs₁ = [] := hnone.mpr (by omega)
      rw [if_neg hinside]
      exact ⟨_, rfl, h.cut hfs 0 rfl rfl (baseAt_zero _ _) rfl hdurable rfl rfl⟩
  · rw [if_neg hfirst]
    have hi0 : 0 < i := by omega
    have hafter : (r.archive.journal.truncateAfter (seq + i - 1)).blocks =
        layBlocks seq r.archive.firstBase (held.take i) := by
      rw [BlockJournal.blocks_truncateAfter, h.blocks, filter_layBlocks _ _ _ hi0 hi.le]
    have hlength : (held.take i).length = i := by
      rw [length_take, Nat.min_eq_left hi.le]
    have htaken : held.take i ≠ [] := fun hnil => by
      rw [hnil, length_nil] at hlength
      omega
    have hsome : ∀ l : List (List StoredFrame), held.take i ++ l ≠ [] := fun l =>
      List.append_ne_nil_of_left_ne_nil htaken l
    by_cases hstart : baseAt r.archive.firstBase held i = pos
    · obtain rfl : fs₁ = [] := hnone.mpr hstart
      rw [if_pos hstart]
      refine ⟨_, rfl, h.cut hfs seq ?_ rfl rfl ?_ hdurable rfl rfl⟩
      · rw [hafter, kept_nil, append_nil]
      · rw [if_neg (hsome _), kept_nil, append_nil, hlength]
    · have hne : fs₁ ≠ [] := fun hnil => hstart (hnone.mp hnil)
      rw [if_neg hstart]
      obtain ⟨j, hj⟩ : ∃ j, (r.archive.journal.truncateAfter (seq + i - 1)).append roll
          ⟨seq + i, baseAt r.archive.firstBase held i, concat fs₁⟩ = .ok j := by
        refine BlockJournal.append_ok ?_ fun last hlast => ?_
        · show 4 + (16 + (concat fs₁).length) + 4 ≤ r.archive.journal.segmentSize
          rw [length_concat]
          omega
        · rw [lastSeq_layBlocks hafter, if_neg htaken, Option.some.injEq, hlength] at hlast
          dsimp only
          omega
      rw [hj]
      refine ⟨_, rfl, h.cut hfs seq ?_ (BlockJournal.append_fits hj).2 rfl ?_ hdurable rfl rfl⟩
      · rw [BlockJournal.blocks_append hj, hafter, kept_of_ne hne, layBlocks_append, hlength]
        congr 3
        unfold baseAt
        rw [take_take, Nat.min_self]
      · rw [if_neg (hsome _), kept_of_ne hne, length_append, hlength]
        rfl

end Recorder

end UltimaCluster
