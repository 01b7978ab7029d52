/-
  The segments of a journal in place: the bases separate the records, reads go
  to the segments that can hold them, a truncation cuts at one record, and the
  writer moves the pending requests, in order, behind what is stored.
-/
import UltimaCluster.Journal
import UltimaCluster.SegmentSpec
import UltimaCluster.Lib.Trace
import Mathlib.Data.List.Sort

namespace UltimaCluster

open List (append_nil filter_append map_append map_cons map_nil map_singleton mem_append_left
  mem_append_right mem_cons_self mem_singleton pairwise_append pairwise_singleton range)
open Prod (fst)
open WriterState (applyTruncateToSegments boundaryIndex keepSegments readSegments truncatePoint)

variable {crc : Bytes → UInt32}

/-! ## Segments in place -/

/-- A segment file with its records. -/
abbrev Part := SegmentFile × List JournalRecord

/-- The records of the segments, in order. -/
def stored (parts : List Part) : List JournalRecord := parts.flatMap Prod.snd

@[simp] theorem stored_nil : stored [] = [] := rfl

@[simp] theorem stored_cons (p : Part) (parts : List Part) :
    stored (p :: parts) = p.2 ++ stored parts := rfl

@[simp] theorem stored_append (ps qs : List Part) : stored (ps ++ qs) = stored ps ++ stored qs := by
  simp [stored]

variable {parts : List Part}

theorem mem_stored {r : JournalRecord} : r ∈ stored parts ↔ ∃ p ∈ parts, r ∈ p.2 := List.mem_flatMap

/-- The bases separate the records, and a segment begins with its base, or has
    the base 0. -/
structure Placed (parts : List Part) : Prop where
  sorted : ∀ p ∈ parts, p.2.Pairwise (·.seq < ·.seq)
  base : ∀ p ∈ parts, ∀ r ∈ p.2, p.1.baseSeq ≤ r.seq
  start : ∀ p ∈ parts, p.1.baseSeq = 0 ∨ ∃ r ∈ p.2, r.seq = p.1.baseSeq
  order : parts.Pairwise fun p q => p.1.baseSeq < q.1.baseSeq ∧ ∀ r ∈ p.2, r.seq < q.1.baseSeq

theorem Placed.left {ps qs : List Part} (h : Placed (ps ++ qs)) : Placed ps where
  sorted p hp := h.sorted p (mem_append_left _ hp)
  base p hp := h.base p (mem_append_left _ hp)
  start p hp := h.start p (mem_append_left _ hp)
  order := (List.pairwise_append.mp h.order).1

theorem Placed.right {ps qs : List Part} (h : Placed (ps ++ qs)) : Placed qs where
  sorted p hp := h.sorted p (mem_append_right _ hp)
  base p hp := h.base p (mem_append_right _ hp)
  start p hp := h.start p (mem_append_right _ hp)
  order := (List.pairwise_append.mp h.order).2.1

theorem Placed.stored_sorted (h : Placed parts) : (stored parts).Pairwise (·.seq < ·.seq) := by
  induction parts with
  | nil => exact List.Pairwise.nil
  | cons p parts ih =>
    have htail : Placed parts := @Placed.right [p] _ h
    rw [stored_cons, pairwise_append]
    refine ⟨h.sorted p mem_cons_self, ih htail, fun r hr r' hr' => ?_⟩
    obtain ⟨q, hq, hrq⟩ := mem_stored.mp hr'
    have hlt := ((List.pairwise_cons.mp h.order).1 q hq).2 r hr
    exact hlt.trans_le (htail.base q hq r' hrq)

theorem Placed.snoc {ps : List Part} (h : Placed ps) {seg : SegmentFile} {rs : List JournalRecord}
    (hsorted : rs.Pairwise (·.seq < ·.seq)) (hbase : ∀ r ∈ rs, seg.baseSeq ≤ r.seq)
    (hstart : seg.baseSeq = 0 ∨ ∃ r ∈ rs, r.seq = seg.baseSeq)
    (hbases : ∀ p ∈ ps, p.1.baseSeq < seg.baseSeq)
    (habove : ∀ r ∈ stored ps, r.seq < seg.baseSeq) : Placed (ps ++ [(seg, rs)]) where
  sorted p hp := by
    rcases List.mem_snoc.mp hp with hp | rfl
    · exact h.sorted p hp
    · exact hsorted
  base p hp := by
    rcases List.mem_snoc.mp hp with hp | rfl
    · exact h.base p hp
    · exact hbase
  start p hp := by
    rcases List.mem_snoc.mp hp with hp | rfl
    · exact h.start p hp
    · exact hstart
  order := by
    rw [pairwise_append]
    refine ⟨h.order, pairwise_singleton _ _, fun p hp q hq => ?_⟩
    rw [List.mem_singleton.mp hq]
    exact ⟨hbases p hp, fun r hr => habove r (mem_stored.mpr ⟨p, hp, hr⟩)⟩

theorem Placed.last {ps : List Part} {seg : SegmentFile} {rs : List JournalRecord}
    (h : Placed (ps ++ [(seg, rs)])) :
    (∀ p ∈ ps, p.1.baseSeq < seg.baseSeq) ∧ ∀ r ∈ stored ps, r.seq < seg.baseSeq := by
  have hlast := (List.pairwise_append.mp h.order).2.2
  refine ⟨fun p hp => (hlast p hp _ (List.mem_singleton.mpr rfl)).1, fun r hr => ?_⟩
  obtain ⟨p, hp, hrp⟩ := mem_stored.mp hr
  exact (hlast p hp _ (List.mem_singleton.mpr rfl)).2 r hrp

/-! ## Reads of the segments -/

theorem lookup_append (rs rs' : List JournalRecord) (seq : ℕ) :
    lookup (rs ++ rs') seq = (lookup rs seq).or (lookup rs' seq) := by
  unfold lookup
  rw [List.find?_append]
  cases rs.find? (·.seq = seq) <;> rfl

theorem lookup_eq_none {rs : List JournalRecord} {seq : ℕ} (h : ∀ r ∈ rs, r.seq ≠ seq) :
    lookup rs seq = none := by
  unfold lookup
  rw [Option.map_eq_none_iff, List.find?_eq_none]
  simpa using h

theorem read_stored (hp : Placed parts) (hok : ∀ p ∈ parts, SegOk crc p.1 p.2) (seq : ℕ) :
    (match (parts.map fst).reverse.find? (·.baseSeq ≤ seq) with
      | none => .ok none
      | some seg => seg.readRecord crc seq) = Except.ok (lookup (stored parts) seq) := by
  induction parts using List.reverseRecOn with
  | nil => rfl
  | append_singleton ps p ih =>
    obtain ⟨hbases, habove⟩ := hp.last
    have hpok := hok p (mem_append_right _ (List.mem_singleton.mpr rfl))
    rw [map_append, List.reverse_append, stored_append, lookup_append]
    simp only [map_cons, map_nil, List.reverse_singleton, List.singleton_append, stored_cons,
      stored_nil, append_nil]
    by_cases hle : p.1.baseSeq ≤ seq
    · rw [List.find?_cons_of_pos (by simpa using hle)]
      have hnone : lookup (stored ps) seq = none :=
        lookup_eq_none fun r hr => by have := habove r hr; omega
      rw [hnone]
      exact hpok.readRecord seq
    · rw [List.find?_cons_of_neg (by simpa using hle)]
      have hnone : lookup p.2 seq = none := lookup_eq_none fun r hr => by
        have := hp.base p (mem_append_right _ (List.mem_singleton.mpr rfl)) r hr
        omega
      rw [hnone, Option.or_none]
      exact ih hp.left fun p hp => hok p (mem_append_left _ hp)

theorem readSegments_stored (hp : Placed parts) (hok : ∀ p ∈ parts, SegOk crc p.1 p.2) (lo hi : ℕ) :
    readSegments crc lo hi (parts.map fst) =
      .ok (between lo hi (stored parts)) := by
  induction parts with
  | nil => rfl
  | cons p parts ih =>
    have htail : Placed parts := @Placed.right [p] _ hp
    have hhead := (List.pairwise_cons.mp hp.order).1
    have hrest := ih htail fun q hq => hok q (List.mem_cons_of_mem _ hq)
    rw [map_cons, readSegments, stored_cons, between_append]
    split
    · rename_i hlt
      rw [between_eq_nil, between_eq_nil]
      · rfl
      · intro r hr
        obtain ⟨q, hq, hrq⟩ := mem_stored.mp hr
        exact .inr (hlt.trans ((hhead q hq).1.trans_le (htail.base q hq r hrq)))
      · exact fun r hr => .inr (hlt.trans_le (hp.base p mem_cons_self r hr))
    · split
      · rename_i hnext
        cases parts with
        | nil => simp at hnext
        | cons q parts =>
          have hle : q.1.baseSeq ≤ lo := by simpa using hnext
          have hskip : between lo hi p.2 = [] := between_eq_nil fun r hr =>
            .inl (((hhead q mem_cons_self).2 r hr).trans_le hle)
          rw [hskip]
          exact hrest
      · rw [(hok p mem_cons_self).readWindow lo hi, hrest]
        rfl

/-! ## Truncation and purge of the segments -/

theorem takeWhile_eq_filter {rs : List JournalRecord} (hs : rs.Pairwise (·.seq < ·.seq)) (k : ℕ) :
    rs.takeWhile (fun r => r.seq ≤ k) = rs.filter fun r => r.seq ≤ k := by
  induction rs with
  | nil => rfl
  | cons r rs ih =>
    obtain ⟨hr, hrest⟩ := List.pairwise_cons.mp hs
    by_cases hle : r.seq ≤ k
    · rw [List.takeWhile_cons_of_pos (by simpa using hle), List.filter_cons_of_pos (by simpa using hle),
        ih hrest]
    · rw [List.takeWhile_cons_of_neg (by simpa using hle), eq_comm, List.filter_eq_nil_iff]
      intro r' hr'
      rcases List.mem_cons.mp hr' with rfl | hr'
      · simpa using hle
      · have := hr r' hr'
        simp
        omega

theorem truncatePoint_eq (rs : List JournalRecord) (torn : Bool) (index : List (ℕ × ℕ)) (k : ℕ) :
    truncatePoint ⟨rs, segmentHeaderSize + span rs, torn, index⟩ k =
      segmentHeaderSize + span (rs.takeWhile fun r => r.seq ≤ k) := by
  unfold truncatePoint
  dsimp only
  split
  · rfl
  · rename_i hlen
    have heq := (List.takeWhile_prefix fun r : JournalRecord => decide (r.seq ≤ k)).eq_of_length_le
      (not_lt.mp hlen)
    rw [heq]

theorem boundaryIndex_snoc (segs : List SegmentFile) (seg : SegmentFile) (k : ℕ) :
    boundaryIndex (segs ++ [seg]) k =
      if seg.baseSeq ≤ k then some segs.length else boundaryIndex segs k := by
  unfold boundaryIndex
  rw [List.length_append, List.length_singleton, List.range_succ, filter_append]
  have hpre : (range segs.length).filter
      (fun i => ((segs ++ [seg])[i]?).any fun s => decide (s.baseSeq ≤ k)) =
      (range segs.length).filter fun i => (segs[i]?).any fun s => decide (s.baseSeq ≤ k) := by
    refine List.filter_congr fun i hi => ?_
    rw [List.getElem?_append_left (List.mem_range.mp hi)]
  rw [hpre]
  split
  · rename_i hle
    rw [List.filter_cons_of_pos (by simpa using hle)]
    simp
  · rename_i hle
    rw [List.filter_cons_of_neg (by simpa using hle)]
    simp

theorem boundaryIndex_lt {segs : List SegmentFile} {k i : ℕ}
    (h : boundaryIndex segs k = some i) : i < segs.length := by
  have hmem := List.mem_of_getLast? h
  exact List.mem_range.mp (List.mem_filter.mp hmem).1

/-- The destructive phase of a truncation keeps the records up to `k`. -/
theorem applyTruncate_stored (hp : Placed parts) (hok : ∀ p ∈ parts, SegOk crc p.1 p.2) {k : ℕ}
    (hk : k ≠ keepNoneSentinel) (now : ℕ) :
    ∃ parts', applyTruncateToSegments crc now (parts.map fst) k =
        .ok (parts'.map fst) ∧ Placed parts' ∧ (∀ p ∈ parts', SegOk crc p.1 p.2) ∧
      stored parts' = (stored parts).filter fun r => r.seq ≤ k := by
  induction parts using List.reverseRecOn with
  | nil => exact ⟨[], by simp [applyTruncateToSegments, hk, boundaryIndex],
      hp, by simp, rfl⟩
  | append_singleton ps p ih =>
    obtain ⟨hbases, habove⟩ := hp.last
    have hlast : p ∈ ps ++ [p] := mem_append_right _ (List.mem_singleton.mpr rfl)
    obtain ⟨seg, rs⟩ := p
    dsimp only at hbases habove
    by_cases hle : seg.baseSeq ≤ k
    · have hall : (stored ps).filter (fun r => r.seq ≤ k) = stored ps := by
        rw [List.filter_eq_self]
        intro r hr
        have := habove r hr
        simp
        omega
      obtain ⟨torn, hscan⟩ := (hok _ hlast).scan
      have hsorted := hp.sorted _ hlast
      have htake := takeWhile_eq_filter hsorted k
      refine ⟨ps ++ [(seg.truncate (segmentHeaderSize + span (rs.takeWhile fun r => r.seq ≤ k)),
        rs.takeWhile fun r => r.seq ≤ k)], ?_, ?_, ?_, ?_⟩
      · unfold applyTruncateToSegments
        rw [if_neg hk, map_append, map_singleton, boundaryIndex_snoc, if_pos hle]
        simp [hscan, truncatePoint_eq]
      · refine hp.left.snoc (hsorted.sublist (List.takeWhile_sublist _)) ?_ ?_ hbases habove
        · exact fun r hr => hp.base _ hlast r ((List.takeWhile_sublist _).subset hr)
        · rcases hp.start _ hlast with h0 | ⟨r, hr, hseq⟩
          · exact .inl h0
          · refine .inr ⟨r, ?_, hseq⟩
            rw [htake, List.mem_filter]
            exact ⟨hr, by simpa [hseq] using hle⟩
      · intro p hp
        rcases List.mem_snoc.mp hp with hp | rfl
        · exact hok p (mem_append_left _ hp)
        · have hseg := hok _ hlast
          rw [← List.takeWhile_append_dropWhile (p := fun r => decide (r.seq ≤ k)) (l := rs)] at hseg
          exact hseg.truncate
      · rw [stored_append, stored_append, filter_append, hall, htake]
        simp
    · obtain ⟨parts', happ, hplaced, hok', hstored⟩ :=
        ih hp.left fun p hp => hok p (mem_append_left _ hp)
      refine ⟨parts', ?_, hplaced, hok', ?_⟩
      · rw [← happ]
        unfold applyTruncateToSegments
        rw [if_neg hk, if_neg hk, map_append, map_singleton, boundaryIndex_snoc, if_neg hle]
        cases hb : boundaryIndex (ps.map fst) k with
        | none => rfl
        | some i =>
          have hlt := boundaryIndex_lt hb
          dsimp only
          rw [List.getElem?_append_left hlt, List.take_append_of_le_length hlt.le]
      · have hnone : rs.filter (fun r => r.seq ≤ k) = [] := by
          rw [List.filter_eq_nil_iff]
          intro r hr
          have : seg.baseSeq ≤ r.seq := hp.base _ hlast r hr
          simp
          omega
        rw [hstored, stored_append, filter_append]
        simp [hnone]

/-- A purge drops leading segments, none with a record above `seq`. -/
theorem keepSegments_stored (hp : Placed parts) (seq : ℕ) :
    ∃ ps qs, parts = ps ++ qs ∧
      keepSegments seq (parts.map fst) = qs.map fst ∧
      ∀ r ∈ stored ps, r.seq ≤ seq := by
  induction parts with
  | nil => exact ⟨[], [], rfl, rfl, by simp⟩
  | cons p parts ih =>
    cases parts with
    | nil => exact ⟨[], [p], rfl, rfl, by simp⟩
    | cons q parts =>
      have htail : Placed (q :: parts) := @Placed.right [p] _ hp
      rw [map_cons, map_cons, keepSegments]
      split
      · obtain ⟨ps, qs, heq, hkeep, hdrop⟩ := ih htail
        refine ⟨p :: ps, qs, by rw [heq]; rfl, hkeep, fun r hr => ?_⟩
        rcases List.mem_append.mp hr with hr | hr
        · have := ((List.pairwise_cons.mp hp.order).1 q mem_cons_self).2 r hr
          omega
        · exact hdrop r hr
      · exact ⟨[], p :: q :: parts, rfl, rfl, by simp⟩

/-! ## The writer -/

namespace WriterState

/-- The bounds and the generation are not the writer's. -/
structure Writes (st st' : WriterState) : Prop where
  segmentSize : st'.segmentSize = st.segmentSize
  lastSeq : st'.lastSeq = st.lastSeq
  firstSeq : st'.firstSeq = st.firstSeq
  truncateGen : st'.truncateGen = st.truncateGen
  poisoned : st'.poisoned = st.poisoned

theorem Writes.refl (st : WriterState) : Writes st st := ⟨rfl, rfl, rfl, rfl, rfl⟩

theorem Writes.trans {st₁ st₂ st₃ : WriterState} (h : Writes st₁ st₂) (h' : Writes st₂ st₃) :
    Writes st₁ st₃ where
  segmentSize := h'.segmentSize.trans h.segmentSize
  lastSeq := h'.lastSeq.trans h.lastSeq
  firstSeq := h'.firstSeq.trans h.firstSeq
  truncateGen := h'.truncateGen.trans h.truncateGen
  poisoned := h'.poisoned.trans h.poisoned

theorem writes_flushRun (st : WriterState) (run : List JournalRecord) :
    Writes st (st.flushRun crc run) := by
  unfold flushRun
  split <;> exact ⟨rfl, rfl, rfl, rfl, rfl⟩

theorem writes_rollSegment (st : WriterState) (now base : ℕ) :
    Writes st (st.rollSegment crc now base) := ⟨rfl, rfl, rfl, rfl, rfl⟩

variable {st : WriterState} {ps : List Part} {seg : SegmentFile} {rs : List JournalRecord}
  {run own rest : List AppendRequest}

theorem appendRecords_nil (seg : SegmentFile) : seg.appendRecords crc [] = seg := by
  simp [SegmentFile.appendRecords, SegmentFile.indexRun]

theorem flushRun_segments (hseg : st.segments = ps.map fst ++ [seg]) (rs : List JournalRecord) :
    (st.flushRun crc rs).segments = ps.map fst ++ [seg.appendRecords crc rs] := by
  unfold flushRun
  rw [hseg, List.getLast?_concat]
  cases hrs : rs.getLast? with
  | none =>
    rw [List.getLast?_eq_none_iff] at hrs
    rw [hrs, appendRecords_nil]
    exact hseg
  | some last => simp

theorem flushRun_pending (hseg : st.segments = ps.map fst ++ [seg])
    (hpend : st.pending = run ++ rest) (hsort : st.pending.Pairwise (·.seq < ·.seq)) :
    (st.flushRun crc (run.map (·.record))).pending = rest := by
  have hfilter : (run ++ rest).filter
      (fun q => q.seq ∉ (run.map (·.record)).map (·.seq)) = rest := by
    rw [hpend, pairwise_append] at hsort
    rw [filter_append]
    have hrun : run.filter (fun q => q.seq ∉ (run.map (·.record)).map (·.seq)) = [] := by
      rw [List.filter_eq_nil_iff]
      intro q hq
      have : q.seq ∈ (run.map (·.record)).map (·.seq) :=
        List.mem_map_of_mem (List.mem_map_of_mem hq)
      simpa using this
    have hrest : rest.filter (fun q => q.seq ∉ (run.map (·.record)).map (·.seq)) = rest := by
      rw [List.filter_eq_self]
      intro q hq
      simp only [List.map_map, List.mem_map, Function.comp_apply, decide_eq_true_eq, not_exists,
        not_and]
      intro q' hq'
      exact (hsort.2.2 q' hq' q hq).ne
    rw [hrun, hrest]
    rfl
  unfold flushRun
  rw [hseg, List.getLast?_concat]
  cases hrs : (run.map (·.record)).getLast? with
  | none =>
    rw [List.getLast?_eq_none_iff, List.map_eq_nil_iff] at hrs
    rw [hpend, hrs]
    rfl
  | some last =>
    rw [hpend]
    exact hfilter

/-- One request of the queue is later than another. -/
def Later (q q' : AppendRequest) : Prop :=
  q.generation < q'.generation ∨ q.generation = q'.generation ∧ q.seq < q'.seq

variable {q : AppendRequest}

theorem find_pending {l : List AppendRequest} (hsort : l.Pairwise (·.seq < ·.seq)) (hq : q ∈ l) :
    l.find? (·.seq = q.seq) = some q := by
  induction l with
  | nil => cases hq
  | cons x l ih =>
    obtain ⟨hx, hrest⟩ := List.pairwise_cons.mp hsort
    rcases List.mem_cons.mp hq with rfl | hq
    · exact List.find?_cons_of_pos (by simp)
    · rw [List.find?_cons_of_neg (by simpa using (hx q hq).ne)]
      exact ih hrest hq

theorem eq_of_stamp {queue : List AppendRequest} (hqueue : queue.Pairwise Later)
    {q q' : AppendRequest} (hq : q ∈ queue) (hq' : q' ∈ queue)
    (hgen : q.generation = q'.generation) (hseq : q.seq = q'.seq) : q = q' := by
  induction queue with
  | nil => cases hq
  | cons x queue ih =>
    obtain ⟨hx, hrest⟩ := List.pairwise_cons.mp hqueue
    rcases List.mem_cons.mp hq with rfl | hmem <;> rcases List.mem_cons.mp hq' with rfl | hmem'
    · rfl
    · rcases hx q' hmem' with h | h <;> omega
    · rcases hx q hmem with h | h <;> omega
    · exact ih hrest hmem hmem'

theorem owns_iff {queue : List AppendRequest} (hqueue : queue.Pairwise Later)
    (hsub : st.pending.Sublist queue) (hsort : st.pending.Pairwise (·.seq < ·.seq)) (hq : q ∈ queue) :
    st.owns q ↔ q ∈ st.pending := by
  unfold owns
  rw [Option.any_eq_true]
  constructor
  · rintro ⟨q', hfind, hgen⟩
    have hmem := List.mem_of_find?_eq_some hfind
    have hseq : q'.seq = q.seq := by simpa using List.find?_some hfind
    rw [← eq_of_stamp hqueue (hsub.subset hmem) hq (by simpa using hgen) hseq]
    exact hmem
  · intro h
    exact ⟨q, find_pending hsort h, by simp⟩

/-- The writer in a batch: `run` is for the last segment, `own` are the
    requests still to come that own their sequence. -/
structure InBatch (crc : Bytes → UInt32) (st : WriterState) (ps : List Part) (seg : SegmentFile)
    (rs : List JournalRecord) (run own rest : List AppendRequest) : Prop where
  segs : st.segments = ps.map Prod.fst ++ [seg]
  ok : ∀ p ∈ ps ++ [(seg, rs)], SegOk crc p.1 p.2
  placed : Placed (ps ++ [(seg, rs ++ run.map (·.record))])
  pending : st.pending = run ++ (own ++ rest)
  sorted : st.pending.Pairwise (·.seq < ·.seq)
  fits : ∀ q ∈ st.pending, q.record.Fits ∧ q.record.total ≤ st.segmentSize
  above : ∀ r ∈ stored ps ++ rs, ∀ q ∈ st.pending, r.seq < q.seq

theorem InBatch.above_own (h : InBatch crc st ps seg rs run own rest) (hq : q ∈ own ++ rest) :
    ∀ r ∈ stored (ps ++ [(seg, rs ++ run.map (·.record))]), r.seq < q.seq := by
  intro r hr
  have hsort := h.sorted
  rw [h.pending] at hsort
  have hmem : q ∈ st.pending := h.pending ▸ mem_append_right _ hq
  rw [stored_append, stored_cons, stored_nil, append_nil, ← List.append_assoc] at hr
  rcases List.mem_append.mp hr with hr | hr
  · exact h.above r hr q hmem
  · obtain ⟨q', hq', rfl⟩ := List.mem_map.mp hr
    exact (List.pairwise_append.mp hsort).2.2 q' hq' q hq

theorem InBatch.flush (h : InBatch crc st ps seg rs run own rest) :
    let seg' := seg.appendRecords crc (run.map (·.record))
    InBatch crc (st.flushRun crc (run.map (·.record))) ps seg' (rs ++ run.map (·.record)) [] own
      rest := by
  intro seg'
  have hpend : (st.flushRun crc (run.map (·.record))).pending = own ++ rest :=
    flushRun_pending h.segs h.pending h.sorted
  have hlast : (seg, rs ++ run.map (·.record)) ∈ ps ++ [(seg, rs ++ run.map (·.record))] :=
    mem_append_right _ (List.mem_singleton.mpr rfl)
  have hsub : (own ++ rest).Sublist st.pending := h.pending ▸ List.sublist_append_right _ _
  exact {
    segs := flushRun_segments h.segs _
    ok := by
      intro p hp
      rcases List.mem_snoc.mp hp with hp | rfl
      · exact h.ok p (mem_append_left _ hp)
      · have hseg := h.ok _ (mem_append_right _ (List.mem_singleton.mpr rfl))
        refine hseg.appendRecords (fun r hr => ?_) (h.placed.sorted _ hlast)
        obtain ⟨q, hq, rfl⟩ := List.mem_map.mp hr
        exact (h.fits q (h.pending ▸ mem_append_left _ hq)).1
    placed := by
      rw [map_nil, append_nil]
      obtain ⟨hbases, habove⟩ := h.placed.last
      exact h.placed.left.snoc (h.placed.sorted _ hlast) (h.placed.base _ hlast)
        (h.placed.start _ hlast) hbases habove
    pending := hpend
    sorted := by
      rw [hpend]
      exact h.sorted.sublist hsub
    fits := by
      rw [hpend, (writes_flushRun st _).segmentSize]
      exact fun q hq => h.fits q (hsub.subset hq)
    above := by
      rw [hpend]
      intro r hr q hq
      refine h.above_own hq r ?_
      rw [stored_append]
      simpa using hr }

theorem segOk_synced {s : SegmentFile} (h : SegOk crc s rs) (n : ℕ) :
    SegOk crc { s with synced := n } rs := ⟨h.fits, h.sorted, h.bytes, h.size, h.index⟩

theorem segOk_create (base now : ℕ) : SegOk crc (SegmentFile.create crc base now) [] where
  fits := by simp
  sorted := List.Pairwise.nil
  bytes := ⟨encodeHeader crc base now, 0, length_encodeHeader crc base now, by
    simp [SegmentFile.create]⟩
  size := rfl
  index := rfl

theorem segOk_activate (size base now : ℕ) :
    SegOk crc (SegmentFile.activatePreallocTemp crc size base now) [] where
  fits := by simp
  sorted := List.Pairwise.nil
  bytes := ⟨encodeHeader crc base now, size - segmentHeaderSize, length_encodeHeader crc base now,
    by simp [SegmentFile.activatePreallocTemp]⟩
  size := rfl
  index := rfl

/-- The segment that a roll opens. -/
def nextSegment (crc : Bytes → UInt32) (now : ℕ) (st : WriterState) (base : ℕ) : SegmentFile :=
  if st.preallocate then SegmentFile.activatePreallocTemp crc st.segmentSize base now
  else SegmentFile.create crc base now

theorem nextSegment_ok (now : ℕ) (st : WriterState) (base : ℕ) :
    SegOk crc (nextSegment crc now st base) [] ∧ (nextSegment crc now st base).baseSeq = base ∧
      (nextSegment crc now st base).size = segmentHeaderSize := by
  unfold nextSegment
  split
  · exact ⟨segOk_activate _ _ _, rfl, rfl⟩
  · exact ⟨segOk_create _ _, rfl, rfl⟩

/-- The last segment as a roll leaves it. -/
def sealSegment (st : WriterState) (seg : SegmentFile) : SegmentFile :=
  if st.activeSegmentDirty then { seg with synced := seg.size } else seg

theorem sealSegment_base (st : WriterState) (seg : SegmentFile) :
    (sealSegment st seg).baseSeq = seg.baseSeq := by
  unfold sealSegment
  split <;> rfl

theorem sealSegment_ok (h : SegOk crc seg rs) (st : WriterState) :
    SegOk crc (sealSegment st seg) rs := by
  unfold sealSegment
  split
  · exact segOk_synced h _
  · exact h

theorem rollSegment_segments (hseg : st.segments = ps.map fst ++ [seg]) (now base : ℕ) :
    (st.rollSegment crc now base).segments =
      ps.map fst ++ [sealSegment st seg] ++ [nextSegment crc now st base] := by
  unfold rollSegment nextSegment sealSegment
  split <;> simp [hseg]

/-- The last segment is full: its records are on disk, and the next request
    opens a segment at its own sequence. -/
theorem InBatch.roll (h : InBatch crc st ps seg rs [] (q :: own) rest) (hne : rs ≠ []) (now : ℕ) :
    InBatch crc (st.rollSegment crc now q.seq) (ps ++ [(sealSegment st seg, rs)])
      (nextSegment crc now st q.seq) [] [q] own rest := by
  have hplaced := h.placed
  rw [map_nil, append_nil] at hplaced
  have hlast : (seg, rs) ∈ ps ++ [(seg, rs)] := mem_append_right _ (List.mem_singleton.mpr rfl)
  have habove : ∀ r ∈ stored ps ++ rs, r.seq < q.seq := fun r hr =>
    h.above r hr q (h.pending ▸ by simp)
  obtain ⟨hnext, hbase, -⟩ := @nextSegment_ok crc now st q.seq
  have hsealed : Placed (ps ++ [(sealSegment st seg, rs)]) := by
    obtain ⟨hb, ha⟩ := hplaced.last
    have hseg := sealSegment_base st seg
    exact hplaced.left.snoc (hplaced.sorted _ hlast) (hseg ▸ hplaced.base _ hlast)
      (hseg ▸ hplaced.start _ hlast) (hseg ▸ hb) (hseg ▸ ha)
  exact { h with
    segs := by
      rw [rollSegment_segments h.segs]
      simp
    ok := by
      intro p hp
      rcases List.mem_snoc.mp hp with hp | rfl
      · rcases List.mem_snoc.mp hp with hp | rfl
        · exact h.ok p (mem_append_left _ hp)
        · exact sealSegment_ok (h.ok _ hlast) st
      · exact hnext
    placed := by
      refine hsealed.snoc (pairwise_singleton _ _) ?_ (.inr ⟨q.record, by simp, hbase.symm⟩)
        ?_ ?_
      · intro r hr
        rw [map_singleton, List.nil_append, mem_singleton] at hr
        rw [hr, hbase]
        exact le_rfl
      · -- the full segment is not empty, so its base is below the request
        intro p hp
        rw [hbase]
        obtain ⟨r, hr⟩ := List.exists_mem_of_ne_nil _ hne
        have hrq := habove r (mem_append_right _ hr)
        have hle : seg.baseSeq ≤ r.seq := hplaced.base _ hlast r hr
        rcases List.mem_snoc.mp hp with hp | rfl
        · have hlt : p.1.baseSeq < seg.baseSeq := hplaced.last.1 p hp
          omega
        · rw [sealSegment_base]
          exact hle.trans_lt hrq
      · intro r hr
        rw [hbase]
        rw [stored_append] at hr
        exact habove r (by simpa using hr)
    above := by
      intro r hr q' hq'
      rw [append_nil, stored_append] at hr
      exact h.above r (by simpa using hr) q' hq' }

theorem InBatch.push (h : InBatch crc st ps seg rs run (q :: own) rest) :
    InBatch crc st ps seg rs (run ++ [q]) own rest where
  segs := h.segs
  ok := h.ok
  placed := by
    have hlast : (seg, rs ++ run.map (·.record)) ∈ ps ++ [(seg, rs ++ run.map (·.record))] :=
      mem_append_right _ (List.mem_singleton.mpr rfl)
    have habove := h.above_own (q := q) mem_cons_self
    obtain ⟨hb, ha⟩ := h.placed.last
    have hbelow : ∀ r ∈ rs ++ run.map (·.record), r.seq < q.seq := fun r hr => habove r (by
      rw [stored_append]
      exact mem_append_right _ (by simpa using hr))
    rw [map_append, ← List.append_assoc]
    refine h.placed.left.snoc ?_ ?_ ?_ hb ha
    · rw [pairwise_append]
      refine ⟨h.placed.sorted _ hlast, pairwise_singleton _ _, fun r hr r' hr' => ?_⟩
      rw [map_singleton, mem_singleton] at hr'
      rw [hr']
      exact hbelow r hr
    · intro r hr
      rcases List.mem_append.mp hr with hr | hr
      · exact h.placed.base _ hlast r hr
      · rw [map_singleton, mem_singleton] at hr
        rw [hr]
        rcases h.placed.start _ hlast with h0 | ⟨r', hr', hseq⟩
        · exact h0.le.trans (Nat.zero_le _)
        · exact hseq ▸ (hbelow r' hr').le
    · rcases h.placed.start _ hlast with h0 | ⟨r', hr', hseq⟩
      · exact .inl h0
      · exact .inr ⟨r', mem_append_left _ hr', hseq⟩
  pending := by
    rw [h.pending]
    simp
  sorted := h.sorted
  fits := h.fits
  above := h.above

/-- What a batch leaves: the owned requests are stored, in order. -/
structure Batched (crc : Bytes → UInt32) (st st' : WriterState) (parts : List Part)
    (records : List JournalRecord) (rest : List AppendRequest) : Prop where
  writes : Writes st st'
  pending : st'.pending = rest
  segs : st'.segments = parts.map Prod.fst
  ok : ∀ p ∈ parts, SegOk crc p.1 p.2
  placed : Placed parts
  stored : stored parts = records

/-- What the end of a run and a roll keep, a batch keeps. -/
structure BatchRule (crc : Bytes → UInt32) (now : ℕ) (X : WriterState → List Part → Prop) :
    Prop where
  flush : ∀ {st : WriterState} {ps : List Part} {seg : SegmentFile} {rs : List JournalRecord}
    {run own rest : List AppendRequest}, InBatch crc st ps seg rs run own rest →
      X st (ps ++ [(seg, rs)]) →
        X (st.flushRun crc (run.map (·.record)))
          (ps ++ [(seg.appendRecords crc (run.map (·.record)), rs ++ run.map (·.record))])
  roll : ∀ {st : WriterState} {ps : List Part} {seg : SegmentFile} {rs : List JournalRecord}
    {q : AppendRequest} {own rest : List AppendRequest}, InBatch crc st ps seg rs [] (q :: own) rest →
      X st (ps ++ [(seg, rs)]) →
        X (st.rollSegment crc now q.seq)
          (ps ++ [(sealSegment st seg, rs)] ++ [(nextSegment crc now st q.seq, [])])
  start : ∀ {st : WriterState} (base : ℕ), st.segments = [] → X st [] →
    X (st.rollSegment crc now base) [(nextSegment crc now st base, [])]

theorem batchRule_true (crc : Bytes → UInt32) (now : ℕ) : BatchRule crc now fun _ _ => True :=
  ⟨fun _ _ => trivial, fun _ _ => trivial, fun _ _ _ => trivial⟩

variable {done todo later : List AppendRequest}

theorem not_mem_of_later (h : (done ++ todo).Pairwise Later) (hd : q ∈ done) : q ∉ todo := by
  intro ht
  rcases (List.pairwise_append.mp h).2.2 q hd q ht with h | h <;> omega

variable {X : WriterState → List Part → Prop}

theorem InBatch.loop {now : ℕ} (hX : BatchRule crc now X)
    (h : InBatch crc st ps seg rs run own rest) (hx : X st (ps ++ [(seg, rs)]))
    (hsize : segmentHeaderSize < st.segmentSize) (hqueue : (done ++ (todo ++ later)).Pairwise Later)
    (hrun : run.Sublist done) (hown : own.Sublist todo) (hrest : rest.Sublist later) {projected : ℕ}
    (hproj : projected = segmentHeaderSize + span (rs ++ run.map (·.record))) {prev : Option ℕ}
    (hprev : ∀ l ∈ prev, ∀ q ∈ own, l < q.seq) :
    ∃ st' last parts,
      st.writeLoop crc now (run.map (·.record)) projected prev todo = (st', .ok last) ∧
      Batched crc st st' parts (stored ps ++ rs ++ run.map (·.record) ++ own.map (·.record)) rest ∧
      X st' parts := by
  induction todo generalizing st ps seg rs run own projected prev done with
  | nil =>
    obtain rfl := List.sublist_nil.mp hown
    have hplaced := h.flush.placed
    rw [map_nil, append_nil] at hplaced
    refine ⟨_, prev, _, rfl, ?_, hX.flush h hx⟩
    exact ⟨writes_flushRun _ _, h.flush.pending, by simp [h.flush.segs], h.flush.ok, hplaced,
      by simp [stored_append]⟩
  | cons q todo ih =>
    have hsub : st.pending.Sublist (done ++ (q :: todo ++ later)) :=
      h.pending ▸ hrun.append (hown.append hrest)
    have howns := owns_iff hqueue hsub h.sorted (q := q) (by simp)
    have hqueue' : ((done ++ [q]) ++ (todo ++ later)).Pairwise Later := by
      simpa using hqueue
    have hq : q ∉ todo ++ later := not_mem_of_later hqueue' (by simp)
    have hdone : q ∉ done := fun hd => not_mem_of_later hqueue hd (by simp)
    unfold writeLoop
    by_cases hmem : q ∈ own
    · -- the request is the next that owns its sequence
      have howned : st.owns q := howns.mpr (h.pending ▸ by simp [hmem])
      obtain ⟨own', rfl, hown'⟩ : ∃ own', own = q :: own' ∧ own'.Sublist todo := by
        cases hown with
        | cons _ hs => exact absurd (hs.subset hmem) fun ht => hq (mem_append_left _ ht)
        | cons_cons _ hs => exact ⟨_, rfl, hs⟩
      have hnone : prev.filter (q.seq ≤ ·) = none := by
        rw [Option.filter_eq_none_iff]
        intro l hl
        have := hprev l hl q mem_cons_self
        simp
        omega
      have hfit := (h.fits q (h.pending ▸ by simp)).2
      have hlater : ∀ l ∈ some q.seq, ∀ q' ∈ own', l < q'.seq := by
        intro l hl q' hq'
        obtain rfl := Option.mem_some.mp hl
        have hsort := h.sorted
        rw [h.pending, pairwise_append] at hsort
        exact (List.pairwise_cons.mp hsort.2.1).1 q' (mem_append_left _ hq')
      rw [if_neg (by simpa using howned), hnone]
      dsimp only
      rw [if_neg (by omega)]
      split
      · rename_i hroll
        have hfull : st.segmentSize ≤ projected := by
          rcases hroll with hnil | hfull
          · simp [h.segs] at hnil
          · exact hfull
        have hne : rs ++ run.map (·.record) ≠ [] := by
          intro hnil
          rw [hnil] at hproj
          simp at hproj
          omega
        obtain ⟨st', last, parts, heq, hb, hx'⟩ :=
          ih (h.flush.roll hne now) (hX.roll h.flush (hX.flush h hx))
            ((writes_flushRun st _).segmentSize ▸ hsize) hqueue'
            (List.sublist_append_right done [q]) hown'
            (show segmentHeaderSize + q.record.total = _ by simp) hlater
        have hw := ((writes_flushRun st _).trans (writes_rollSegment _ _ _)).trans hb.writes
        refine ⟨st', last, parts, heq, { hb with writes := hw, stored := ?_ }, hx'⟩
        rw [hb.stored, stored_append]
        simp
      · obtain ⟨st', last, parts, heq, hb, hx'⟩ :=
          ih h.push hx hsize hqueue' (hrun.append (List.Sublist.refl [q])) hown' rfl hlater
        refine ⟨st', last, parts, ?_, { hb with stored := ?_ }, hx'⟩
        · rw [← heq, hproj]
          simp [Nat.add_assoc]
        · rw [hb.stored]
          simp
    · have hskip : ¬ st.owns q := by
        rw [howns, h.pending]
        simp only [List.mem_append, not_or]
        exact ⟨fun hr => hdone (hrun.subset hr), hmem,
          fun hr => hq (mem_append_right _ (hrest.subset hr))⟩
      have hown' : own.Sublist todo := by
        cases hown with
        | cons _ hs => exact hs
        | cons_cons _ hs => exact absurd mem_cons_self hmem
      rw [if_pos hskip]
      exact ih h hx hsize hqueue' (hrun.trans (List.sublist_append_left done [q])) hown' hproj hprev

/-- The records and requests that a batch finds. -/
structure BeforeBatch (crc : Bytes → UInt32) (st : WriterState) (parts : List Part) : Prop where
  segs : st.segments = parts.map Prod.fst
  ok : ∀ p ∈ parts, SegOk crc p.1 p.2
  placed : Placed parts
  sorted : st.pending.Pairwise (·.seq < ·.seq)
  fits : ∀ q ∈ st.pending, q.record.Fits ∧ q.record.total ≤ st.segmentSize
  above : ∀ r ∈ stored parts, ∀ q ∈ st.pending, r.seq < q.seq

theorem BeforeBatch.open (h : BeforeBatch crc st []) (hpend : st.pending = q :: own ++ rest)
    (now : ℕ) :
    InBatch crc (st.rollSegment crc now q.seq) [] (nextSegment crc now st q.seq) [] [q] own rest := by
  obtain ⟨hnext, hbase, -⟩ := @nextSegment_ok crc now st q.seq
  exact { h with
    segs := by
      unfold rollSegment nextSegment
      simp [h.segs]
    ok := by
      intro p hp
      rw [List.mem_singleton.mp hp]
      exact hnext
    placed := by
      refine @Placed.snoc [] h.placed _ _ (pairwise_singleton _ _) ?_
        (.inr ⟨q.record, by simp, hbase.symm⟩) (by simp) (by simp)
      intro r hr
      rw [map_singleton, List.nil_append, mem_singleton] at hr
      rw [hr, hbase]
      exact le_rfl
    pending := hpend
    above := by simp }

theorem flushRun_nil (st : WriterState) : st.flushRun crc [] = st := by
  unfold flushRun
  split
  · rename_i h
    cases h
  · rfl

theorem BeforeBatch.loop_nil {now : ℕ} (hX : BatchRule crc now X) (h : BeforeBatch crc st [])
    (hx : X st []) (hsize : segmentHeaderSize < st.segmentSize)
    (hqueue : (done ++ (todo ++ later)).Pairwise Later) (hown : own.Sublist todo)
    (hrest : rest.Sublist later) (hpend : st.pending = own ++ rest) :
    ∃ st' last parts, st.writeLoop crc now [] 0 none todo = (st', .ok last) ∧
      Batched crc st st' parts (own.map (·.record)) rest ∧ X st' parts := by
  induction todo generalizing done with
  | nil =>
    obtain rfl := List.sublist_nil.mp hown
    refine ⟨st, none, [], by rw [writeLoop, flushRun_nil], ?_, hx⟩
    exact ⟨Writes.refl st, hpend, h.segs, by simp, h.placed, rfl⟩
  | cons q todo ih =>
    have hsub : st.pending.Sublist (done ++ (q :: todo ++ later)) :=
      hpend ▸ (hown.append hrest).trans (List.sublist_append_right _ _)
    have howns := owns_iff hqueue hsub h.sorted (q := q) (by simp)
    have hqueue' : ((done ++ [q]) ++ (todo ++ later)).Pairwise Later := by
      simpa using hqueue
    have hq : q ∉ todo ++ later := not_mem_of_later hqueue' (by simp)
    unfold writeLoop
    by_cases hmem : q ∈ own
    · have howned : st.owns q := howns.mpr (hpend ▸ by simp [hmem])
      obtain ⟨own', rfl, hown'⟩ : ∃ own', own = q :: own' ∧ own'.Sublist todo := by
        cases hown with
        | cons _ hs => exact absurd (hs.subset hmem) fun ht => hq (mem_append_left _ ht)
        | cons_cons _ hs => exact ⟨_, rfl, hs⟩
      have hfit := (h.fits q (hpend ▸ by simp)).2
      have hlater : ∀ l ∈ some q.seq, ∀ q' ∈ own', l < q'.seq := by
        intro l hl q' hq'
        obtain rfl := Option.mem_some.mp hl
        have hsort := h.sorted
        rw [hpend] at hsort
        exact (List.pairwise_cons.mp hsort).1 q' (mem_append_left _ hq')
      rw [if_neg (by simpa using howned), Option.filter_none]
      rw [if_neg (by omega), if_pos (.inl (by simp [h.segs]))]
      rw [flushRun_nil]
      obtain ⟨st', last, parts, heq, hb, hx'⟩ :=
        (h.open hpend now).loop hX (hX.start q.seq h.segs hx) hsize hqueue'
          (List.sublist_append_right done [q]) hown' hrest
          (show segmentHeaderSize + q.record.total = _ by simp) hlater
      refine ⟨st', last, parts, heq, ?_, hx'⟩
      exact ⟨(writes_rollSegment _ _ _).trans hb.writes, hb.pending, hb.segs, hb.ok, hb.placed,
        by simpa using hb.stored⟩
    · have hskip : ¬ st.owns q := by
        rw [howns, hpend]
        simp only [List.mem_append, not_or]
        exact ⟨hmem, fun hr => hq (mem_append_right _ (hrest.subset hr))⟩
      have hown' : own.Sublist todo := by
        cases hown with
        | cons _ hs => exact hs
        | cons_cons _ hs => exact absurd mem_cons_self hmem
      rw [if_pos hskip]
      exact ih hqueue' hown'

theorem BeforeBatch.writeBatch {parts : List Part} {now : ℕ} (hX : BatchRule crc now X)
    (h : BeforeBatch crc st parts) (hx : X st parts) (hsize : segmentHeaderSize < st.segmentSize)
    {batch later : List AppendRequest} (hqueue : (batch ++ later).Pairwise Later)
    (hown : own.Sublist batch) (hrest : rest.Sublist later) (hpend : st.pending = own ++ rest) :
    ∃ st' res parts', st.writeBatch crc now batch = (st', .ok res) ∧
      Batched crc st st' parts' (stored parts ++ own.map (·.record)) rest ∧ X st' parts' := by
  unfold WriterState.writeBatch
  obtain rfl | ⟨ps, ⟨seg, rs⟩, rfl⟩ := List.eq_nil_or_concat' parts
  · obtain ⟨st', last, parts', heq, hb, hx'⟩ :=
      h.loop_nil hX hx hsize (show ([] ++ (batch ++ later)).Pairwise Later from hqueue) hown hrest hpend
    simp only [h.segs, map_nil, List.getLast?_nil, Option.map_none, Option.getD_none, heq]
    exact ⟨st', _, parts', rfl, by simpa using hb, hx'⟩
  · have hsegs : st.segments = ps.map fst ++ [seg] := by simp [h.segs]
    have hseg := h.ok _ (mem_append_right _ (List.mem_singleton.mpr rfl))
    have hbatch : InBatch crc st ps seg rs [] own rest :=
      ⟨hsegs, h.ok, by simpa using h.placed, hpend, h.sorted, h.fits, by
        simpa [stored_append] using h.above⟩
    obtain ⟨st', last, parts', heq, hb, hx'⟩ := hbatch.loop hX hx hsize
      (show ([] ++ (batch ++ later)).Pairwise Later from hqueue) (List.Sublist.refl _) hown hrest rfl
      (show ∀ l ∈ (none : Option ℕ), ∀ q ∈ own, l < q.seq by simp)
    have hlen : seg.size = segmentHeaderSize + span rs := hseg.size
    simp only [map_nil, append_nil] at heq hb
    simp only [hsegs, List.getLast?_concat, Option.map_some, Option.getD_some, hlen, heq]
    exact ⟨st', _, parts', rfl, by simpa [stored_append] using hb, hx'⟩

end WriterState

end UltimaCluster
