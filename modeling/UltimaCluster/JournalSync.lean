/-
  Which bytes of the segments are synced, and the marks of the writer.

  Every segment but the last is synced as a whole, and the last one as a whole
  unless it is marked dirty.  Pending records are above the highest written
  sequence.
-/
import UltimaCluster.JournalWriter

namespace UltimaCluster

variable {crc : Bytes → UInt32} {mode : Durability}

/-! ## Synced segments -/

/-- The synced bytes of the last segment end at a record, and no claimed record
    is behind them. -/
structure SyncOk (C : ℕ → Prop) (dirty : Bool) (ps : List Part) (seg : SegmentFile)
    (rs : List JournalRecord) : Prop where
  sealed : ∀ p ∈ ps, p.1.synced = p.1.size
  clean : dirty = false → seg.synced = seg.size
  covered : ∃ kept rest, rs = kept ++ rest ∧ seg.synced = segmentHeaderSize + span kept ∧
    ∀ r ∈ rest, ¬ C r.seq

def Synced (C : ℕ → Prop) (dirty : Bool) (parts : List Part) : Prop :=
  ∀ ps seg rs, parts = ps ++ [(seg, rs)] → SyncOk C dirty ps seg rs

variable {C : ℕ → Prop} {parts : List Part} {st : WriterState}

theorem synced_of_all (hok : ∀ p ∈ parts, SegOk crc p.1 p.2)
    (hall : ∀ p ∈ parts, p.1.synced = p.1.size) (C : ℕ → Prop) (dirty : Bool) :
    Synced C dirty parts := by
  rintro ps seg rs rfl
  have hlast : (seg, rs) ∈ ps ++ [(seg, rs)] := List.mem_append_right _ (List.mem_singleton.mpr rfl)
  refine ⟨fun p hp => hall p (List.mem_append_left _ hp), fun _ => hall _ hlast, rs, [], by simp, ?_,
    by simp⟩
  exact (hall _ hlast).trans (hok _ hlast).size

theorem recordsIn_take {seg : SegmentFile} {kept rest : List JournalRecord}
    (h : SegOk crc seg (kept ++ rest)) (hsync : seg.synced = segmentHeaderSize + span kept) :
    JournalThreads.recordsIn crc (seg.bytes.take seg.synced) = kept := by
  have hlen : segmentHeaderSize + span kept ≤ seg.bytes.length := by
    obtain ⟨hdr, z, hhdr, hbytes⟩ := h.bytes
    rw [hbytes]
    simp [hhdr]
  obtain ⟨torn, hscan⟩ := h.truncate.scan
  have hbytes : (seg.truncate (segmentHeaderSize + span kept)).bytes = seg.bytes.take seg.synced := by
    simp only [SegmentFile.truncate]
    rw [Nat.sub_eq_zero_of_le hlen, hsync]
    simp
  unfold SegmentFile.scan at hscan
  rw [hbytes] at hscan
  unfold JournalThreads.recordsIn
  rw [hscan]

theorem Synced.record {dirty : Bool} (h : Synced C dirty parts)
    (hok : ∀ p ∈ parts, SegOk crc p.1 p.2) {r : JournalRecord} (hr : r ∈ stored parts)
    (hc : C r.seq) :
    ∃ seg ∈ parts.map Prod.fst, r ∈ JournalThreads.recordsIn crc (seg.bytes.take seg.synced) := by
  obtain ⟨p, hp, hrp⟩ := mem_stored.mp hr
  obtain ⟨ps, ⟨seg, rs⟩, rfl⟩ := (List.eq_nil_or_concat' parts).resolve_left (List.ne_nil_of_mem hp)
  obtain ⟨hsealed, -, kept, rest, rfl, hsync, hrest⟩ := h ps seg rs rfl
  refine ⟨p.1, List.mem_map_of_mem hp, ?_⟩
  rcases List.mem_snoc.mp hp with hps | rfl
  · have hseg : SegOk crc p.1 (p.2 ++ []) := by simpa using hok p hp
    rw [recordsIn_take hseg ((hsealed p hps).trans (hok p hp).size)]
    exact hrp
  · rw [recordsIn_take (hok _ hp) hsync]
    exact (List.mem_append.mp hrp).resolve_right fun hr => hrest r hr hc

/-! ## The writer's marks -/

/-- What the writer keeps true of its marks: `C` are the claimed sequences. -/
structure Tracked (C : ℕ → Prop) (st : WriterState) (parts : List Part) : Prop where
  sync : Synced C st.activeSegmentDirty parts
  unclaimed : ∀ q ∈ st.pending, ¬ C q.seq
  bounded : ∀ q ∈ st.pending, ∃ l ∈ st.lastSeq, q.seq ≤ l
  ahead : st.persistedAny = true → ∀ q ∈ st.pending, st.persistedHwm < q.seq
  marked : st.persistedAny = true → ∃ l ∈ st.lastSeq, st.persistedHwm ≤ l
  zero : st.persistedAny = false → st.persistedHwm = 0
  written : ∀ r ∈ stored parts, st.persistedAny = true ∧ r.seq ≤ st.persistedHwm

open WriterState in
theorem tracked_flush {ps : List Part} {seg : SegmentFile} {rs : List JournalRecord}
    {run own rest : List AppendRequest} (h : InBatch crc st ps seg rs run own rest)
    (hx : Tracked C st (ps ++ [(seg, rs)])) :
    Tracked C (st.flushRun crc (run.map (·.record)))
      (ps ++ [(seg.appendRecords crc (run.map (·.record)), rs ++ run.map (·.record))]) := by
  obtain rfl | ⟨run, x, rfl⟩ := List.eq_nil_or_concat' run
  · rw [List.map_nil, flushRun_nil, appendRecords_nil, List.append_nil]
    exact hx
  · have hpend : (st.flushRun crc ((run ++ [x]).map (·.record))).pending = own ++ rest :=
      flushRun_pending h.segs h.pending h.sorted
    have hmem : ∀ q ∈ own ++ rest, q ∈ st.pending := fun q hq =>
      h.pending ▸ List.mem_append_right _ hq
    have hx' : x ∈ st.pending := h.pending ▸ by simp
    have hlast : ((run ++ [x]).map (·.record)).getLast? = some x.record := by simp
    have hsegs : st.segments.getLast? = some seg := by rw [h.segs, List.getLast?_concat]
    have hafter : ∀ q ∈ own ++ rest, x.seq < q.seq := by
      have hsort := h.sorted
      rw [h.pending] at hsort
      exact fun q hq => (List.pairwise_append.mp hsort).2.2 x (by simp) q hq
    have hstate : (st.flushRun crc ((run ++ [x]).map (·.record))).persistedHwm =
          max st.persistedHwm x.seq ∧
        (st.flushRun crc ((run ++ [x]).map (·.record))).activeSegmentDirty = true ∧
        (st.flushRun crc ((run ++ [x]).map (·.record))).persistedAny = true := by
      unfold flushRun
      rw [hsegs, hlast]
      exact ⟨rfl, rfl, rfl⟩
    obtain ⟨hhwm, hdirty, hany⟩ := hstate
    have hw := @writes_flushRun crc st ((run ++ [x]).map (·.record))
    have hbelow : ∀ q ∈ own ++ rest, st.persistedHwm < q.seq := by
      intro q hq
      cases hp : st.persistedAny with
      | true => exact hx.ahead hp q (hmem q hq)
      | false =>
        have := hafter q hq
        have := hx.zero hp
        omega
    obtain ⟨l, hl, hxl⟩ := hx.bounded x hx'
    refine ⟨?_, ?_, ?_, ?_, ?_, ?_, ?_⟩
    · intro ps' seg' rs' heq
      obtain ⟨rfl, hpair⟩ := List.append_inj' heq rfl
      obtain ⟨rfl, rfl⟩ := Prod.mk.inj (List.singleton_inj.mp hpair)
      obtain ⟨h1, -, kept, more, rfl, h4, h5⟩ := hx.sync ps seg rs rfl
      refine ⟨h1, fun hd => absurd (hdirty.symm.trans hd) (by simp), kept,
        more ++ (run ++ [x]).map (·.record), by simp, h4, fun r hr => ?_⟩
      rcases List.mem_append.mp hr with hr | hr
      · exact h5 r hr
      · obtain ⟨q, hq, rfl⟩ := List.mem_map.mp hr
        exact hx.unclaimed q (h.pending ▸ List.mem_append_left _ hq)
    · rw [hpend]
      exact fun q hq => hx.unclaimed q (hmem q hq)
    · rw [hpend, hw.lastSeq]
      exact fun q hq => hx.bounded q (hmem q hq)
    · rw [hpend, hhwm]
      intro _ q hq
      have := hafter q hq
      have := hbelow q hq
      omega
    · rw [hhwm, hw.lastSeq]
      intro _
      refine ⟨l, hl, max_le ?_ hxl⟩
      cases hp : st.persistedAny with
      | true => exact (hx.ahead hp x hx').le.trans hxl
      | false => rw [hx.zero hp]; exact Nat.zero_le _
    · rw [hany]
      simp
    · intro r hr
      rw [hany, hhwm]
      refine ⟨rfl, ?_⟩
      rw [stored_append, stored_cons, stored_nil, List.append_nil, ← List.append_assoc] at hr
      rcases List.mem_append.mp hr with hr | hr
      · have hr : r ∈ stored (ps ++ [(seg, rs)]) := by simpa [stored_append] using hr
        exact (hx.written r hr).2.trans (le_max_left _ _)
      · have hsort := h.sorted
        rw [h.pending] at hsort
        have hrun := List.pairwise_append.mp (List.pairwise_append.mp hsort).1
        obtain ⟨q, hq, rfl⟩ := List.mem_map.mp hr
        rcases List.mem_snoc.mp hq with hq | rfl
        · have hlt : q.seq < x.seq := hrun.2.2 q hq x (by simp)
          exact hlt.le.trans (le_max_right _ _)
        · exact le_max_right _ _

open WriterState in
theorem tracked_rule (C : ℕ → Prop) (now : ℕ) : BatchRule crc now (Tracked C) where
  flush h hx := tracked_flush h hx
  roll := by
    intro st ps seg rs q own rest h hx
    obtain ⟨h1, h2, -⟩ := hx.sync ps seg rs rfl
    refine ⟨?_, hx.unclaimed, hx.bounded, hx.ahead, hx.marked, hx.zero,
      fun r hr => hx.written r (by simpa [stored_append] using hr)⟩
    refine @synced_of_all crc _ ?_ ?_ C false
    · intro p hp
      rcases List.mem_snoc.mp hp with hp | rfl
      · rcases List.mem_snoc.mp hp with hp | rfl
        · exact h.ok p (List.mem_append_left _ hp)
        · exact sealSegment_ok (h.ok _ (List.mem_append_right _ (List.mem_singleton.mpr rfl))) st
      · exact (nextSegment_ok now st q.seq).1
    · intro p hp
      rcases List.mem_snoc.mp hp with hp | rfl
      · rcases List.mem_snoc.mp hp with hp | rfl
        · exact h1 p hp
        · unfold sealSegment
          split
          · rfl
          · rename_i hd
            exact h2 (Bool.eq_false_of_not_eq_true hd)
      · unfold nextSegment
        split <;> rfl
  start := by
    intro st base hsegs hx
    refine ⟨?_, hx.unclaimed, hx.bounded, hx.ahead, hx.marked, hx.zero, by simp⟩
    refine @synced_of_all crc _ ?_ ?_ C false
    · intro p hp
      rw [List.mem_singleton.mp hp]
      exact (nextSegment_ok now st base).1
    · intro p hp
      rw [List.mem_singleton.mp hp]
      unfold nextSegment
      split <;> rfl

/-- The writer's own mark only grows. -/
def Grown (any : Bool) (hwm : ℕ) (st : WriterState) : Prop :=
  any = true → st.persistedAny = true ∧ hwm ≤ st.persistedHwm

open WriterState in
theorem tracked_grown_rule (C : ℕ → Prop) (any : Bool) (hwm now : ℕ) :
    BatchRule crc now fun st parts => Tracked C st parts ∧ Grown any hwm st where
  flush := by
    intro st ps seg rs run own rest h hx
    refine ⟨tracked_flush h hx.1, fun hany => ?_⟩
    obtain ⟨h1, h2⟩ := hx.2 hany
    unfold flushRun
    split
    · exact ⟨rfl, h2.trans (le_max_left _ _)⟩
    · exact ⟨h1, h2⟩
  roll h hx := ⟨(tracked_rule C now).roll h hx.1, hx.2⟩
  start base hsegs hx := ⟨(tracked_rule C now).start base hsegs hx.1, hx.2⟩

theorem writeLoop_hwm {now projected : ℕ} {run : List JournalRecord} {prev last : Option ℕ}
    {todo : List AppendRequest} {st' : WriterState}
    (heq : st.writeLoop crc now run projected prev todo = (st', .ok last))
    (hsegs : run ≠ [] → st.segments ≠ [])
    (hprev : ∀ h ∈ prev, (∃ r, run.getLast? = some r ∧ r.seq = h) ∨
      (st.persistedAny = true ∧ h ≤ st.persistedHwm)) :
    ∀ h ∈ last, st'.persistedAny = true ∧ h ≤ st'.persistedHwm := by
  -- the end of a run puts its last record into the marks
  have hflush : ∀ {st : WriterState} {run : List JournalRecord}, (run ≠ [] → st.segments ≠ []) →
      ∀ h, ((∃ r, run.getLast? = some r ∧ r.seq = h) ∨
        (st.persistedAny = true ∧ h ≤ st.persistedHwm)) →
      (st.flushRun crc run).persistedAny = true ∧ h ≤ (st.flushRun crc run).persistedHwm := by
    intro st run hsegs h hh
    unfold WriterState.flushRun
    cases hrun : run.getLast? with
    | none =>
      rcases hh with ⟨r, hr, -⟩ | hh
      · rw [hrun] at hr
        cases hr
      · cases st.segments.getLast? <;> exact hh
    | some r =>
      have hne : st.segments ≠ [] := hsegs (by rintro rfl; cases hrun)
      rw [List.getLast?_eq_some_getLast hne]
      refine ⟨rfl, ?_⟩
      rcases hh with ⟨r', hr', rfl⟩ | hh
      · rw [hrun] at hr'
        obtain rfl := Option.some.inj hr'
        exact le_max_right _ _
      · exact hh.2.trans (le_max_left _ _)
  induction todo generalizing st run projected prev with
  | nil =>
    rw [WriterState.writeLoop, Prod.mk.injEq, Except.ok.injEq] at heq
    obtain ⟨rfl, rfl⟩ := heq
    exact fun h hh => hflush hsegs h (hprev h hh)
  | cons q todo ih =>
    rw [WriterState.writeLoop] at heq
    split at heq
    · exact ih heq hsegs hprev
    · split at heq
      · cases heq
      · split_ifs at heq with h1 h2
        · cases heq
        · refine ih heq (fun _ => ?_) fun h hh => .inl ⟨q.record, by simp, ?_⟩
          · simp [WriterState.rollSegment]
          · exact Option.mem_some.mp hh
        · refine ih heq (fun _ hnil => h2 (.inl hnil)) fun h hh => .inl ⟨q.record, by simp, ?_⟩
          exact Option.mem_some.mp hh

theorem writeBatch_hwm {now generation : ℕ} {batch : List AppendRequest} {st' : WriterState}
    {hwm : Option ℕ} (heq : st.writeBatch crc now batch = (st', .ok (hwm, generation))) :
    generation = st'.truncateGen ∧ ∀ h ∈ hwm, st'.persistedAny = true ∧ h ≤ st'.persistedHwm := by
  unfold WriterState.writeBatch at heq
  dsimp only at heq
  cases hloop : st.writeLoop crc now [] ((st.segments.getLast?.map (·.size)).getD 0) none batch with
  | mk s res =>
    rw [hloop] at heq
    cases res with
    | error e => simp [Except.map] at heq
    | ok last =>
      obtain ⟨rfl, rfl, rfl⟩ := heq
      exact ⟨rfl, writeLoop_hwm hloop (by simp) (by simp)⟩

/-! ## Truncation -/

theorem applyTruncate_synced {segments segs' : List SegmentFile} {k now : ℕ}
    (hsealed : ∀ s ∈ segments.dropLast, s.synced = s.size)
    (heq : WriterState.applyTruncateToSegments crc now segments k = .ok segs') :
    ∀ s ∈ segs', s.synced = s.size := by
  unfold WriterState.applyTruncateToSegments at heq
  split at heq
  · cases heq
    intro s hs
    rw [List.mem_singleton.mp hs]
    rfl
  · split at heq
    · cases heq
      simp
    · rename_i i hi
      have hlt := boundaryIndex_lt hi
      rw [List.getElem?_eq_getElem hlt] at heq
      dsimp only at heq
      cases hscan : (segments[i]).scan crc with
      | error e =>
        rw [hscan] at heq
        cases heq
      | ok scan =>
        rw [hscan] at heq
        cases heq
        intro s hs
        rcases List.mem_snoc.mp hs with hs | rfl
        · refine hsealed s ?_
          rw [List.dropLast_eq_take]
          exact List.take_subset_take_left segments (by omega) hs
        · rfl

theorem applyTruncate_any (hp : Placed parts) (hok : ∀ p ∈ parts, SegOk crc p.1 p.2) (k now : ℕ) :
    ∃ parts', WriterState.applyTruncateToSegments crc now (parts.map Prod.fst) k =
        .ok (parts'.map Prod.fst) ∧ Placed parts' ∧ (∀ p ∈ parts', SegOk crc p.1 p.2) ∧
      ∀ r ∈ stored parts', r ∈ stored parts ∧ r.seq ≤ k := by
  by_cases hk : k = keepNoneSentinel
  · refine ⟨[(SegmentFile.create crc 0 now, [])], by simp [WriterState.applyTruncateToSegments, hk],
      ⟨by simp, by simp, by simp [SegmentFile.create], List.pairwise_singleton _ _⟩, ?_, by simp⟩
    intro p hp
    rw [List.mem_singleton.mp hp]
    exact WriterState.segOk_create 0 now
  · obtain ⟨parts', h1, h2, h3, h4⟩ := applyTruncate_stored hp hok hk now
    refine ⟨parts', h1, h2, h3, fun r hr => ?_⟩
    rw [h4, List.mem_filter] at hr
    exact ⟨hr.1, by simpa using hr.2⟩

end UltimaCluster
