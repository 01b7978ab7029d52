/-
  What the journal calls durable is on disk.

  The watermark stays at or below the highest written sequence, and pending
  records are above that; so what is at or below the watermark was covered by
  the fsync in front of its publish.
-/
import UltimaCluster.JournalSync

namespace UltimaCluster

open List (append_assoc map_append mem_append_left mem_append_right mem_cons_self mem_map_of_mem
  take_append_drop)
open SegmentFile (create)
open SeqWatermark (fires isDurable onComplete publish resetAll resetTo)
open WriterState (append fresh owns_iff)

variable {crc : Bytes → UInt32} {mode : Durability} {C : ℕ → Prop} {parts : List Part}
  {st : WriterState}

/-! ## The invariant -/

/-- The requests in the writer's hands that are not written. -/
def WriterPc.batch : WriterPc → List AppendRequest
  | .write batch => batch
  | _ => []

/-- The writer has met an error. -/
def WriterPc.Dead : WriterPc → Prop
  | .failed _ _ | .halting | .stopped => True
  | _ => False

namespace JournalThreads

/-- The sequences that the watermark claims. -/
def Claims (w : JournalThreads) (seq : ℕ) : Prop :=
  w.watermark.anyPublished = true ∧ seq ≤ w.watermark.durableSeq

def AllSynced (st : WriterState) : Prop := ∀ s ∈ st.segments, s.synced = s.size

/-- A mark of this generation is written. -/
def Mark (st : WriterState) (hwm : Option ℕ) (generation : ℕ) : Prop :=
  generation = st.truncateGen → ∀ h ∈ hwm, st.persistedAny = true ∧ h ≤ st.persistedHwm

/-- What the writer has in hand. -/
def PcOk (w : JournalThreads) : Prop :=
  match w.pc with
  | .fsync _ hwm generation _ => generation ≤ w.st.truncateGen ∧ Mark w.st hwm generation
  | .syncing _ hwm generation handle => generation ≤ w.st.truncateGen ∧ Mark w.st hwm generation ∧
      (AllSynced w.st ∨ w.st.segments.getLast?.map (·.baseSeq) = handle)
  | .synced _ hwm generation | .publish _ hwm generation =>
    generation ≤ w.st.truncateGen ∧ Mark w.st hwm generation ∧ AllSynced w.st
  | .signal _ => AllSynced w.st
  | _ => True

/-- The requests that may still be written, in the order of the channel. -/
structure Queued (w : JournalThreads) : Prop where
  later : (w.pc.batch ++ w.queue).Pairwise WriterState.Later
  pending : w.st.pending.Sublist (w.pc.batch ++ w.queue)
  current : ∀ q ∈ w.pc.batch ++ w.queue, q.generation = w.st.truncateGen →
    ∃ l ∈ w.st.lastSeq, q.seq ≤ l
  generation : ∀ q ∈ w.pc.batch ++ w.queue, q.generation ≤ w.st.truncateGen

/-- The invariant over the threads. -/
structure Inv (crc : Bytes → UInt32) (w : JournalThreads) (parts : List Part) : Prop where
  before : WriterState.BeforeBatch crc w.st parts
  size : segmentHeaderSize < w.st.segmentSize
  upper : ∀ r ∈ stored parts, ∃ l ∈ w.st.lastSeq, r.seq ≤ l
  lower : ∀ r ∈ stored parts ++ w.st.pending.map (·.record), ∃ f ∈ w.st.firstSeq, f ≤ r.seq
  bounds : ∀ f ∈ w.st.firstSeq, ∃ l ∈ w.st.lastSeq, f ≤ l
  tracked : Tracked w.Claims w.st parts
  claimed : w.watermark.anyPublished = true →
    w.st.persistedAny = true ∧ w.watermark.durableSeq ≤ w.st.persistedHwm
  unpublished : w.watermark.anyPublished = false → w.watermark.durableSeq = 0
  generation : w.watermark.generation = w.st.truncateGen
  pc : w.PcOk
  dead : w.failed = true ↔ w.pc.Dead
  queued : w.failed = false → w.Queued
  generations : ∀ q ∈ w.st.pending, q.generation ≤ w.st.truncateGen
  removed : ∀ q ∈ w.removed, q ∉ w.st.pending ∧ q.generation < w.st.truncateGen

variable {w : JournalThreads}

theorem Inv.present_eq (h : Inv crc w parts) :
    Journal.present crc ⟨w.st, w.queue⟩ = stored parts ++ w.st.pending.map (·.record) := by
  unfold Journal.present
  rw [h.before.segs, Journal.flatMap_recordsOf h.before.ok]

theorem Inv.covered_of_synced (h : Inv crc w parts) (hall : AllSynced w.st) {seq : ℕ}
    (hpend : ∀ q ∈ w.st.pending, q.seq ≠ seq) : Covered crc w seq := by
  intro r hr hseq
  rw [h.present_eq] at hr
  rcases List.mem_append.mp hr with hr | hr
  · rw [h.before.segs]
    have hparts : ∀ p ∈ parts, p.1.synced = p.1.size := fun p hp =>
      hall p.1 (h.before.segs ▸ mem_map_of_mem hp)
    exact (synced_of_all h.before.ok hparts (fun _ => True) true).record h.before.ok hr trivial
  · obtain ⟨q, hq, rfl⟩ := List.mem_map.mp hr
    exact absurd hseq (hpend q hq)

theorem Inv.covered_of_claimed (h : Inv crc w parts) {seq : ℕ} (hc : w.Claims seq) :
    Covered crc w seq := by
  intro r hr hseq
  rw [h.present_eq] at hr
  rcases List.mem_append.mp hr with hr | hr
  · rw [h.before.segs]
    exact h.tracked.sync.record h.before.ok hr (hseq ▸ hc)
  · obtain ⟨q, hq, rfl⟩ := List.mem_map.mp hr
    have hq' : q.seq = seq := hseq
    exact absurd (hq'.symm ▸ hc) (h.tracked.unclaimed q hq)

theorem inv_opened {size : ℕ} (hsize : segmentHeaderSize < size) (preallocate : Bool) :
    Inv crc (opened size preallocate) [] where
  before := (Journal.inv_fresh hsize preallocate).before
  size := hsize
  upper := by simp
  lower := by simp [opened, fresh]
  bounds := by simp [opened, fresh]
  tracked := ⟨fun ps seg rs heq => by simp at heq, by simp [opened, fresh],
    by simp [opened, fresh], by simp [opened, fresh],
    by simp [opened, fresh], fun _ => rfl, by simp⟩
  claimed := by simp [opened]
  unpublished := fun _ => rfl
  generation := rfl
  pc := trivial
  dead := by simp [opened, WriterPc.Dead]
  queued _ := ⟨List.Pairwise.nil, List.Sublist.refl _, by simp [opened, WriterPc.batch],
    by simp [opened, WriterPc.batch]⟩
  generations := by simp [opened, fresh]
  removed := by simp [opened]

/-! ## Callers -/

theorem append_ok {r : JournalRecord} {st st' : WriterState} {req : AppendRequest}
    (h : st.append r = .ok (st', req)) :
    r.total ≤ st.segmentSize ∧ (∀ l ∈ st.lastSeq, l < r.seq) ∧ req = ⟨r, st.truncateGen⟩ ∧
      st' = { st with
        firstSeq := st.firstSeq.or (some r.seq)
        lastSeq := some r.seq
        pending := st.pending.filter (·.seq ≠ r.seq) ++ [⟨r, st.truncateGen⟩] } := by
  unfold append at h
  split_ifs at h with h1 h2
  split at h
  · cases h
  · rename_i hlast
    cases h
    refine ⟨not_lt.mp h2, fun l hl => ?_, rfl, rfl⟩
    rw [Option.filter_eq_none_iff] at hlast
    simpa using hlast l hl

theorem Inv.append (h : Inv crc w parts) {r : JournalRecord}
    (hp : w.Possible mode (.append r)) (hsafe : w.Safe (.append r)) :
    Inv crc (exec crc mode w (.append r)) parts := by
  dsimp only [exec]
  split
  swap
  · exact h
  rename_i st req heq
  obtain ⟨hfit, hlast, rfl, rfl⟩ := append_ok heq
  have hbounded := h.tracked.bounded
  have hbelow : ∀ q ∈ w.st.pending, q.seq < r.seq := fun q hq => by
    obtain ⟨l, hl, hle⟩ := hbounded q hq
    exact hle.trans_lt (hlast l hl)
  have hkeep : w.st.pending.filter (·.seq ≠ r.seq) = w.st.pending := by
    rw [List.filter_eq_self]
    exact fun q hq => decide_eq_true (hbelow q hq).ne
  rw [hkeep]
  have hmark : w.st.persistedAny = true → w.st.persistedHwm < r.seq := fun hany => by
    obtain ⟨l, hl, hle⟩ := h.tracked.marked hany
    exact hle.trans_lt (hlast l hl)
  exact { h with
    before := { h.before with
      sorted := by
        rw [List.pairwise_append]
        refine ⟨h.before.sorted, List.pairwise_singleton _ _, fun q hq q' hq' => ?_⟩
        rw [List.mem_singleton.mp hq']
        exact hbelow q hq
      fits := by
        refine List.forall_mem_snoc h.before.fits ?_
        exact ⟨⟨hp.1, hp.2, hsafe hfit⟩, hfit⟩
      above := by
        intro x hx q hq
        rcases List.mem_snoc.mp hq with hq | rfl
        · exact h.before.above x hx q hq
        · obtain ⟨l, hl, hle⟩ := h.upper x hx
          exact hle.trans_lt (hlast l hl) }
    upper := by
      intro x hx
      obtain ⟨l, hl, hle⟩ := h.upper x hx
      exact ⟨r.seq, rfl, hle.trans (hlast l hl).le⟩
    lower := by
      intro x hx
      rw [map_append, ← append_assoc] at hx
      rcases List.mem_append.mp hx with hx | hx
      · obtain ⟨f, hf, hle⟩ := h.lower x hx
        refine ⟨f, ?_, hle⟩
        rw [Option.mem_def.mp hf]
        rfl
      · rw [List.map_singleton, List.mem_singleton] at hx
        cases hfirst : w.st.firstSeq with
        | none => exact ⟨r.seq, rfl, hx ▸ le_rfl⟩
        | some f =>
          obtain ⟨l, hl, hle⟩ := h.bounds f hfirst
          exact ⟨f, rfl, hx ▸ (hle.trans_lt (hlast l hl)).le⟩
    bounds := by
      intro f hf
      refine ⟨r.seq, rfl, ?_⟩
      cases hfirst : w.st.firstSeq with
      | none =>
        rw [hfirst] at hf
        exact (Option.some.inj hf).ge
      | some f' =>
        rw [hfirst] at hf
        obtain rfl := Option.some.inj hf
        obtain ⟨l, hl, hle⟩ := h.bounds f' hfirst
        exact (hle.trans_lt (hlast l hl)).le
    tracked := { h.tracked with
      unclaimed := by
        intro q hq hc
        rcases List.mem_snoc.mp hq with hq | rfl
        · exact h.tracked.unclaimed q hq hc
        · obtain ⟨hany, hle⟩ := h.claimed hc.1
          have hlt := hmark hany
          have : r.seq ≤ w.watermark.durableSeq := hc.2
          omega
      bounded := by
        intro q hq
        rcases List.mem_snoc.mp hq with hq | rfl
        · exact ⟨r.seq, rfl, (hbelow q hq).le⟩
        · exact ⟨r.seq, rfl, le_rfl⟩
      ahead := by
        intro hany q hq
        rcases List.mem_snoc.mp hq with hq | rfl
        · exact h.tracked.ahead hany q hq
        · exact hmark hany
      marked := fun hany => ⟨r.seq, rfl, (hmark hany).le⟩ }
    queued := by
      intro hf
      obtain ⟨h1, h2, h3, h4⟩ := h.queued hf
      refine ⟨?_, ?_, ?_, ?_⟩
      · rw [← append_assoc, List.pairwise_append]
        refine ⟨h1, List.pairwise_singleton _ _, fun q hq q' hq' => ?_⟩
        rw [List.mem_singleton.mp hq']
        rcases (h4 q hq).lt_or_eq with hlt | heq
        · exact .inl hlt
        · obtain ⟨l, hl, hle⟩ := h3 q hq heq
          exact .inr ⟨heq, hle.trans_lt (hlast l hl)⟩
      · rw [← append_assoc]
        exact h2.append (List.Sublist.refl _)
      · intro q hq hgen
        rw [← append_assoc] at hq
        rcases List.mem_snoc.mp hq with hq | rfl
        · obtain ⟨l, hl, hle⟩ := h3 q hq hgen
          exact ⟨r.seq, rfl, hle.trans (hlast l hl).le⟩
        · exact ⟨r.seq, rfl, le_rfl⟩
      · intro q hq
        rw [← append_assoc] at hq
        rcases List.mem_snoc.mp hq with hq | rfl
        · exact h4 q hq
        · rfl
    generations := by
      refine List.forall_mem_snoc h.generations ?_
      rfl
    removed := by
      intro q hq
      obtain ⟨h1, h2⟩ := h.removed q hq
      refine ⟨fun hmem => ?_, h2⟩
      rcases List.mem_snoc.mp hmem with hmem | rfl
      · exact h1 hmem
      · exact absurd h2 (lt_irrefl _) }

/-- After a truncation every segment is synced and every earlier mark is stale. -/
theorem PcOk.truncated {w w' : JournalThreads} (h : w.PcOk) (hpc : w'.pc = w.pc)
    (hgen : w.st.truncateGen < w'.st.truncateGen) (hall : AllSynced w'.st) : w'.PcOk := by
  have hstale : ∀ hwm {g}, g ≤ w.st.truncateGen → g ≤ w'.st.truncateGen ∧ Mark w'.st hwm g :=
    fun hwm g hg => ⟨hg.trans hgen.le, fun heq => by omega⟩
  unfold PcOk at h ⊢
  rw [hpc]
  cases hw : w.pc with
  | fsync b hwm g r =>
    rw [hw] at h
    exact hstale hwm h.1
  | syncing b hwm g hd =>
    rw [hw] at h
    exact ⟨(hstale hwm h.1).1, (hstale hwm h.1).2, .inl hall⟩
  | synced b hwm g =>
    rw [hw] at h
    exact ⟨(hstale hwm h.1).1, (hstale hwm h.1).2, hall⟩
  | publish b hwm g =>
    rw [hw] at h
    exact ⟨(hstale hwm h.1).1, (hstale hwm h.1).2, hall⟩
  | signal b => exact hall
  | idle => trivial
  | write b => trivial
  | failed hwm g => trivial
  | halting => trivial
  | stopped => trivial

theorem Inv.sealed (h : Inv crc w parts) : ∀ s ∈ w.st.segments.dropLast, s.synced = s.size := by
  intro s hs
  obtain rfl | ⟨ps, ⟨seg, rs⟩, rfl⟩ := List.eq_nil_or_concat' parts
  · simp [h.before.segs] at hs
  · rw [h.before.segs, map_append, List.map_singleton, List.dropLast_concat] at hs
    obtain ⟨p, hp, rfl⟩ := List.mem_map.mp hs
    exact (h.tracked.sync ps seg rs rfl).sealed p hp

theorem Inv.truncateAfter (h : Inv crc w parts) {k now : ℕ} (hsafe : w.Safe (.truncateAfter k now)) :
    ∃ parts', Inv crc (exec crc mode w (.truncateAfter k now)) parts' ∧
      ∀ r ∈ stored parts', r ∈ stored parts := by
  dsimp only [exec]
  split
  · exact ⟨parts, h, fun _ hr => hr⟩
  rename_i hpoison
  obtain ⟨parts', happ, hplaced, hok, hstored⟩ :=
    applyTruncate_any h.before.placed h.before.ok k now
  have hall := applyTruncate_synced h.sealed (h.before.segs ▸ happ)
  have hsub : (w.st.pending.filter (·.seq ≤ k)).Sublist w.st.pending := List.filter_sublist
  have hmem : ∀ r ∈ stored parts' ++ (w.st.pending.filter (·.seq ≤ k)).map (·.record),
      r ∈ stored parts ++ w.st.pending.map (·.record) ∧ r.seq ≤ k := by
    intro r hr
    rcases List.mem_append.mp hr with hr | hr
    · exact ⟨mem_append_left _ (hstored r hr).1, (hstored r hr).2⟩
    · obtain ⟨q, hq, rfl⟩ := List.mem_map.mp hr
      obtain ⟨hq, hle⟩ := List.mem_filter.mp hq
      have hle : q.seq ≤ k := by simpa using hle
      exact ⟨mem_append_right _ (mem_map_of_mem hq), hle⟩
  -- the new last sequence is the argument, if the first record stays
  have hlast : ∀ r ∈ stored parts' ++ (w.st.pending.filter (·.seq ≤ k)).map (·.record),
      w.st.firstSeq.any (· ≤ k) = true := by
    intro r hr
    obtain ⟨hr, hle⟩ := hmem r hr
    obtain ⟨f, hf, hfr⟩ := h.lower r hr
    rw [Option.mem_def.mp hf]
    simp
    omega
  unfold WriterState.truncateAfter
  rw [if_neg hpoison, h.before.segs]
  dsimp only
  rw [happ]
  refine ⟨parts', ?_, fun r hr => (hstored r hr).1⟩
  exact { h with
    before := {
      segs := rfl
      ok := hok
      placed := hplaced
      sorted := h.before.sorted.sublist hsub
      fits := fun q hq => h.before.fits q (hsub.subset hq)
      above := fun r hr q hq => h.before.above r (hstored r hr).1 q (hsub.subset hq) }
    upper := by
      intro r hr
      refine ⟨k, ?_, (hstored r hr).2⟩
      rw [if_pos (hlast r (mem_append_left _ hr))]
      rfl
    lower := by
      intro r hr
      obtain ⟨f, hf, hle⟩ := h.lower r (hmem r hr).1
      refine ⟨f, ?_, hle⟩
      rw [if_pos (hlast r hr), if_neg (by simp)]
      exact hf
    bounds := by
      intro f hf
      by_cases hany : w.st.firstSeq.any (· ≤ k) = true
      · rw [if_pos hany, if_neg (by simp)] at hf
        rw [if_pos hany]
        rw [Option.mem_def.mp hf] at hany
        exact ⟨k, rfl, by simpa using hany⟩
      · rw [if_neg hany] at hf
        simp at hf
    tracked := {
      sync := synced_of_all hok (fun p hp => hall p.1 (mem_map_of_mem hp)) _ _
      unclaimed := by
        intro q hq hc
        exact h.tracked.unclaimed q (hsub.subset hq) ⟨hc.1, hc.2.trans (min_le_left _ _)⟩
      bounded := by
        intro q hq
        obtain ⟨-, hle⟩ := List.mem_filter.mp hq
        refine ⟨k, ?_, by simpa using hle⟩
        rw [if_pos (hlast q.record (mem_append_right _ (mem_map_of_mem hq)))]
        rfl
      ahead := by
        intro hany q hq
        exact (min_le_left _ _).trans_lt (h.tracked.ahead hany q (hsub.subset hq))
      marked := by
        intro hany
        rcases hsafe with ⟨f, hf, hle⟩ | hnone
        · refine ⟨k, ?_, min_le_right _ _⟩
          rw [Option.mem_def.mp hf]
          simp [hle]
        · rw [hnone] at hany
          cases hany
      zero := by
        intro hany
        rw [h.tracked.zero hany, Nat.zero_min]
      written := by
        intro r hr
        obtain ⟨hr, hle⟩ := hstored r hr
        obtain ⟨hany, hhwm⟩ := h.tracked.written r hr
        exact ⟨hany, le_min hhwm hle⟩ }
    claimed := fun hany => ⟨(h.claimed hany).1, min_le_min_right k (h.claimed hany).2⟩
    unpublished := by
      intro hany
      dsimp only [resetTo]
      rw [h.unpublished hany, Nat.zero_min]
    generation := rfl
    pc := h.pc.truncated rfl (Nat.lt_succ_self _) hall
    queued := by
      intro hf
      obtain ⟨h1, h2, h3, h4⟩ := h.queued hf
      refine ⟨h1, hsub.trans h2, fun q hq hgen => ?_, fun q hq => (h4 q hq).trans (Nat.le_succ _)⟩
      have := h4 q hq
      dsimp only at hgen
      omega
    generations := fun q hq => (h.generations q (hsub.subset hq)).trans (Nat.le_succ _)
    removed := by
      intro q hq
      rcases List.mem_append.mp hq with hq | hq
      · obtain ⟨h1, h2⟩ := h.removed q hq
        exact ⟨fun hmem => h1 (hsub.subset hmem), h2.trans (Nat.lt_succ_self _)⟩
      · obtain ⟨hq, hlt⟩ := List.mem_filter.mp hq
        refine ⟨fun hmem => ?_, ?_⟩
        · have := (List.mem_filter.mp hmem).2
          simp at this hlt
          omega
        · exact Nat.lt_succ_of_le (h.generations q hq) }

theorem Inv.truncateAll (h : Inv crc w parts) (now : ℕ) :
    ∃ parts', Inv crc (exec crc mode w (.truncateAll now)) parts' ∧
      ∀ r ∈ stored parts', r ∈ stored parts := by
  dsimp only [exec]
  split
  · exact ⟨parts, h, fun _ hr => hr⟩
  rename_i hpoison
  have happ : WriterState.applyTruncateToSegments crc now w.st.segments keepNoneSentinel =
      .ok [create crc 0 now] := by
    unfold WriterState.applyTruncateToSegments
    rw [if_pos rfl]
  have hok : ∀ p ∈ [(create crc 0 now, ([] : List JournalRecord))], SegOk crc p.1 p.2 := by
    intro p hp
    rw [List.mem_singleton.mp hp]
    exact WriterState.segOk_create 0 now
  have hall : ∀ s ∈ [create crc 0 now], s.synced = s.size := by
    intro s hs
    rw [List.mem_singleton.mp hs]
    rfl
  unfold WriterState.truncateAll
  rw [if_neg hpoison]
  dsimp only
  rw [happ]
  refine ⟨[(create crc 0 now, [])], ?_, by simp⟩
  exact { h with
    before := {
      segs := rfl
      ok := hok
      placed := ⟨by simp, by simp, by simp [create], List.pairwise_singleton _ _⟩
      sorted := List.Pairwise.nil
      fits := by simp
      above := by simp }
    upper := by simp
    lower := by simp
    bounds := by simp
    tracked := {
      sync := synced_of_all hok (fun p hp => hall p.1 (mem_map_of_mem hp)) _ _
      unclaimed := by simp
      bounded := by simp
      ahead := by simp
      marked := by simp
      zero := fun _ => rfl
      written := by simp }
    claimed := by simp [resetAll]
    unpublished := fun _ => rfl
    generation := rfl
    pc := h.pc.truncated rfl (Nat.lt_succ_self _) hall
    queued := by
      intro hf
      obtain ⟨h1, -, -, h4⟩ := h.queued hf
      refine ⟨h1, List.nil_sublist _, fun q hq hgen => ?_, fun q hq => (h4 q hq).trans (Nat.le_succ _)⟩
      have := h4 q hq
      dsimp only at hgen
      omega
    generations := by simp
    removed := by
      intro q hq
      refine ⟨by simp, ?_⟩
      rcases List.mem_append.mp hq with hq | hq
      · exact (h.removed q hq).2.trans (Nat.lt_succ_self _)
      · exact Nat.lt_succ_of_le (h.generations q hq) }

theorem Inv.watermark (h : Inv crc w parts) {watermark : SeqWatermark}
    (h1 : watermark.durableSeq = w.watermark.durableSeq)
    (h2 : watermark.anyPublished = w.watermark.anyPublished)
    (h3 : watermark.generation = w.watermark.generation) : Inv crc { w with watermark } parts := by
  have hclaims : Claims { w with watermark } = w.Claims := by
    funext s
    simp [Claims, h1, h2]
  exact { h with
    tracked := hclaims ▸ h.tracked
    claimed := by
      rw [h1, h2]
      exact h.claimed
    unpublished := by
      rw [h1, h2]
      exact h.unpublished
    generation := h3.trans h.generation
    queued := fun hf => ⟨(h.queued hf).later, (h.queued hf).pending, (h.queued hf).current,
      (h.queued hf).generation⟩ }

theorem Inv.onDurable (h : Inv crc w parts) (seq : ℕ) :
    Inv crc (exec crc mode w (.onDurable seq)) parts := by
  have hmark : (w.watermark.onComplete seq).durableSeq = w.watermark.durableSeq ∧
      (w.watermark.onComplete seq).anyPublished = w.watermark.anyPublished ∧
      (w.watermark.onComplete seq).generation = w.watermark.generation := by
    unfold onComplete
    split <;> exact ⟨rfl, rfl, rfl⟩
  exact h.watermark hmark.1 hmark.2.1 hmark.2.2

/-! ## The writer thread -/

theorem Inv.move (h : Inv crc w parts) {pc : WriterPc} {queue : List AppendRequest}
    (hpc : PcOk { w with pc }) (hbatch : pc.batch ++ queue = w.pc.batch ++ w.queue)
    (hlive : ¬ w.pc.Dead) (hlive' : ¬ pc.Dead) : Inv crc { w with pc, queue } parts where
  before := h.before
  size := h.size
  upper := h.upper
  lower := h.lower
  bounds := h.bounds
  tracked := h.tracked
  claimed := h.claimed
  unpublished := h.unpublished
  generation := h.generation
  pc := hpc
  dead := h.dead.trans ⟨fun hd => absurd hd hlive, fun hd => absurd hd hlive'⟩
  queued hf := by
    have hq := h.queued hf
    constructor
    all_goals dsimp only
    all_goals rw [hbatch]
    · exact hq.later
    · exact hq.pending
    · exact hq.current
    · exact hq.generation
  generations := h.generations
  removed := h.removed

theorem Inv.dies (h : Inv crc w parts) {pc : WriterPc} {queue : List AppendRequest} {poisoned : Bool}
    (hdead : pc.Dead) (hpc : PcOk { w with pc }) :
    Inv crc { w with st := { w.st with poisoned }, pc, queue, failed := true } parts where
  before := ⟨h.before.segs, h.before.ok, h.before.placed, h.before.sorted, h.before.fits,
    h.before.above⟩
  size := h.size
  upper := h.upper
  lower := h.lower
  bounds := h.bounds
  tracked := ⟨h.tracked.sync, h.tracked.unclaimed, h.tracked.bounded, h.tracked.ahead,
    h.tracked.marked, h.tracked.zero, h.tracked.written⟩
  claimed := h.claimed
  unpublished := h.unpublished
  generation := h.generation
  pc := hpc
  dead := by simp [hdead]
  queued hf := by cases hf
  generations := h.generations
  removed := h.removed

variable {handle : Option ℕ}

theorem syncSegment_synced {segments : List SegmentFile}
    (hsealed : ∀ s ∈ segments.dropLast, s.synced = s.size)
    (hhandle : (∀ s ∈ segments, s.synced = s.size) ∨ segments.getLast?.map (·.baseSeq) = handle) :
    ∀ s ∈ syncSegment segments handle, s.synced = s.size := by
  intro s hs
  obtain ⟨s₀, hs₀, rfl⟩ := List.mem_map.mp hs
  split
  · rfl
  rename_i hne
  rcases hhandle with hall | hlast
  · exact hall s₀ hs₀
  · obtain rfl | ⟨ss, l, rfl⟩ := List.eq_nil_or_concat' segments
    · cases hs₀
    · rcases List.mem_snoc.mp hs₀ with hmem | rfl
      · exact hsealed s₀ (by rwa [List.dropLast_concat])
      · rw [List.getLast?_concat] at hlast
        exact absurd hlast hne

/-- The parts with the segment of a handle synced. -/
def syncParts (handle : Option ℕ) (parts : List Part) : List Part :=
  parts.map fun p => (if some p.1.baseSeq = handle then { p.1 with synced := p.1.size } else p.1, p.2)

theorem syncParts_segments (handle : Option ℕ) (parts : List Part) :
    (syncParts handle parts).map Prod.fst = syncSegment (parts.map Prod.fst) handle := by
  simp [syncParts, syncSegment, Function.comp_def]

theorem syncParts_stored (handle : Option ℕ) (parts : List Part) :
    stored (syncParts handle parts) = stored parts := by
  simp [syncParts, stored, List.flatMap_map]

theorem syncParts_ok (hok : ∀ p ∈ parts, SegOk crc p.1 p.2) :
    ∀ p ∈ syncParts handle parts, SegOk crc p.1 p.2 := by
  intro p hp
  obtain ⟨q, hq, rfl⟩ := List.mem_map.mp hp
  split
  · exact WriterState.segOk_synced (hok q hq) _
  · exact hok q hq

theorem syncParts_placed (h : Placed parts) : Placed (syncParts handle parts) := by
  have hbase : ∀ p : Part, (if some p.1.baseSeq = handle then { p.1 with synced := p.1.size }
      else p.1).baseSeq = p.1.baseSeq := fun p => by split <;> rfl
  refine ⟨fun p hp => ?_, fun p hp => ?_, fun p hp => ?_, ?_⟩
  · obtain ⟨q, hq, rfl⟩ := List.mem_map.mp hp
    exact h.sorted q hq
  · obtain ⟨q, hq, rfl⟩ := List.mem_map.mp hp
    rw [hbase q]
    exact h.base q hq
  · obtain ⟨q, hq, rfl⟩ := List.mem_map.mp hp
    rw [hbase q]
    exact h.start q hq
  · unfold syncParts
    rw [List.pairwise_map]
    refine h.order.imp fun {p q} hpq => ?_
    rw [hbase p, hbase q]
    exact hpq

theorem Inv.advance (h : Inv crc w parts) {segments : List SegmentFile} {dirty : Bool}
    {watermark : SeqWatermark} {pc : WriterPc} {parts' : List Part}
    (hsegs : segments = parts'.map Prod.fst) (hok : ∀ p ∈ parts', SegOk crc p.1 p.2)
    (hplaced : Placed parts') (hstored : stored parts' = stored parts)
    (hall : ∀ s ∈ segments, s.synced = s.size)
    (hclaimed : watermark.anyPublished = true →
      w.st.persistedAny = true ∧ watermark.durableSeq ≤ w.st.persistedHwm)
    (hunpublished : watermark.anyPublished = false → watermark.durableSeq = 0)
    (hgen : watermark.generation = w.watermark.generation)
    (hpc : PcOk { w with st := { w.st with segments, activeSegmentDirty := dirty }, pc })
    (hbatch : pc.batch = w.pc.batch) (hlive : ¬ w.pc.Dead) (hlive' : ¬ pc.Dead) :
    Inv crc { w with st := { w.st with segments, activeSegmentDirty := dirty }, watermark, pc }
      parts' where
  before := { h.before with
    segs := hsegs
    ok := hok
    placed := hplaced
    above := by
      rw [hstored]
      exact h.before.above }
  size := h.size
  upper := by
    rw [hstored]
    exact h.upper
  lower := by
    rw [hstored]
    exact h.lower
  bounds := h.bounds
  tracked := { h.tracked with
    sync := synced_of_all hok (fun p hp => hall p.1 (hsegs ▸ mem_map_of_mem hp)) _ _
    unclaimed := by
      intro q hq hc
      obtain ⟨hany, hle⟩ := hclaimed hc.1
      exact absurd (hc.2.trans hle) (h.tracked.ahead hany q hq).not_ge
    written := by
      rw [hstored]
      exact h.tracked.written }
  claimed := hclaimed
  unpublished := hunpublished
  generation := hgen.trans h.generation
  pc := hpc
  dead := h.dead.trans ⟨fun hd => absurd hd hlive, fun hd => absurd hd hlive'⟩
  queued hf := by
    have hq := h.queued hf
    constructor
    all_goals dsimp only
    all_goals rw [hbatch]
    · exact hq.later
    · exact hq.pending
    · exact hq.current
    · exact hq.generation
  generations := h.generations
  removed := h.removed

variable {batch : List AppendRequest} {generation rounds : ℕ} {hwm : Option ℕ}

theorem Inv.sync (h : Inv crc w parts) (hpc : w.pc = .syncing batch hwm generation handle) :
    Inv crc (exec crc mode w .sync) (syncParts handle parts) := by
  dsimp only [exec]
  rw [hpc]
  have hw := h.pc
  unfold PcOk at hw
  rw [hpc] at hw
  obtain ⟨hgen, hmark, hhandle⟩ := hw
  have hall := syncSegment_synced h.sealed hhandle
  have hsegs : syncSegment w.st.segments handle = (syncParts handle parts).map Prod.fst := by
    rw [syncParts_segments, h.before.segs]
  exact h.advance hsegs (syncParts_ok h.before.ok) (syncParts_placed h.before.placed)
    (syncParts_stored handle parts) hall h.claimed h.unpublished rfl ⟨hgen, hmark, hall⟩
    (by rw [hpc]; rfl) (by rw [hpc]; exact id) id

theorem Inv.clearDirty (h : Inv crc w parts) (hpc : w.pc = .synced batch hwm generation) :
    Inv crc (exec crc mode w .clearDirty) parts := by
  dsimp only [exec]
  rw [hpc]
  have hw := h.pc
  unfold PcOk at hw
  rw [hpc] at hw
  exact h.advance h.before.segs h.before.ok h.before.placed rfl hw.2.2 h.claimed h.unpublished rfl hw
    (by rw [hpc]; rfl) (by rw [hpc]; exact id) id

theorem Inv.publish (h : Inv crc w parts) (hpc : w.pc = .publish batch hwm generation) :
    Inv crc (exec crc mode w .publish) parts := by
  dsimp only [exec]
  rw [hpc]
  have hw := h.pc
  unfold PcOk at hw
  rw [hpc] at hw
  obtain ⟨-, hmark, hall⟩ := hw
  have hadvance : ∀ watermark : SeqWatermark, (watermark.anyPublished = true →
        w.st.persistedAny = true ∧ watermark.durableSeq ≤ w.st.persistedHwm) →
      (watermark.anyPublished = false → watermark.durableSeq = 0) →
      watermark.generation = w.watermark.generation →
      Inv crc { w with watermark, pc := .signal batch } parts := fun watermark h1 h2 h3 =>
    h.advance h.before.segs h.before.ok h.before.placed rfl hall h1 h2 h3 hall
      (by rw [hpc]; rfl) (by rw [hpc]; exact id) id
  cases hwm with
  | none => exact hadvance _ h.claimed h.unpublished rfl
  | some seq =>
    dsimp only
    unfold publish
    split
    · exact hadvance _ h.claimed h.unpublished rfl
    · rename_i hgen
      obtain ⟨hany, hle⟩ := hmark ((not_not.mp hgen).trans h.generation) seq rfl
      refine hadvance _ (fun _ => ⟨hany, max_le ?_ hle⟩) (fun hf => by cases hf) rfl
      cases hp : w.watermark.anyPublished with
      | true => exact (h.claimed hp).2
      | false => rw [h.unpublished hp]; exact Nat.zero_le _

theorem Inv.publishError (h : Inv crc w parts) (hpc : w.pc = .failed hwm generation) :
    Inv crc (exec crc mode w .publishError) parts := by
  have hfailed : w.failed = true := h.dead.mpr (by rw [hpc]; trivial)
  have hmark : ∀ seq, (w.watermark.publishError seq generation).durableSeq = w.watermark.durableSeq ∧
      (w.watermark.publishError seq generation).anyPublished = w.watermark.anyPublished ∧
      (w.watermark.publishError seq generation).generation = w.watermark.generation := by
    intro seq
    unfold SeqWatermark.publishError
    split <;> exact ⟨rfl, rfl, rfl⟩
  dsimp only [exec]
  rw [hpc]
  have hinv : Inv crc { w with pc := .halting, failed := true } parts :=
    h.dies trivial trivial
  rw [← hfailed] at hinv
  cases hwm with
  | none => exact hinv
  | some seq => exact hinv.watermark (hmark seq).1 (hmark seq).2.1 (hmark seq).2.2

theorem filter_eq_of_sublist {batch own : List AppendRequest} (hs : own.Sublist batch)
    (hb : batch.Pairwise WriterState.Later) {p : AppendRequest → Bool}
    (hp : ∀ q ∈ batch, p q = true ↔ q ∈ own) : batch.filter p = own := by
  induction hs with
  | slnil => rfl
  | cons a hs ih =>
    obtain ⟨ha, hb⟩ := List.pairwise_cons.mp hb
    have hnot : ¬ p a = true := by
      rw [hp a mem_cons_self]
      intro hmem
      rcases ha a (hs.subset hmem) with h | h <;> omega
    rw [List.filter_cons_of_neg hnot]
    exact ih hb fun q hq => hp q (List.mem_cons_of_mem _ hq)
  | cons_cons a hs ih =>
    obtain ⟨ha, hb⟩ := List.pairwise_cons.mp hb
    rw [List.filter_cons_of_pos ((hp a mem_cons_self).mpr mem_cons_self)]
    congr 1
    refine ih hb fun q hq => ?_
    rw [hp q (List.mem_cons_of_mem _ hq), List.mem_cons, or_iff_right]
    rintro rfl
    rcases ha q hq with h | h <;> omega

/-- The writer writes the next requests: those that own their sequence are
    stored, and nothing else. -/
theorem Inv.written (h : Inv crc w parts) (hf : w.failed = false) {batch later : List AppendRequest}
    (heq : w.pc.batch ++ w.queue = batch ++ later) (now : ℕ) :
    ∃ st' hwm parts', w.st.writeBatch crc now batch = (st', .ok (hwm, st'.truncateGen)) ∧
      stored parts' = stored parts ++ (batch.filter w.st.owns).map (·.record) ∧
      (∀ x ∈ hwm, st'.persistedAny = true ∧ x ≤ st'.persistedHwm) ∧
      Grown w.st.persistedAny w.st.persistedHwm st' ∧ Tracked w.Claims st' parts' ∧
      ∀ pc queue failed, PcOk { w with st := st', pc } → (failed = true ↔ pc.Dead) →
        (failed = false → pc.batch ++ queue = later) →
        Inv crc { w with st := st', pc, queue, failed } parts' := by
  obtain ⟨hlater, hsub, hcurrent, hgen⟩ := h.queued hf
  have howns : ∀ q ∈ batch ++ later, (w.st.owns q ↔ q ∈ w.st.pending) := fun q hq =>
    owns_iff hlater hsub h.before.sorted (heq ▸ hq)
  rw [heq] at hlater hsub
  obtain ⟨own, rest, hpend, hown, hrest⟩ := List.sublist_append_iff.mp hsub
  -- what owns its sequence in the batch is what is pending there
  have hfilter : batch.filter w.st.owns = own := by
    refine filter_eq_of_sublist hown (List.pairwise_append.mp hlater).1 fun q hq => ?_
    rw [howns q (mem_append_left _ hq), hpend, List.mem_append]
    refine ⟨fun hmem => hmem.resolve_right fun hr => ?_, Or.inl⟩
    exact WriterState.not_mem_of_later hlater hq (hrest.subset hr)
  obtain ⟨st', ⟨hwm, generation⟩, parts', hwrite, hb, htracked, hgrown⟩ :=
    h.before.writeBatch (tracked_grown_rule w.Claims w.st.persistedAny w.st.persistedHwm now)
      ⟨h.tracked, fun hany => ⟨hany, le_rfl⟩⟩ h.size hlater hown hrest hpend
  obtain ⟨rfl, hhwm⟩ := writeBatch_hwm hwrite
  refine ⟨st', hwm, parts', hwrite, by rw [hb.stored, hfilter], hhwm, hgrown, htracked, ?_⟩
  intro pc queue failed hpc hdead hlater'
  have hsub' : st'.pending.Sublist w.st.pending := by
    rw [hb.pending, hpend]
    exact List.sublist_append_right _ _
  have hstored : ∀ r ∈ stored parts', r ∈ stored parts ++ w.st.pending.map (·.record) := by
    intro r hr
    rw [hb.stored] at hr
    rw [hpend, map_append, ← append_assoc]
    exact mem_append_left _ hr
  exact {
    before := { hb with
      sorted := h.before.sorted.sublist hsub'
      fits := by
        intro q hq
        rw [hb.writes.segmentSize]
        exact h.before.fits q (hsub'.subset hq)
      above := by
        intro r hr q hq
        exact Nat.lt_of_le_of_lt (htracked.written r hr).2
          (htracked.ahead (htracked.written r hr).1 q hq) }
    size := by
      rw [hb.writes.segmentSize]
      exact h.size
    upper := by
      intro r hr
      rw [hb.writes.lastSeq]
      rcases List.mem_append.mp (hstored r hr) with hr | hr
      · exact h.upper r hr
      · obtain ⟨q, hq, rfl⟩ := List.mem_map.mp hr
        exact h.tracked.bounded q hq
    lower := by
      intro r hr
      rw [hb.writes.firstSeq]
      refine h.lower r ?_
      rcases List.mem_append.mp hr with hr | hr
      · exact hstored r hr
      · obtain ⟨q, hq, rfl⟩ := List.mem_map.mp hr
        exact mem_append_right _ (mem_map_of_mem (hsub'.subset hq))
    bounds := by
      rw [hb.writes.firstSeq, hb.writes.lastSeq]
      exact h.bounds
    tracked := htracked
    claimed := by
      intro hany
      obtain ⟨h1, h2⟩ := h.claimed hany
      exact ⟨(hgrown h1).1, h2.trans (hgrown h1).2⟩
    unpublished := h.unpublished
    generation := h.generation.trans hb.writes.truncateGen.symm
    pc := hpc
    dead := hdead
    queued := by
      intro hlive
      have hq := hlater' hlive
      have hmem : ∀ q ∈ later, q ∈ w.pc.batch ++ w.queue := fun q hq =>
        heq ▸ mem_append_right _ hq
      constructor
      all_goals dsimp only
      all_goals rw [hq]
      · exact (List.pairwise_append.mp hlater).2.1
      · rw [hb.pending]
        exact hrest
      · rw [hb.writes.lastSeq, hb.writes.truncateGen]
        exact fun q hq => hcurrent q (hmem q hq)
      · rw [hb.writes.truncateGen]
        exact fun q hq => hgen q (hmem q hq)
    generations := by
      intro q hq
      rw [hb.writes.truncateGen]
      exact h.generations q (hsub'.subset hq)
    removed := by
      intro q hq
      rw [hb.writes.truncateGen]
      exact ⟨fun hmem => (h.removed q hq).1 (hsub'.subset hmem), (h.removed q hq).2⟩ }

/-! ## Runs -/

theorem Inv.live (h : Inv crc w parts) (hpc : ¬ w.pc.Dead) : w.failed = false := by
  cases hf : w.failed with
  | false => rfl
  | true => exact absurd (h.dead.mp hf) hpc

theorem Inv.write (h : Inv crc w parts) (hpc : w.pc = .write batch) (now : ℕ) :
    ∃ parts', Inv crc (exec crc mode w (.write now)) parts' ∧
      ∀ r ∈ stored parts', r ∈ stored parts ∨ r ∈ (w.writes (.write now)).map (·.record) := by
  have hbatch : w.pc.batch ++ w.queue = batch ++ w.queue := by rw [hpc]; rfl
  obtain ⟨st', hwm, parts', hwrite, hstored, hhwm, -, -, hinv⟩ :=
    h.written (h.live (by rw [hpc]; exact id)) hbatch now
  refine ⟨parts', ?_, fun r hr => ?_⟩
  · dsimp only [exec]
    rw [hpc]
    dsimp only
    rw [hwrite]
    have hfailed := h.live (by rw [hpc]; exact id)
    cases mode with
    | consistent =>
      have := hinv (.fsync batch hwm st'.truncateGen 0) w.queue false ⟨le_rfl, fun _ => hhwm⟩
        (by simp [WriterPc.Dead]) fun _ => rfl
      rwa [← hfailed] at this
    | eventual =>
      have := hinv .idle w.queue false trivial (by simp [WriterPc.Dead]) fun _ => rfl
      rwa [← hfailed] at this
  · unfold writes
    rw [hpc]
    rw [hstored] at hr
    exact List.mem_append.mp hr

theorem Inv.writeFails (h : Inv crc w parts) (hpc : w.pc = .write batch) (n now : ℕ) :
    ∃ parts', Inv crc (exec crc mode w (.writeFails n now)) parts' ∧
      ∀ r ∈ stored parts', r ∈ stored parts ∨ r ∈ (w.writes (.writeFails n now)).map (·.record) := by
  have hbatch : w.pc.batch ++ w.queue = batch.take n ++ (batch.drop n ++ w.queue) := by
    rw [hpc, ← append_assoc, take_append_drop]
    rfl
  obtain ⟨st', hwm, parts', hwrite, hstored, -, -, -, hinv⟩ :=
    h.written (h.live (by rw [hpc]; exact id)) hbatch now
  refine ⟨parts', ?_, fun r hr => ?_⟩
  · dsimp only [exec]
    rw [hpc]
    dsimp only
    rw [hwrite]
    exact hinv .halting w.queue true trivial (by simp [WriterPc.Dead]) (by simp)
  · unfold writes
    rw [hpc]
    rw [hstored] at hr
    refine (List.mem_append.mp hr).imp id fun hr => ?_
    exact List.map_subset _ ((List.take_sublist n batch).filter _).subset hr

theorem Inv.redrain (h : Inv crc w parts) (hpc : w.pc = .fsync batch hwm generation rounds)
    {n now : ℕ} (hsafe : w.Safe (.redrain n now)) :
    ∃ parts', Inv crc (exec crc mode w (.redrain n now)) parts' ∧
      ∀ r ∈ stored parts', r ∈ stored parts ∨ r ∈ (w.writes (.redrain n now)).map (·.record) := by
  have hfailed := h.live (by rw [hpc]; exact id)
  have hbatch : w.pc.batch ++ w.queue = w.queue.take n ++ w.queue.drop n := by
    rw [hpc, take_append_drop]
    rfl
  obtain ⟨st', extra, parts', hwrite, hstored, hhwm, hgrown, htracked, hinv⟩ :=
    h.written hfailed hbatch now
  refine ⟨parts', ?_, fun r hr => by rw [hstored] at hr; exact List.mem_append.mp hr⟩
  have hmark : ∀ x ∈ foldHwm hwm extra, st'.persistedAny = true ∧ x ≤ st'.persistedHwm := by
    have hold : ∀ x ∈ hwm, st'.persistedAny = true ∧ x ≤ st'.persistedHwm := by
      intro x hx
      unfold Safe at hsafe
      rw [hpc] at hsafe
      rcases hsafe x hx with ⟨hany, hle⟩ | ⟨q, hq, howns, hle⟩
      · exact ⟨(hgrown hany).1, hle.trans (hgrown hany).2⟩
      · have hq : q.record ∈ stored parts' := by
          rw [hstored]
          exact mem_append_right _ (mem_map_of_mem (List.mem_filter.mpr ⟨hq, howns⟩))
        exact ⟨(htracked.written _ hq).1, hle.trans (htracked.written _ hq).2⟩
    intro x hx
    cases hwm with
    | none => exact hhwm x (by cases extra <;> exact hx)
    | some a =>
      cases extra with
      | none => exact hold x hx
      | some b =>
        obtain rfl := Option.mem_some.mp hx
        exact ⟨(hold a rfl).1, max_le (hold a rfl).2 (hhwm b rfl).2⟩
  dsimp only [exec]
  rw [hpc]
  rw [hwrite]
  have := hinv (.fsync (batch ++ w.queue.take n) (foldHwm hwm extra) st'.truncateGen (rounds + 1))
    (w.queue.drop n) false ⟨le_rfl, fun _ => hmark⟩ (by simp [WriterPc.Dead]) fun _ => rfl
  rwa [← hfailed] at this

theorem Inv.redrainFails (h : Inv crc w parts) (hpc : w.pc = .fsync batch hwm generation rounds)
    (n written now : ℕ) :
    ∃ parts', Inv crc (exec crc mode w (.redrainFails n written now)) parts' ∧
      ∀ r ∈ stored parts', r ∈ stored parts ∨
        r ∈ (w.writes (.redrainFails n written now)).map (·.record) := by
  have hbatch : w.pc.batch ++ w.queue = (w.queue.take n).take written ++
      ((w.queue.take n).drop written ++ w.queue.drop n) := by
    rw [hpc, ← append_assoc, take_append_drop, take_append_drop]
    rfl
  obtain ⟨st', extra, parts', hwrite, hstored, -, -, -, hinv⟩ :=
    h.written (h.live (by rw [hpc]; exact id)) hbatch now
  refine ⟨parts', ?_, fun r hr => ?_⟩
  · dsimp only [exec]
    rw [hwrite]
    exact hinv .halting _ true trivial (by simp [WriterPc.Dead]) (by simp)
  · rw [hstored] at hr
    refine (List.mem_append.mp hr).imp id fun hr => ?_
    exact List.map_subset _ ((List.take_sublist written (w.queue.take n)).filter _).subset hr

variable {s : ThreadStep}

theorem Inv.exec (h : Inv crc w parts) (hp : w.Possible mode s) (hsafe : w.Safe s) :
    ∃ parts', Inv crc (exec crc mode w s) parts' ∧
      ∀ r ∈ stored parts', r ∈ stored parts ∨ r ∈ (w.writes s).map (·.record) := by
  have hsame : Inv crc (w.exec crc mode s) parts → ∃ parts', Inv crc (w.exec crc mode s) parts' ∧
      ∀ r ∈ stored parts', r ∈ stored parts ∨ r ∈ (w.writes s).map (·.record) :=
    fun hinv => ⟨parts, hinv, fun _ hr => .inl hr⟩
  cases s with
  | append r => exact hsame (h.append hp hsafe)
  | truncateAfter keepSeq now =>
    obtain ⟨parts', hinv, hstored⟩ := h.truncateAfter hsafe
    exact ⟨parts', hinv, fun r hr => .inl (hstored r hr)⟩
  | truncateAll now =>
    obtain ⟨parts', hinv, hstored⟩ := h.truncateAll now
    exact ⟨parts', hinv, fun r hr => .inl (hstored r hr)⟩
  | wait seq => exact hsame h
  | onDurable seq => exact hsame (h.onDurable seq)
  | recv n =>
    refine hsame (h.move trivial ?_ (by rw [hp.1]; exact id) id)
    rw [hp.1]
    exact take_append_drop n w.queue
  | snapshot =>
    refine hsame (h.move ⟨le_rfl, fun _ x hx => ?_⟩ (by rw [hp.2]; rfl) (by rw [hp.2]; exact id) id)
    cases hany : w.st.persistedAny with
    | false =>
      rw [hany] at hx
      simp at hx
    | true =>
      rw [hany] at hx
      exact ⟨rfl, (Option.mem_some.mp hx).ge⟩
  | write now =>
    obtain ⟨batch, hpc⟩ := hp
    exact h.write hpc now
  | writeFails n now =>
    obtain ⟨batch, hpc⟩ := hp
    exact h.writeFails hpc n now
  | redrain n now =>
    obtain ⟨-, -, -, batch, hwm, generation, rounds, -, hpc⟩ := hp
    exact h.redrain hpc hsafe
  | redrainFails n written now =>
    obtain ⟨-, -, -, batch, hwm, generation, rounds, -, hpc⟩ := hp
    exact h.redrainFails hpc n written now
  | takeHandle =>
    obtain ⟨batch, hwm, generation, rounds, hpc⟩ := hp
    have hw := h.pc
    unfold PcOk at hw
    rw [hpc] at hw
    refine hsame ?_
    dsimp only [JournalThreads.exec]
    rw [hpc]
    exact h.move ⟨hw.1, hw.2, .inr rfl⟩ (by rw [hpc]; rfl) (by rw [hpc]; exact id) id
  | sync =>
    obtain ⟨batch, hwm, generation, handle, hpc⟩ := hp
    refine ⟨_, h.sync hpc, fun r hr => .inl ?_⟩
    rwa [syncParts_stored] at hr
  | syncFails =>
    obtain ⟨batch, hwm, generation, handle, hpc⟩ := hp
    refine hsame ?_
    dsimp only [JournalThreads.exec]
    rw [hpc]
    exact h.dies trivial trivial
  | clearDirty =>
    obtain ⟨batch, hwm, generation, hpc⟩ := hp
    exact hsame (h.clearDirty hpc)
  | publish =>
    obtain ⟨batch, hwm, generation, hpc⟩ := hp
    exact hsame (h.publish hpc)
  | signal =>
    obtain ⟨batch, hpc⟩ := hp
    exact hsame (h.move trivial (by rw [hpc]; rfl) (by rw [hpc]; exact id) id)
  | publishError =>
    obtain ⟨hwm, generation, hpc⟩ := hp
    exact hsame (h.publishError hpc)
  | halt =>
    have hfailed : w.failed = true := h.dead.mpr (by rw [hp]; trivial)
    have hinv : Inv crc { w with
        st := { w.st with poisoned := true }, queue := [], pc := .stopped, failed := true } parts :=
      h.dies trivial trivial
    refine hsame ?_
    dsimp only [JournalThreads.exec]
    rw [hfailed]
    exact hinv

theorem Inv.covered (h : Inv crc w parts) (hp : w.Possible mode s) (hsafe : w.Safe s) :
    ∀ seq ∈ w.reports mode s, w.Covered crc seq := by
  -- a sequence at or below the watermark; with nothing published it is 0
  have hasked : ∀ seq, w.watermark.isDurable seq = true →
      (seq = 0 → w.watermark.anyPublished = true ∨ w.st.firstSeq ≠ some 0) → w.Covered crc seq := by
    intro seq hdur hzero
    have hle : seq ≤ w.watermark.durableSeq := by simpa [isDurable] using hdur
    cases hany : w.watermark.anyPublished with
    | true => exact h.covered_of_claimed ⟨hany, hle⟩
    | false =>
      rw [h.unpublished hany] at hle
      have hseq : seq = 0 := Nat.le_zero.mp hle
      have hfirst := (hzero hseq).resolve_left (by simp [hany])
      intro r hr hrseq
      rw [h.present_eq] at hr
      obtain ⟨f, hf, hfr⟩ := h.lower r hr
      have hf0 : f = 0 := by omega
      exact absurd (hf0 ▸ hf) hfirst
  cases s with
  | wait seq =>
    intro seq' hmem
    dsimp only [reports] at hmem
    split at hmem
    · rename_i hdur
      rw [List.mem_singleton.mp hmem]
      exact hasked seq hdur hsafe
    · cases hmem
  | onDurable seq =>
    intro seq' hmem
    dsimp only [reports] at hmem
    split at hmem
    · rename_i hdur
      rw [List.mem_singleton.mp hmem]
      exact hasked seq hdur hsafe
    · cases hmem
  | publish =>
    obtain ⟨batch, hwm, generation, hpc⟩ := hp
    intro seq hmem
    have hw := h.pc
    unfold PcOk at hw
    unfold reports at hmem
    rw [hpc] at hw hmem
    obtain ⟨-, hmark, hall⟩ := hw
    cases hwm with
    | none => cases hmem
    | some x =>
      dsimp only [fires] at hmem
      split at hmem
      swap
      · cases hmem
      rename_i hgen
      obtain ⟨hany, hle⟩ := hmark (hgen.trans h.generation) x rfl
      have hseq : seq ≤ max w.watermark.durableSeq x := by simpa using (List.mem_filter.mp hmem).2
      refine h.covered_of_synced hall fun q hq => ?_
      have hq := h.tracked.ahead hany q hq
      have hdur : w.watermark.durableSeq ≤ w.st.persistedHwm := by
        cases hp : w.watermark.anyPublished with
        | true => exact (h.claimed hp).2
        | false => rw [h.unpublished hp]; exact Nat.zero_le _
      omega
  | signal =>
    obtain ⟨batch, hpc⟩ := hp
    intro seq hmem
    have hw := h.pc
    unfold PcOk at hw
    unfold reports at hmem
    unfold Safe at hsafe
    rw [hpc] at hw hmem hsafe
    cases mode with
    | eventual => cases hmem
    | consistent =>
      obtain ⟨q, hq, rfl⟩ := List.mem_map.mp hmem
      exact h.covered_of_synced hw fun p hp => hsafe q hq p hp
  | _ => exact fun seq hmem => by cases hmem

theorem Inv.fenced (h : Inv crc w parts) (hp : w.Possible mode s) :
    ∀ q ∈ w.removed, q ∉ w.writes s := by
  have howns : ¬ w.pc.Dead → ∀ batch : List AppendRequest, (∀ q ∈ batch, q ∈ w.pc.batch ++ w.queue) →
      ∀ q ∈ w.removed, q ∉ batch.filter w.st.owns := by
    intro hlive batch hsub q hq hmem
    obtain ⟨hmem, ho⟩ := List.mem_filter.mp hmem
    obtain ⟨hlater, hpend, -, -⟩ := h.queued (h.live hlive)
    exact (h.removed q hq).1 ((owns_iff hlater hpend h.before.sorted (hsub q hmem)).mp ho)
  have hwrite : ∀ batch, w.pc = .write batch → ∀ q ∈ w.removed, q ∉ batch.filter w.st.owns :=
    fun batch hpc => howns (by rw [hpc]; exact id) batch fun q hq => by
      rw [hpc]
      exact mem_append_left _ hq
  have hdrain : ∀ n, ¬ w.pc.Dead → ∀ q ∈ w.removed, q ∉ (w.queue.take n).filter w.st.owns :=
    fun n hlive => howns hlive _ fun q hq => mem_append_right _ (List.mem_of_mem_take hq)
  cases s with
  | write now =>
    obtain ⟨batch, hpc⟩ := hp
    unfold writes
    rw [hpc]
    exact hwrite batch hpc
  | writeFails n now =>
    obtain ⟨batch, hpc⟩ := hp
    unfold writes
    rw [hpc]
    exact hwrite batch hpc
  | redrain n now =>
    obtain ⟨-, -, -, batch, hwm, generation, rounds, -, hpc⟩ := hp
    exact hdrain n (by rw [hpc]; exact id)
  | redrainFails n written now =>
    obtain ⟨-, -, -, batch, hwm, generation, rounds, -, hpc⟩ := hp
    exact hdrain n (by rw [hpc]; exact id)
  | _ => exact fun q _ hmem => by cases hmem

theorem Inv.halted (h : Inv crc w parts) (hp : w.Possible mode s) (hf : w.failed = true) :
    (w.exec crc mode s).failed = true ∧
      (w.exec crc mode s).watermark.durableSeq ≤ w.watermark.durableSeq ∧
      ∀ seq ∈ w.reports mode s, seq ≤ w.watermark.durableSeq := by
  have hdead := h.dead.mp hf
  have hasked : ∀ seq, ∀ seq' ∈ (if w.watermark.isDurable seq then [seq] else []),
      seq' ≤ w.watermark.durableSeq := by
    intro seq seq' hmem
    split at hmem
    · rename_i hdur
      rw [List.mem_singleton.mp hmem]
      simpa [isDurable] using hdur
    · cases hmem
  cases s with
  | append r =>
    dsimp only [JournalThreads.exec]
    split <;> exact ⟨hf, le_rfl, by simp [reports]⟩
  | truncateAfter keepSeq now =>
    dsimp only [JournalThreads.exec]
    split
    · exact ⟨hf, le_rfl, by simp [reports]⟩
    · exact ⟨hf, min_le_left _ _, by simp [reports]⟩
  | truncateAll now =>
    dsimp only [JournalThreads.exec]
    split
    · exact ⟨hf, le_rfl, by simp [reports]⟩
    · exact ⟨hf, Nat.zero_le _, by simp [reports]⟩
  | wait seq => exact ⟨hf, le_rfl, hasked seq⟩
  | onDurable seq =>
    refine ⟨hf, ?_, hasked seq⟩
    dsimp only [JournalThreads.exec, onComplete]
    split <;> exact le_rfl
  | publishError =>
    obtain ⟨hwm, generation, hpc⟩ := hp
    dsimp only [JournalThreads.exec]
    rw [hpc]
    refine ⟨hf, ?_, by simp [reports]⟩
    cases hwm with
    | none => exact le_rfl
    | some seq =>
      dsimp only [SeqWatermark.publishError]
      split <;> exact le_rfl
  | halt => exact ⟨hf, le_rfl, by simp [reports]⟩
  | recv n =>
    rw [hp.1] at hdead
    exact hdead.elim
  | snapshot =>
    rw [hp.2] at hdead
    exact hdead.elim
  | redrain n now =>
    obtain ⟨-, -, -, batch, hwm, generation, rounds, -, hpc⟩ := hp
    rw [hpc] at hdead
    exact hdead.elim
  | redrainFails n written now =>
    obtain ⟨-, -, -, batch, hwm, generation, rounds, -, hpc⟩ := hp
    rw [hpc] at hdead
    exact hdead.elim
  | takeHandle | sync | syncFails =>
    obtain ⟨batch, hwm, generation, x, hpc⟩ := hp
    rw [hpc] at hdead
    exact hdead.elim
  | clearDirty | publish =>
    obtain ⟨batch, hwm, generation, hpc⟩ := hp
    rw [hpc] at hdead
    exact hdead.elim
  | write now | writeFails n now | signal =>
    obtain ⟨batch, hpc⟩ := hp
    rw [hpc] at hdead
    exact hdead.elim

theorem inv_run {size : ℕ} (hsize : segmentHeaderSize < size) {preallocate : Bool}
    {steps : List ThreadStep} (h : Runs crc mode Safe (opened size preallocate) steps) :
    ∃ parts, Inv crc (run crc mode (opened size preallocate) steps) parts := by
  refine Trace.Admits.rule
    (P := fun steps => ∃ parts, Inv crc (run crc mode (opened size preallocate) steps) parts)
    ⟨[], inv_opened hsize preallocate⟩ ?_ h
  rintro steps s ⟨parts, hinv⟩ ⟨hp, hsafe⟩
  unfold run
  rw [List.foldl_append]
  obtain ⟨parts', hinv', -⟩ := hinv.exec hp hsafe
  exact ⟨parts', hinv'⟩

/-- **Durability is reported honestly**, in every run whose steps are safe. -/
theorem durability_honest (crc : Bytes → UInt32) (mode : Durability) (size : ℕ)
    (hsize : segmentHeaderSize < size) (preallocate : Bool) (steps : List ThreadStep) (s : ThreadStep)
    (h : Runs crc mode Safe (opened size preallocate) (steps ++ [s])) :
    Honest crc mode (run crc mode (opened size preallocate) steps) s := by
  obtain ⟨hruns, ⟨hp, hsafe⟩, -⟩ := Trace.admits_append.mp h
  obtain ⟨parts, hinv⟩ := inv_run hsize hruns
  obtain ⟨parts', hinv', hstored⟩ := hinv.exec hp hsafe
  refine ⟨hinv.covered hp hsafe, hinv.fenced hp, ?_, hinv.halted hp⟩
  have hsegs' := hinv'.before.segs
  rw [hinv.before.segs, hsegs', Journal.flatMap_recordsOf hinv.before.ok,
    Journal.flatMap_recordsOf hinv'.before.ok]
  exact hstored

/-- A record at sequence 0, from the append to the publish. -/
def oneRecord : List ThreadStep :=
  [.append ⟨0, 7, [1]⟩, .recv 1, .write 0, .takeHandle, .sync, .clearDirty, .publish]

theorem durability_honest_oneRecord :
    Runs (fun _ => 0) .consistent Safe (opened 64 false) (oneRecord ++ [.wait 0]) ∧
      (run (fun _ => 0) .consistent (opened 64 false) oneRecord).reports .consistent (.wait 0) = [0] ∧
      Honest (fun _ => 0) .consistent (run (fun _ => 0) .consistent (opened 64 false) oneRecord)
        (.wait 0) := by
  have hruns : Runs (fun _ => 0) .consistent Safe (opened 64 false) (oneRecord ++ [.wait 0]) := by
    refine ⟨⟨⟨by decide, by decide⟩, fun _ => by decide⟩, ⟨⟨rfl, by decide, by decide⟩, trivial⟩,
      ⟨⟨_, rfl⟩, trivial⟩,
      ⟨⟨_, _, _, _, rfl⟩, trivial⟩, ⟨⟨_, _, _, _, rfl⟩, trivial⟩, ⟨⟨_, _, _, rfl⟩, trivial⟩,
      ⟨⟨_, _, _, rfl⟩, trivial⟩, ⟨trivial, fun _ => .inl ?_⟩, trivial⟩
    decide +kernel
  exact ⟨hruns, by decide +kernel, durability_honest _ _ 64 (by decide) false oneRecord _ hruns⟩

/-- An empty watermark calls sequence 0 durable while its record is pending. -/
theorem zero_durable_while_pending :
    ¬ ∀ (crc : Bytes → UInt32) (mode : Durability) (size : ℕ), segmentHeaderSize < size →
      ∀ (preallocate : Bool) (steps : List ThreadStep) (s : ThreadStep),
        Runs crc mode (fun _ _ => True) (opened size preallocate) (steps ++ [s]) →
          Honest crc mode (run crc mode (opened size preallocate) steps) s := by
  intro hall
  have hruns : Runs (fun _ => 0) .consistent (fun _ _ => True) (opened 64 false)
      ([.append ⟨0, 7, [1]⟩] ++ [.wait 0]) :=
    ⟨⟨⟨by decide, by decide⟩, trivial⟩, ⟨trivial, trivial⟩, trivial⟩
  have hcovered := (hall (fun _ => 0) .consistent 64 (by decide) false _ _ hruns).covered 0
    (by decide +kernel)
  obtain ⟨seg, hseg, -⟩ := hcovered ⟨0, 7, [1]⟩ (by decide +kernel) rfl
  revert hseg
  exact List.not_mem_nil

end JournalThreads

end UltimaCluster
