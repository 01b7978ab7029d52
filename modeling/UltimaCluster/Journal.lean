/-
  The journal: its state under the lock, and the operations on it
  (`uc_journal/src/journal/mod.rs`, `write_batch` and `flush_run` of
  `uc_journal/src/journal/writer.rs`).

  `pending` is a `BTreeMap`, kept as the list of its entries in the order of
  their sequences.  File operations succeed here; what a crash leaves of them
  is modelled elsewhere.
-/
import UltimaCluster.Segment

namespace UltimaCluster

/-! ## State -/

/-- A record with the generation it was put in. -/
structure AppendRequest where
  record : JournalRecord
  /-- The truncation generation at submission. -/
  generation : ℕ
deriving DecidableEq

namespace AppendRequest

def seq (q : AppendRequest) : ℕ := q.record.seq

end AppendRequest

/-- The files and what waits to be written. -/
structure WriterState where
  segmentSize : ℕ
  preallocate : Bool
  segments : List SegmentFile
  lastSeq : Option ℕ
  firstSeq : Option ℕ
  pending : List AppendRequest
  truncateGen : ℕ
  persistedHwm : ℕ
  persistedAny : Bool
  activeSegmentDirty : Bool
  poisoned : Bool
deriving DecidableEq

/-- `KEEP_NONE_SENTINEL`. -/
def keepNoneSentinel : ℕ := 2 ^ 64 - 1

/-- One end of a range. -/
inductive Bound where
  | included (n : ℕ)
  | excluded (n : ℕ)
  | unbounded
deriving DecidableEq

/-- The bounds of a range as inclusive ones; both conversions saturate. -/
def boundsToInclusive (start stop : Bound) (first last : Option ℕ) : ℕ × ℕ :=
  let lo := match start with
    | .included n => n
    | .excluded n => min (n + 1) (2 ^ 64 - 1)
    | .unbounded => first.getD 0
  let hi := match stop with
    | .included n => n
    | .excluded n => n - 1
    | .unbounded => last.getD (2 ^ 64 - 1)
  (lo, hi)

namespace WriterState

/-- An empty directory. -/
def fresh (segmentSize : ℕ) (preallocate : Bool) : WriterState where
  segmentSize := segmentSize
  preallocate := preallocate
  segments := []
  lastSeq := none
  firstSeq := none
  pending := []
  truncateGen := 0
  persistedHwm := 0
  persistedAny := false
  activeSegmentDirty := false
  poisoned := false

/-! ## Appends and reads -/

/-- Queue a record. -/
def append (st : WriterState) (r : JournalRecord) :
    Except JournalError (WriterState × AppendRequest) :=
  if st.poisoned then .error .closed
  else if st.segmentSize < r.total then
    .error (.payloadTooLargeForSegment st.segmentSize r.total)
  else
    match st.lastSeq.filter (r.seq ≤ ·) with
    | some last => .error (.nonMonotonicSeq last r.seq)
    | none =>
      let req : AppendRequest := ⟨r, st.truncateGen⟩
      .ok ({ st with
        firstSeq := st.firstSeq.or (some r.seq)
        lastSeq := some r.seq
        -- the sequence is above every entry, so it goes to the end of the map
        pending := st.pending.filter (·.seq ≠ r.seq) ++ [req] }, req)

section
variable (crc : Bytes → UInt32)

/-- One record, written or queued. -/
def read (st : WriterState) (seq : ℕ) : Except JournalError (Option (ℕ × Bytes)) :=
  match st.pending.find? (·.seq = seq) with
  | some q => .ok (some (q.record.meta_, q.record.payload))
  | none =>
    match st.segments.reverse.find? (·.baseSeq ≤ seq) with
    | none => .ok none
    | some seg => seg.readRecord crc seq

/-- The segments of a range read, each with the base of the next one. -/
def readSegments (lo hi : ℕ) : List SegmentFile → Except JournalError (List JournalRecord)
  | [] => .ok []
  | seg :: rest =>
    if hi < seg.baseSeq then .ok []
    else if (rest.head?.map (·.baseSeq)).any (· ≤ lo) then readSegments lo hi rest
    else do
      let window ← seg.readWindow crc lo hi
      let more ← readSegments lo hi rest
      return window ++ more

/-- The records of a range. -/
def readRange (st : WriterState) (start stop : Bound) :
    Except JournalError (List JournalRecord) := do
  let (lo, hi) := boundsToInclusive start stop st.firstSeq st.lastSeq
  let out ← readSegments crc lo hi st.segments
  if lo ≤ hi then
    let overlay := (st.pending.filter fun q => lo ≤ q.seq ∧ q.seq ≤ hi).map (·.record)
    return (out ++ overlay).mergeSort fun r r' => r.seq ≤ r'.seq
  else return out

/-! ## Truncation -/

/-- The byte just past the last of the leading records up to `keepSeq`. -/
def truncatePoint (scan : ScanResult) (keepSeq : ℕ) : ℕ :=
  let kept := scan.records.takeWhile fun r => r.seq ≤ keepSeq
  if kept.length < scan.records.length then
    segmentHeaderSize + (kept.map (·.total)).sum
  else scan.lastDurableOffset

/-- The last index with a base up to `keepSeq`. -/
def boundaryIndex (segments : List SegmentFile) (keepSeq : ℕ) : Option ℕ :=
  ((List.range segments.length).filter fun i =>
    (segments[i]?).any (·.baseSeq ≤ keepSeq)).getLast?

def applyTruncateToSegments (now : ℕ) (segments : List SegmentFile) (keepSeq : ℕ) :
    Except JournalError (List SegmentFile) :=
  if keepSeq = keepNoneSentinel then .ok [SegmentFile.create crc 0 now]
  else
    match boundaryIndex segments keepSeq with
    | none => .ok []
    | some i =>
      match segments[i]? with
      | none => .ok []
      | some seg => do
        let scan ← seg.scan crc
        return segments.take i ++ [seg.truncate (truncatePoint scan keepSeq)]

/-- Drop the records above. -/
def truncateAfter (now : ℕ) (st : WriterState) (keepSeq : ℕ) :
    WriterState × Except JournalError Unit :=
  if st.poisoned then (st, .error .closed)
  else
    let st := { st with
      pending := st.pending.filter (·.seq ≤ keepSeq)
      truncateGen := st.truncateGen + 1
      persistedHwm := min st.persistedHwm keepSeq }
    match applyTruncateToSegments crc now st.segments keepSeq with
    | .error e => (st, .error e)
    | .ok segments =>
      let lastSeq := if st.firstSeq.any (· ≤ keepSeq) then some keepSeq else none
      ({ st with
        segments, lastSeq
        activeSegmentDirty := false
        firstSeq := if lastSeq = none then none else st.firstSeq }, .ok ())

/-- Drop every record. -/
def truncateAll (now : ℕ) (st : WriterState) : WriterState × Except JournalError Unit :=
  if st.poisoned then (st, .error .closed)
  else
    let st := { st with
      pending := []
      truncateGen := st.truncateGen + 1
      persistedHwm := 0
      persistedAny := false }
    match applyTruncateToSegments crc now st.segments keepNoneSentinel with
    | .error e => (st, .error e)
    | .ok segments =>
      ({ st with segments, activeSegmentDirty := false, firstSeq := none, lastSeq := none }, .ok ())

/-- The leading segments that a purge drops: those whose successor begins at or
    below `seq + 1`. -/
def keepSegments (seq : ℕ) : List SegmentFile → List SegmentFile
  | seg :: next :: rest =>
    if next.baseSeq - 1 ≤ seq then keepSegments seq (next :: rest) else seg :: next :: rest
  | segs => segs

/-- Drop whole segments below. -/
def purgeBefore (st : WriterState) (seq : ℕ) : WriterState :=
  let segments := keepSegments seq st.segments
  { st with
    segments
    firstSeq := (segments.head?.map (·.baseSeq)).filter fun b => st.lastSeq.any (b ≤ ·) }

/-! ## The writer -/

/-- A request is written only as the owner of its sequence. -/
def owns (st : WriterState) (q : AppendRequest) : Bool :=
  (st.pending.find? (·.seq = q.seq)).any (·.generation == q.generation)

/-- Write a run of records. -/
def flushRun (st : WriterState) (run : List JournalRecord) : WriterState :=
  match st.segments.getLast?, run.getLast? with
  | some seg, some last =>
    { st with
      segments := st.segments.dropLast ++ [seg.appendRecords crc run]
      activeSegmentDirty := true
      pending := st.pending.filter fun q => q.seq ∉ run.map (·.seq)
      persistedHwm := max st.persistedHwm last.seq
      persistedAny := true }
  | _, _ => st

/-- The fsync of the segment that is left, and the next one. -/
def rollSegment (now : ℕ) (st : WriterState) (baseSeq : ℕ) : WriterState :=
  let sealed := if st.activeSegmentDirty then
      match st.segments.getLast? with
      | some seg => st.segments.dropLast ++ [{ seg with synced := seg.size }]
      | none => st.segments
    else st.segments
  let seg := if st.preallocate then SegmentFile.activatePreallocTemp crc st.segmentSize baseSeq now
    else SegmentFile.create crc baseSeq now
  { st with segments := sealed ++ [seg], activeSegmentDirty := false }

/-- The loop of `write_batch`: the run for the last segment, its projected size
    and the last sequence of the batch. -/
def writeLoop (now : ℕ) (st : WriterState) (run : List JournalRecord) (projected : ℕ)
    (prev : Option ℕ) : List AppendRequest → WriterState × Except JournalError (Option ℕ)
  | [] => (st.flushRun crc run, .ok prev)
  | q :: rest =>
    if ¬ st.owns q then writeLoop now st run projected prev rest
    else
      match prev.filter (q.seq ≤ ·) with
      | some last => (st.flushRun crc run, .error (.nonMonotonicSeq last q.seq))
      | none =>
        if st.segmentSize < q.record.total then
          (st.flushRun crc run, .error (.payloadTooLargeForSegment st.segmentSize q.record.total))
        else if st.segments = [] ∨ st.segmentSize ≤ projected then
          let st := (st.flushRun crc run).rollSegment crc now q.seq
          writeLoop now st [q.record] (segmentHeaderSize + q.record.total) (some q.seq) rest
        else writeLoop now st (run ++ [q.record]) (projected + q.record.total) (some q.seq) rest

/-- The high-water sequence of the batch and the generation. -/
def writeBatch (now : ℕ) (st : WriterState) (batch : List AppendRequest) :
    WriterState × Except JournalError (Option ℕ × ℕ) :=
  let projected := (st.segments.getLast?.map (·.size)).getD 0
  let (st, res) := st.writeLoop crc now [] projected none batch
  (st, res.map fun hwm => (hwm, st.truncateGen))

end

end WriterState

end UltimaCluster
