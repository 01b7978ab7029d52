/-
  The threads of the journal: callers that append, truncate and wait for
  durability, and the writer thread (`uc_journal/src/journal/writer.rs`).

  A step is what one thread does under one lock, or one fsync.  The reports of
  a step are the sequences that it calls durable: by `wait_durable`, by an
  `on_durable` callback, and in `Consistent` mode by the notifier of an append.
  The end of the process is left out: `close` releases the waiters with errors
  only.
-/
import UltimaCluster.JournalMap

namespace UltimaCluster

/-- When an append returns. -/
inductive Durability where
  | consistent
  | eventual
deriving DecidableEq

/-! ## The watermark -/

/-- How far the journal is durable. -/
structure SeqWatermark where
  durableSeq : ℕ
  anyPublished : Bool
  generation : ℕ
  /-- The targets of the parked callbacks. -/
  callbacks : List ℕ
  lastError : Option ℕ
deriving DecidableEq

namespace SeqWatermark

variable (w : SeqWatermark)

def resetAll (generation : ℕ) : SeqWatermark :=
  { w with durableSeq := 0, anyPublished := false, generation }

def resetTo (keepSeq generation : ℕ) : SeqWatermark :=
  { w with durableSeq := min w.durableSeq keepSeq, generation }

/-- The callbacks that a publish fires. -/
def fires (seq generation : ℕ) : List ℕ :=
  if generation = w.generation then w.callbacks.filter (· ≤ max w.durableSeq seq) else []

/-- What an fsync has covered. -/
def publish (seq generation : ℕ) : SeqWatermark :=
  if generation ≠ w.generation then w
  else
    { w with
      durableSeq := max w.durableSeq seq
      anyPublished := true
      callbacks := w.callbacks.filter (max w.durableSeq seq < ·) }

/-- A write that failed. -/
def publishError (seq generation : ℕ) : SeqWatermark :=
  if generation ≠ w.generation then w
  else
    { w with
      lastError := if w.lastError.any (seq ≤ ·) then w.lastError else some seq
      callbacks := w.callbacks.filter (seq < ·) }

/-- `wait` returns `Ok`. -/
def isDurable (seq : ℕ) : Bool := seq ≤ w.durableSeq

def onComplete (seq : ℕ) : SeqWatermark :=
  if w.isDurable seq ∨ w.lastError.any (seq ≤ ·) then w
  else { w with callbacks := w.callbacks ++ [seq] }

end SeqWatermark

/-! ## The threads -/

/-- Where the writer is. -/
inductive WriterPc where
  | idle
  | write (batch : List AppendRequest)
  /-- The batch is written, or the interval of `Eventual` is over. -/
  | fsync (batch : List AppendRequest) (hwm : Option ℕ) (generation rounds : ℕ)
  /-- The handle is that of the segment with this base. -/
  | syncing (batch : List AppendRequest) (hwm : Option ℕ) (generation : ℕ) (handle : Option ℕ)
  | synced (batch : List AppendRequest) (hwm : Option ℕ) (generation : ℕ)
  | publish (batch : List AppendRequest) (hwm : Option ℕ) (generation : ℕ)
  | signal (batch : List AppendRequest)
  | failed (hwm : Option ℕ) (generation : ℕ)
  | halting
  | stopped
deriving DecidableEq

/-- The callers and the writer thread. -/
structure JournalThreads where
  st : WriterState
  queue : List AppendRequest
  watermark : SeqWatermark
  pc : WriterPc
  /-- The requests whose records a truncation removed before they were written. -/
  removed : List AppendRequest
  /-- A write or an fsync has failed. -/
  failed : Bool
deriving DecidableEq

/-- A call, or a step of the writer. -/
inductive ThreadStep where
  | append (r : JournalRecord)
  | truncateAfter (keepSeq now : ℕ)
  | truncateAll (now : ℕ)
  | wait (seq : ℕ)
  | onDurable (seq : ℕ)
  /-- The writer takes the next requests. -/
  | recv (n : ℕ)
  | snapshot
  | write (now : ℕ)
  /-- The write fails after some of the requests. -/
  | writeFails (n now : ℕ)
  | redrain (n now : ℕ)
  | redrainFails (n written now : ℕ)
  | takeHandle
  | sync
  | syncFails
  | clearDirty
  | publish
  | signal
  | publishError
  | halt

namespace JournalThreads

variable (crc : Bytes → UInt32) (mode : Durability)

/-- `MAX_REDRAIN_ROUNDS`. -/
def maxRedrainRounds : ℕ := 4

/-- What the threads can do. -/
def Possible (w : JournalThreads) : ThreadStep → Prop
  | .append r => r.seq < 2 ^ 64 ∧ r.meta_ < 2 ^ 64
  | .truncateAfter keepSeq _ => keepSeq < 2 ^ 64
  | .recv n => w.pc = .idle ∧ 0 < n ∧ n ≤ w.queue.length
  | .snapshot => mode = .eventual ∧ w.pc = .idle
  | .write _ | .writeFails _ _ => ∃ batch, w.pc = .write batch
  | .redrain n _ | .redrainFails n _ _ => mode = .consistent ∧ 0 < n ∧ n ≤ w.queue.length ∧
      ∃ batch hwm generation rounds, rounds < maxRedrainRounds ∧
        w.pc = .fsync batch hwm generation rounds
  | .takeHandle => ∃ batch hwm generation rounds, w.pc = .fsync batch hwm generation rounds
  | .sync | .syncFails => ∃ batch hwm generation handle, w.pc = .syncing batch hwm generation handle
  | .clearDirty => ∃ batch hwm generation, w.pc = .synced batch hwm generation
  | .publish => ∃ batch hwm generation, w.pc = .publish batch hwm generation
  | .signal => ∃ batch, w.pc = .signal batch
  | .publishError => ∃ hwm generation, w.pc = .failed hwm generation
  | .halt => w.pc = .halting
  | _ => True

/-- The higher of two marks, if any. -/
def foldHwm (a b : Option ℕ) : Option ℕ :=
  match a, b with
  | some a, some b => some (max a b)
  | a, b => a.or b

/-- The segment of a handle is synced as far as it is written. -/
def syncSegment (segments : List SegmentFile) (handle : Option ℕ) : List SegmentFile :=
  segments.map fun s => if some s.baseSeq = handle then { s with synced := s.size } else s

/-- One step of a thread. -/
def exec (w : JournalThreads) : ThreadStep → JournalThreads
  | .append r =>
    match w.st.append r with
    | .ok (st, req) => { w with st, queue := w.queue ++ [req] }
    | .error _ => w
  | .truncateAfter keepSeq now =>
    if w.st.poisoned then w
    else
      let st := (w.st.truncateAfter crc now keepSeq).1
      { w with
        st
        watermark := w.watermark.resetTo keepSeq st.truncateGen
        removed := w.removed ++ w.st.pending.filter (keepSeq < ·.seq) }
  | .truncateAll now =>
    if w.st.poisoned then w
    else
      let st := (w.st.truncateAll crc now).1
      { w with
        st
        watermark := w.watermark.resetAll st.truncateGen
        removed := w.removed ++ w.st.pending }
  | .wait _ => w
  | .onDurable seq => { w with watermark := w.watermark.onComplete seq }
  | .recv n => { w with pc := .write (w.queue.take n), queue := w.queue.drop n }
  | .snapshot =>
    { w with
      pc := .fsync [] (if w.st.persistedAny then some w.st.persistedHwm else none) w.st.truncateGen
        maxRedrainRounds }
  | .write now =>
    match w.pc with
    | .write batch =>
      match w.st.writeBatch crc now batch with
      | (st, .ok (hwm, generation)) =>
        { w with
          st
          pc := match mode with
            | .consistent => .fsync batch hwm generation 0
            | .eventual => .idle }
      | (st, .error _) => { w with st, pc := .halting, failed := true }
    | _ => w
  | .writeFails n now =>
    match w.pc with
    | .write batch =>
      { w with st := (w.st.writeBatch crc now (batch.take n)).1, pc := .halting, failed := true }
    | _ => w
  | .redrain n now =>
    match w.pc with
    | .fsync batch hwm _ rounds =>
      let extra := w.queue.take n
      match w.st.writeBatch crc now extra with
      | (st, .ok (extraHwm, generation)) =>
        { w with
          st
          queue := w.queue.drop n
          pc := .fsync (batch ++ extra) (foldHwm hwm extraHwm) generation (rounds + 1) }
      | (st, .error _) => { w with st, queue := w.queue.drop n, pc := .halting, failed := true }
    | _ => w
  | .redrainFails n written now =>
    { w with
      st := (w.st.writeBatch crc now ((w.queue.take n).take written)).1
      queue := w.queue.drop n
      pc := .halting, failed := true }
  | .takeHandle =>
    match w.pc with
    | .fsync batch hwm generation _ =>
      { w with pc := .syncing batch hwm generation (w.st.segments.getLast?.map (·.baseSeq)) }
    | _ => w
  | .sync =>
    match w.pc with
    | .syncing batch hwm generation handle =>
      { w with
        st := { w.st with segments := syncSegment w.st.segments handle }
        pc := .synced batch hwm generation }
    | _ => w
  | .syncFails =>
    match w.pc with
    | .syncing _ hwm generation _ => { w with pc := .failed hwm generation, failed := true }
    | _ => w
  | .clearDirty =>
    match w.pc with
    | .synced batch hwm generation =>
      { w with
        st := { w.st with activeSegmentDirty := false }
        pc := .publish batch hwm generation }
    | _ => w
  | .publish =>
    match w.pc with
    | .publish batch hwm generation =>
      { w with
        watermark := match hwm with
          | some seq => w.watermark.publish seq generation
          | none => w.watermark
        pc := .signal batch }
    | _ => w
  | .signal => { w with pc := .idle }
  | .publishError =>
    match w.pc with
    | .failed hwm generation =>
      { w with
        watermark := match hwm with
          | some seq => w.watermark.publishError seq generation
          | none => w.watermark
        pc := .halting }
    | _ => w
  | .halt => { w with st := { w.st with poisoned := true }, queue := [], pc := .stopped }

/-- The sequences that a step calls durable. -/
def reports (w : JournalThreads) : ThreadStep → List ℕ
  | .wait seq | .onDurable seq => if w.watermark.isDurable seq then [seq] else []
  | .publish =>
    match w.pc with
    | .publish _ (some seq) generation => w.watermark.fires seq generation
    | _ => []
  | .signal =>
    match mode, w.pc with
    | .consistent, .signal batch => batch.map (·.seq)
    | _, _ => []
  | _ => []

/-- The requests that a step writes: those of its batch that own their
    sequence. -/
def writes (w : JournalThreads) : ThreadStep → List AppendRequest
  | .write _ | .writeFails _ _ =>
    match w.pc with
    | .write batch => batch.filter w.st.owns
    | _ => []
  | .redrain n _ | .redrainFails n _ _ => (w.queue.take n).filter w.st.owns
  | _ => []

/-- The records in the first bytes of a segment. -/
def recordsIn (bytes : Bytes) : List JournalRecord :=
  match scanBytes crc bytes with
  | .ok scan => scan.records
  | .error _ => []

/-- The record at a sequence, if there is one, lies in bytes of a segment that
    an fsync has covered. -/
def Covered (w : JournalThreads) (seq : ℕ) : Prop :=
  ∀ r ∈ Journal.present crc ⟨w.st, w.queue⟩, r.seq = seq →
    ∃ seg ∈ w.st.segments, r ∈ recordsIn crc (seg.bytes.take seg.synced)

/-- Nobody asks about a record at sequence 0 before the first publish; a
    truncation keeps the first record, or nothing was written; a later batch
    joins a barrier only if the mark of the earlier ones is still written, or
    the batch reaches it; and no request of a batch is signalled while another
    record waits at its sequence. -/
def Safe (w : JournalThreads) : ThreadStep → Prop
  | .append r => r.total ≤ w.st.segmentSize → 16 + r.payload.length < 2 ^ 32
  | .wait seq | .onDurable seq =>
    seq = 0 → w.watermark.anyPublished = true ∨ w.st.firstSeq ≠ some 0
  | .truncateAfter keepSeq _ => (∃ first ∈ w.st.firstSeq, first ≤ keepSeq) ∨
      w.st.persistedAny = false
  | .redrain n _ =>
    match w.pc with
    | .fsync _ hwm _ _ => ∀ h ∈ hwm, (w.st.persistedAny = true ∧ h ≤ w.st.persistedHwm) ∨
        ∃ q ∈ w.queue.take n, w.st.owns q ∧ h ≤ q.seq
    | _ => True
  | .signal =>
    match w.pc with
    | .signal batch => ∀ q ∈ batch, ∀ p ∈ w.st.pending, p.seq ≠ q.seq
    | _ => True
  | _ => True

def run (w : JournalThreads) (steps : List ThreadStep) : JournalThreads :=
  steps.foldl (exec crc mode) w

/-- A run whose steps are possible and meet `P` where they are taken. -/
def Runs (P : JournalThreads → ThreadStep → Prop) (w : JournalThreads) (steps : List ThreadStep) :
    Prop :=
  Trace.Admits (exec crc mode) (fun w s => w.Possible mode s ∧ P w s) w steps

/-- A step is honest: what it calls durable is covered, it writes no request
    that a truncation removed and nothing else but requests, and after an error
    it calls nothing durable that was not durable before. -/
structure Honest (w : JournalThreads) (s : ThreadStep) : Prop where
  covered : ∀ seq ∈ w.reports mode s, w.Covered crc seq
  fenced : ∀ q ∈ w.removed, q ∉ w.writes s
  stored : ∀ r ∈ (w.exec crc mode s).st.segments.flatMap (Journal.recordsOf crc),
    r ∈ w.st.segments.flatMap (Journal.recordsOf crc) ∨ r ∈ (w.writes s).map (·.record)
  halted : w.failed = true →
    (w.exec crc mode s).failed = true ∧
      (w.exec crc mode s).watermark.durableSeq ≤ w.watermark.durableSeq ∧
      ∀ seq ∈ w.reports mode s, seq ≤ w.watermark.durableSeq

/-- The journal is opened on an empty directory. -/
def opened (segmentSize : ℕ) (preallocate : Bool) : JournalThreads where
  st := WriterState.fresh segmentSize preallocate
  queue := []
  watermark := ⟨0, false, 0, [], none⟩
  pc := .idle
  removed := []
  failed := false

end JournalThreads

end UltimaCluster
