/-
  The archive of the log (`uc_log/src/archive.rs`): blocks of whole frames in a
  journal, recorded at the durable position, cut at the end, purged at the beginning
  and replayed from anywhere between.

  The journal is kept by its records in their segments, with every append written
  before it returns; its files are the matter of `Journal`.  When it rolls to another
  segment is a choice of the step.  A read of a block that is not there is an error
  here where the source panics.  Of the buffer there are the committed bytes up to the
  append counter or the wrap; the counters and the log clock are left out.
-/
import UltimaCluster.LogFollower

namespace UltimaCluster

/-! ## The journal of blocks -/

/-- A record of the journal: its `meta` is the position of its first frame. -/
structure ArchivedBlock where
  seq : ℕ
  base : ℕ
  bytes : Bytes
deriving DecidableEq

namespace ArchivedBlock

/-- Where the block ends. -/
def finish (k : ArchivedBlock) : ℕ := k.base + k.bytes.length

/-- Its record in a segment. -/
def total (k : ArchivedBlock) : ℕ := 4 + (16 + k.bytes.length) + 4

end ArchivedBlock

/-- The journal, segment by segment. -/
structure BlockJournal where
  segmentSize : ℕ
  segments : List (List ArchivedBlock)
deriving DecidableEq

namespace BlockJournal

def blocks (j : BlockJournal) : List ArchivedBlock := j.segments.flatten

def firstSeq (j : BlockJournal) : Option ℕ := j.blocks.head?.map ArchivedBlock.seq

def lastSeq (j : BlockJournal) : Option ℕ := j.blocks.getLast?.map ArchivedBlock.seq

def read (j : BlockJournal) (seq : ℕ) : Option ArchivedBlock := j.blocks.find? (·.seq = seq)

/-- Why the journal refuses a block. -/
inductive Error where
  | nonMonotonicSeq
  | payloadTooLargeForSegment
deriving DecidableEq

/-- A block at the end, rolling if asked to. -/
def append (j : BlockJournal) (roll : Bool) (k : ArchivedBlock) : Except Error BlockJournal :=
  if j.segmentSize < k.total then .error .payloadTooLargeForSegment
  else if j.lastSeq.any (k.seq ≤ ·) then .error .nonMonotonicSeq
  else if roll = true ∨ j.segments = [] then .ok { j with segments := j.segments ++ [[k]] }
  else .ok { j with segments := j.segments.dropLast ++ [j.segments.getLast?.getD [] ++ [k]] }

/-- Drop the blocks above. -/
def truncateAfter (j : BlockJournal) (keepSeq : ℕ) : BlockJournal :=
  { j with segments := (j.segments.map (·.filter (·.seq ≤ keepSeq))).filter (· ≠ []) }

def truncateAll (j : BlockJournal) : BlockJournal := { j with segments := [] }

/-- The segments that a purge keeps: the last one, and those whose last sequence is
    above. -/
def keepFrom (seq : ℕ) : List (List ArchivedBlock) → List (List ArchivedBlock)
  | segment :: next :: rest =>
    if (next.head?.map ArchivedBlock.seq).any (· - 1 ≤ seq) then keepFrom seq (next :: rest)
    else segment :: next :: rest
  | segments => segments

/-- Drop whole segments below. -/
def purgeBefore (j : BlockJournal) (seq : ℕ) : BlockJournal :=
  { j with segments := keepFrom seq j.segments }

end BlockJournal

/-! ## The archive -/

/-- The errors of the archive. -/
inductive ArchiveError where
  | journal (e : BlockJournal.Error)
  | positionPurged (pos firstBase : ℕ)
  | corruptBlock (seq base off claimedLen blockLen : ℕ)
  | recorderCorrupt (claimedLen : ℕ)
  | unreadable
deriving DecidableEq

/-- An open archive. -/
structure Archive where
  maxBlockBytes : ℕ
  journal : BlockJournal
  durablePos : ℕ
  nextBlockSeq : ℕ
  firstBase : ℕ
  lastObservedTerm : ℕ
  /-- A term and the position of its first frame. -/
  termObservations : List (ℕ × ℕ)
  /-- The end of a frame and the membership in it. -/
  configObservations : List (ℕ × Bytes)
deriving DecidableEq

/-- The walk of `recordable_slice` over what is committed, of so many frames at most:
    where it ends. -/
def recordableEnd (hard : Bytes) (maxBytes : ℕ) : ℕ → ℕ → Except ArchiveError ℕ
  | 0, e => .ok e
  | fuel + 1, e =>
    if e < hard.length then
      let len := Bytes.num hard e (e + 4)
      let aligned := alignFrameLen len
      if len < headerLen ∨ hard.length < e + aligned then .error (.recorderCorrupt len)
      else if 0 < e ∧ maxBytes < e + aligned then .ok e
      else recordableEnd hard maxBytes fuel (e + aligned)
    else .ok e

/-- The whole frames that fit a block. -/
def recordableSlice (hard : Bytes) (maxBytes : ℕ) : Except ArchiveError Bytes :=
  (recordableEnd hard maxBytes hard.length 0).map fun e => hard.take e

/-- The search of `find_block` and `truncate_to`: the greatest block whose base is not
    above the position.  The bounds come together, so their distance is enough. -/
def searchBlock (j : BlockJournal) (pos : ℕ) : ℕ → ℕ → ℕ → Option ℕ
  | 0, lo, _ => some lo
  | fuel + 1, lo, hi =>
    if lo < hi then
      let mid := lo + (hi - lo + 1) / 2
      match j.read mid with
      | none => none
      | some k => if k.base ≤ pos then searchBlock j pos fuel mid hi else searchBlock j pos fuel lo (mid - 1)
    else some lo

/-- The block that covers a position, and its base. -/
def findBlock (j : BlockJournal) (pos : ℕ) : Option (ℕ × ℕ) :=
  match j.firstSeq, j.lastSeq with
  | some first, some last =>
    match j.read first with
    | none => none
    | some k =>
      if pos < k.base then none
      else
        match searchBlock j pos (last - first) first last with
        | none => none
        | some lo => (j.read lo).map fun k => (lo, k.base)
  | _, _ => none

namespace Archive

/-- `open` of an empty directory. -/
def fresh (maxBlockBytes segmentSize : ℕ) : Archive :=
  ⟨maxBlockBytes, ⟨segmentSize, []⟩, 0, 0, 0, 0, [], []⟩

/-- The base of the first block, or where the archive ends. -/
def floorOf (j : BlockJournal) (durablePos : ℕ) : ℕ := (j.blocks.head?.map ArchivedBlock.base).getD durablePos

/-- Raise the floor, by whole segments. -/
def purgeBelow (a : Archive) (pos : ℕ) : Archive × ℕ :=
  if pos ≤ a.firstBase then (a, a.firstBase)
  else
    match findBlock a.journal pos, a.journal.firstSeq with
    | some (coveringSeq, _), some first =>
      if first < coveringSeq then
        let j := a.journal.purgeBefore (coveringSeq - 1)
        ({ a with journal := j, firstBase := floorOf j a.durablePos }, floorOf j a.durablePos)
      else (a, a.firstBase)
    | _, _ => (a, a.firstBase)

/-- Start over at a snapshot's position. -/
def adoptFloor (a : Archive) (pos : ℕ) : Archive :=
  if pos ≤ a.durablePos then a
  else
    let a := if a.journal.lastSeq.isSome then
        { a with
          journal := a.journal.truncateAll
          nextBlockSeq := 0
          lastObservedTerm := 0
          termObservations := []
          configObservations := [] }
      else a
    { a with durablePos := pos, firstBase := pos }

/-- `observe_terms`, of so many frames at most. -/
def observeTerms : ℕ → Bytes → ℕ → Archive → Archive
  | 0, _, _, a => a
  | fuel + 1, block, pos, a =>
    if block.length < headerLen then a
    else
      let h := readHeader block
      let aligned := alignFrameLen h.length
      if h.length < headerLen ∨ block.length < aligned then a
      else
        let a := if h.frameType ≠ frameTypePadding ∧ h.leadershipTermId ≠ a.lastObservedTerm then
            { a with
              termObservations := a.termObservations ++ [(h.leadershipTermId, pos)]
              lastObservedTerm := h.leadershipTermId }
          else a
        let a := if h.frameType = frameTypeCluster then
            match readClusterPrefix (Bytes.slice block headerLen h.length) with
            | some (.membership, payload) =>
              { a with configObservations := a.configObservations ++ [(pos + aligned, payload)] }
            | _ => a
          else a
        observeTerms fuel (block.drop aligned) (pos + aligned) a

/-- The rest of `do_work`, with a slice to record. -/
def record (a : Archive) (roll : Bool) (slice : Bytes) : Except ArchiveError Archive :=
  if slice = [] then .ok a
  else
    match a.journal.append roll ⟨a.nextBlockSeq, a.durablePos, slice⟩ with
    | .error e => .error (.journal e)
    | .ok j =>
      let base := a.durablePos
      let a := observeTerms slice.length slice base { a with journal := j }
      .ok { a with
        firstBase := if a.nextBlockSeq = 0 then base else a.firstBase
        durablePos := a.durablePos + slice.length
        nextBlockSeq := a.nextBlockSeq + 1 }

/-- Record one slice of the ring. -/
def doWork (a : Archive) (roll : Bool) (hard : Bytes) : Except ArchiveError Archive :=
  match recordableSlice hard a.maxBlockBytes with
  | .error e => .error e
  | .ok slice => a.record roll slice

def takeTermObservations (a : Archive) : List (ℕ × ℕ) × Archive :=
  (a.termObservations, { a with termObservations := [] })

def retainTermObservations (a : Archive) (unsent : List (ℕ × ℕ)) : Archive :=
  { a with termObservations := unsent ++ a.termObservations }

def takeConfigObservations (a : Archive) : List (ℕ × Bytes) × Archive :=
  (a.configObservations, { a with configObservations := [] })

/-- What a cut forgets. -/
def forget (a : Archive) : Archive :=
  { a with lastObservedTerm := 0, termObservations := [], configObservations := [] }

/-- Cut the log at a frame's end. -/
def truncateTo (a : Archive) (roll : Bool) (pos : ℕ) : Except ArchiveError Archive :=
  if pos = a.durablePos then .ok a
  else if a.durablePos < pos then .error (.positionPurged pos a.firstBase)
  else
    match a.journal.firstSeq, a.journal.lastSeq with
    | some first, some last =>
      match a.journal.read first with
      | none => .error .unreadable
      | some k =>
        if pos < k.base then .error (.positionPurged pos a.firstBase)
        else
          match (searchBlock a.journal pos (last - first) first last).bind fun lo =>
              (a.journal.read lo).map fun k => (lo, k) with
          | none => .error .unreadable
          | some (lo, k) =>
            let kept := k.bytes.take (pos - k.base)
            -- a cut in the first block starts the journal afresh
            if lo = first then
              let j := a.journal.truncateAll
              if k.base < pos then
                match j.append roll ⟨0, k.base, kept⟩ with
                | .error e => .error (.journal e)
                | .ok j =>
                  .ok { a.forget with journal := j, nextBlockSeq := 1, durablePos := pos, firstBase := k.base }
              else
                .ok { a.forget with journal := j, nextBlockSeq := 0, durablePos := pos, firstBase := k.base }
            else
              let j := a.journal.truncateAfter (lo - 1)
              if k.base = pos then .ok { a.forget with journal := j, nextBlockSeq := lo, durablePos := pos }
              else
                match j.append roll ⟨lo, k.base, kept⟩ with
                | .error e => .error (.journal e)
                | .ok j => .ok { a.forget with journal := j, nextBlockSeq := lo + 1, durablePos := pos }
    | _, _ => .error (.positionPurged pos a.firstBase)

end Archive

/-! ## Replays -/

/-- One frame that a replay yields. -/
structure ReplayFrame where
  position : ℕ
  header : FrameHeader
  payload : Bytes
deriving DecidableEq

/-- The cursor of a replay. -/
structure ArchiveReplay where
  seq : ℕ
  lastSeq : Option ℕ
  block : Bytes
  blockBase : ℕ
  off : ℕ
  skipBelow : ℕ
deriving DecidableEq

namespace ArchiveReplay

/-- The next block, when the last one is through; `none` at the end. -/
def load (j : BlockJournal) (r : ArchiveReplay) : Except ArchiveError (Option ArchiveReplay) :=
  if r.off < r.block.length then .ok (some r)
  else
    match r.lastSeq with
    | none => .ok none
    | some last =>
      if last < r.seq then .ok none
      else
        match j.read r.seq with
        | none => .error .unreadable
        | some k => .ok (some { r with blockBase := k.base, block := k.bytes, off := 0, seq := r.seq + 1 })

/-- `next`, of so many frames at most. -/
def next (j : BlockJournal) : ℕ → ArchiveReplay → Except ArchiveError (Option ReplayFrame × ArchiveReplay)
  | 0, r => .ok (none, r)
  | fuel + 1, r =>
    match load j r with
    | .error e => .error e
    | .ok none => .ok (none, r)
    | .ok (some r) =>
      if r.block.length - r.off < headerLen then
        .error (.corruptBlock (r.seq - 1) r.blockBase r.off 0 r.block.length)
      else
        let hdr := readHeader (r.block.drop r.off)
        let aligned := alignFrameLen hdr.length
        if hdr.length < headerLen ∨ r.block.length < r.off + aligned then
          .error (.corruptBlock (r.seq - 1) r.blockBase r.off hdr.length r.block.length)
        else
          let position := r.blockBase + r.off
          let payload := Bytes.slice r.block (r.off + headerLen) (r.off + hdr.length)
          let r := { r with off := r.off + aligned }
          if hdr.frameType = frameTypePadding ∨ position < r.skipBelow then next j fuel r
          else .ok (some ⟨position, hdr, payload⟩, r)

/-- `next` until there is none. -/
def drain (j : BlockJournal) (steps : ℕ) : ℕ → ArchiveReplay → Except ArchiveError (List ReplayFrame)
  | 0, _ => .ok []
  | fuel + 1, r =>
    match next j steps r with
    | .error e => .error e
    | .ok (none, _) => .ok []
    | .ok (some f, r) => (drain j steps fuel r).map (f :: ·)

end ArchiveReplay

namespace Archive

/-- A replay that starts at a position. -/
def replayFrom (a : Archive) (pos : ℕ) : Except ArchiveError ArchiveReplay :=
  let exhausted : ArchiveReplay := ⟨1, none, [], 0, 0, 0⟩
  if a.durablePos ≤ pos then .ok exhausted
  else
    match a.journal.lastSeq with
    | none => .ok exhausted
    | some last =>
      match findBlock a.journal pos with
      | none => .error (.positionPurged pos a.firstBase)
      | some (lo, _) => .ok ⟨lo, some last, [], 0, 0, pos⟩

end Archive

end UltimaCluster
