/-
  Segment files of the journal (`uc_journal/src/journal/segment.rs`).

  A segment is a header and framed records; a preallocated one has a tail of
  zeros behind them.  `bytes` is the file as it reads, `size` the logical
  cursor.  The checksum is a parameter: it comes from a library.  The name of
  the file, which the errors carry, is left out.
-/
import UltimaCluster.Lib.Bytes

namespace UltimaCluster

open Bytes

/-! ## Records -/

/-- A record of the journal. -/
structure JournalRecord where
  seq : ℕ
  meta_ : ℕ
  payload : Bytes
deriving DecidableEq

/-- The errors of the journal. -/
inductive JournalError where
  | corrupted (offset : ℕ) (reason : String)
  | nonMonotonicSeq (expectedGt got : ℕ)
  | payloadTooLargeForSegment (segmentSize recordSize : ℕ)
  | io
  | closed
deriving DecidableEq

namespace JournalRecord

variable (r : JournalRecord)

/-- What the checksum covers. -/
def body : Bytes := le 8 r.seq ++ le 8 r.meta_ ++ r.payload

/-- The bytes of a record on disk: length, body and checksum. -/
def total : ℕ := 4 + (16 + r.payload.length) + 4

end JournalRecord

def segmentMagic : Bytes := [85, 76, 84, 74, 83, 69, 71, 0]

def segmentFormatV : ℕ := 1

def segmentHeaderSize : ℕ := 32

/-- `u64::MAX` and `ULTJTRUNC`. -/
def isSentinel (r : JournalRecord) : Bool :=
  r.meta_ == 2 ^ 64 - 1 && r.payload == [85, 76, 84, 74, 84, 82, 85, 78, 67]

section
variable (crc : Bytes → UInt32)

def encodeHeader (baseSeq createdAt : ℕ) : Bytes :=
  let front := segmentMagic ++ le 2 segmentFormatV ++ le 8 baseSeq ++ le 8 createdAt
  front ++ le 4 (crc front).toNat ++ [0, 0]

/-- The format version and the base. -/
def decodeHeader (bytes : Bytes) : Except JournalError (ℕ × ℕ) :=
  if bytes.length < segmentHeaderSize then
    .error (.corrupted 0 s!"header too short: {bytes.length}")
  else if slice bytes 0 8 ≠ segmentMagic then .error (.corrupted 0 "bad magic")
  else if num bytes 26 30 ≠ (crc (slice bytes 0 26)).toNat then
    .error (.corrupted 0 "header crc mismatch")
  else .ok (num bytes 8 10, num bytes 10 18)

/-- A record, behind its length. -/
def encodeRecord (r : JournalRecord) : Bytes :=
  le 4 (16 + r.payload.length) ++ r.body ++ le 4 (crc r.body).toNat

/-- The record at the front and what it spans; `none` is a torn or unwritten
    tail. -/
def decodeRecord (bytes : Bytes) (offset : ℕ) :
    Except JournalError (Option (JournalRecord × ℕ)) :=
  if bytes.length < 4 then .ok none
  else
    let bodyLen := num bytes 0 4
    let total := 4 + bodyLen + 4
    if bodyLen = 0 then .ok none
    else if bodyLen < 16 then
      if bytes.length < total then .ok none
      else .error (.corrupted offset s!"body_len {bodyLen} < 16 (seq+meta minimum)")
    else if bytes.length < total then .ok none
    else
      let body := slice bytes 4 (4 + bodyLen)
      if num bytes (4 + bodyLen) total ≠ (crc body).toNat then
        .error (.corrupted offset "record crc mismatch")
      else .ok (some (⟨num body 0 8, num body 8 16, body.drop 16⟩, total))

def encodeAll (rs : List JournalRecord) : Bytes := rs.flatMap (encodeRecord crc)

/-! ## Scans -/

/-- One entry of the sparse index for every 64 KiB of records. -/
def sparseIndexGap : ℕ := 64 * 1024

/-- An entry at every gap. -/
def pushIndex (index : List (ℕ × ℕ)) (seq off : ℕ) : List (ℕ × ℕ) :=
  match index.getLast? with
  | none => [(seq, off)]
  | some (_, prev) => if sparseIndexGap ≤ off - prev then index ++ [(seq, off)] else index

/-- What a scan of a file finds. -/
structure ScanResult where
  records : List JournalRecord
  lastDurableOffset : ℕ
  hadTornTail : Bool
  index : List (ℕ × ℕ)
deriving DecidableEq

/-- The loop of the scans over the bytes behind the header: `buf` is what is
    left of them at the cursor, and `onError` decides about a record that fails
    to decode.  Every record takes bytes, so their number is enough fuel. -/
def scanLoop (onError : Bytes → ScanResult → JournalError → Except JournalError ScanResult) :
    ℕ → Bytes → ScanResult → Except JournalError ScanResult
  | 0, _, acc => .ok acc
  | fuel + 1, buf, acc =>
    match decodeRecord crc buf acc.lastDurableOffset with
    | .error e => onError buf acc e
    | .ok none => .ok { acc with hadTornTail := buf ≠ [] }
    | .ok (some (rec, n)) =>
      scanLoop onError fuel (buf.drop n)
        { records := acc.records ++ [rec]
          lastDurableOffset := acc.lastDurableOffset + n
          hadTornTail := false
          index := pushIndex acc.index rec.seq acc.lastDurableOffset }

def scanStart : ScanResult := ⟨[], segmentHeaderSize, false, []⟩

/-- All records; a bad one is an error. -/
def scanBytes (bytes : Bytes) : Except JournalError ScanResult :=
  let buf := bytes.drop segmentHeaderSize
  scanLoop crc (fun _ _ e => .error e) (buf.length + 1) buf scanStart

/-! ## Segment files -/

/-- A segment, with its index. -/
structure SegmentFile where
  baseSeq : ℕ
  bytes : Bytes
  size : ℕ
  index : List (ℕ × ℕ)
  /-- How much of the file an fsync has covered. -/
  synced : ℕ
deriving DecidableEq

namespace SegmentFile

def create (baseSeq now : ℕ) : SegmentFile :=
  ⟨baseSeq, encodeHeader crc baseSeq now, segmentHeaderSize, [], segmentHeaderSize⟩

/-- A preallocated file of zeros, with the header over its front. -/
def activatePreallocTemp (segmentSize baseSeq now : ℕ) : SegmentFile :=
  ⟨baseSeq, encodeHeader crc baseSeq now ++ List.replicate (segmentSize - segmentHeaderSize) 0,
    segmentHeaderSize, [], segmentHeaderSize⟩

/-- A file, by its header. -/
def openForRead (bytes : Bytes) : Except JournalError SegmentFile :=
  if bytes.length < segmentHeaderSize then .error (.corrupted 0 "header read failed")
  else do
    let (version, baseSeq) ← decodeHeader crc (bytes.take segmentHeaderSize)
    if version ≠ segmentFormatV then
      .error (.corrupted 0
        s!"unsupported segment format version {version} (this build expects {segmentFormatV})")
    else .ok ⟨baseSeq, bytes, bytes.length, [], bytes.length⟩

/-- The records of a run in the sparse index, from an offset on. -/
def indexRun : List (ℕ × ℕ) → ℕ → List JournalRecord → List (ℕ × ℕ)
  | index, _, [] => index
  | index, off, r :: rs => indexRun (pushIndex index r.seq off) (off + r.total) rs

/-- One write of all records at the cursor. -/
def appendRecords (s : SegmentFile) (rs : List JournalRecord) : SegmentFile :=
  let buf := encodeAll crc rs
  { s with
    bytes := s.bytes.take s.size ++ buf ++ s.bytes.drop (s.size + buf.length)
    size := s.size + buf.length
    index := indexRun s.index s.size rs }

def scan (s : SegmentFile) : Except JournalError ScanResult := scanBytes crc s.bytes

/-- The first record of a list in the order of a scan. -/
def findSeq (seq : ℕ) : List JournalRecord → Option (ℕ × Bytes)
  | [] => none
  | r :: rs => if r.seq = seq then some (r.meta_, r.payload) else if seq < r.seq then none
      else findSeq seq rs

/-- Decodes a window forward to `seq`. -/
def findLoop (seq : ℕ) : ℕ → Bytes → ℕ → Except JournalError (Option (ℕ × Bytes))
  | 0, _, _ => .ok none
  | fuel + 1, buf, offset =>
    if buf = [] then .ok none
    else
      match decodeRecord crc buf offset with
      | .error e => .error e
      | .ok none => .ok none
      | .ok (some (r, n)) =>
        if r.seq = seq then .ok (some (r.meta_, r.payload))
        else if seq < r.seq then .ok none
        else findLoop seq fuel (buf.drop n) (offset + n)

/-- The number of leading entries up to `seq`. -/
def partitionPoint (index : List (ℕ × ℕ)) (seq : ℕ) : ℕ :=
  (index.takeWhile fun e => e.1 ≤ seq).length

/-- One record, by the index. -/
def readRecord (s : SegmentFile) (seq : ℕ) : Except JournalError (Option (ℕ × Bytes)) :=
  if s.index = [] then do
    let scan ← s.scan crc
    return findSeq seq scan.records
  else
    let n := partitionPoint s.index seq
    if n = 0 then .ok none
    else
      let start := ((s.index[n - 1]?).map Prod.snd).getD s.size
      let stop := ((s.index[n]?).map Prod.snd).getD s.size
      let buf := slice s.bytes start stop
      findLoop crc seq (buf.length + 1) buf start

/-- The records of a scan between two bounds. -/
def windowSeq (lo hi : ℕ) : List JournalRecord → List JournalRecord
  | [] => []
  | r :: rs => if hi < r.seq then [] else if lo ≤ r.seq then r :: windowSeq lo hi rs
      else windowSeq lo hi rs

def windowLoop (lo hi : ℕ) : ℕ → Bytes → ℕ → Except JournalError (List JournalRecord)
  | 0, _, _ => .ok []
  | fuel + 1, buf, offset =>
    if buf = [] then .ok []
    else
      match decodeRecord crc buf offset with
      | .error e => .error e
      | .ok none => .ok []
      | .ok (some (r, n)) =>
        if hi < r.seq then .ok []
        else do
          let rest ← windowLoop lo hi fuel (buf.drop n) (offset + n)
          return if lo ≤ r.seq then r :: rest else rest

/-- The records of a range. -/
def readWindow (s : SegmentFile) (lo hi : ℕ) : Except JournalError (List JournalRecord) :=
  if s.index = [] then do
    let scan ← s.scan crc
    return windowSeq lo hi scan.records
  else
    let start := ((s.index[partitionPoint s.index lo - 1]?).map Prod.snd).getD s.size
    let stop := ((s.index[partitionPoint s.index hi]?).map Prod.snd).getD s.size
    if stop ≤ start then .ok []
    else
      let buf := slice s.bytes start stop
      windowLoop crc lo hi (buf.length + 1) buf start

/-- `set_len` and an fsync. -/
def truncate (s : SegmentFile) (len : ℕ) : SegmentFile :=
  { s with
    bytes := s.bytes.take len ++ List.replicate (len - s.bytes.length) 0
    size := len
    index := s.index.filter fun e => e.2 < len
    synced := len }

end SegmentFile

end

end UltimaCluster
