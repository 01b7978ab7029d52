/-
  The tail reader of the journal (`uc_journal/src/journal/tail_reader.rs`, with
  `scan_tolerant` and `first_record_meta` of `segment.rs`), over a directory that
  its owner writes to, purges and truncates.

  The reader lists the directory once, probes the heads of the listed segments and
  then opens them one by one; between any two of these steps the owner may take
  any number of its own.  A listing is not taken at an instant: it has the names
  that were there all the time, and any of those that were there for some of it.

  The records of a segment are kept by their sequences, and a record that is being
  written may be visible as a whole, in part or not at all.
-/
import UltimaCluster.SegmentSpec
import UltimaCluster.Lib.Trace

namespace UltimaCluster

open Bytes

/-! ## Reads -/

section
variable (crc : Bytes → UInt32)

/-- `scan_tolerant`: a record that fails to decode is a torn tail. -/
def scanBytesTolerant (bytes : Bytes) : Except JournalError ScanResult :=
  let buf := bytes.drop segmentHeaderSize
  (scanLoop crc (fun buf acc _ => .ok { acc with hadTornTail := buf ≠ [] }) (buf.length + 1) buf
    scanStart).map fun r => { r with index := [] }

/-- `first_record_meta`: the length and the meta of the first record, not checked. -/
def firstRecordMeta (bytes : Bytes) : Option ℕ :=
  let head := bytes.drop segmentHeaderSize
  if head.length < 20 then none
  else if num head 0 4 < 16 then none
  else some (num head 12 20)

/-- `probe_first_meta`; `none` is a file that is not there. -/
def probeFirstMeta : Option Bytes → Except JournalError (Option ℕ)
  | none => .ok none
  | some bytes => do
    let _ ← SegmentFile.openForRead crc bytes
    return firstRecordMeta bytes

/-- The records of a file that is visited. -/
def readRecords (bytes : Bytes) : Except JournalError (List JournalRecord) := do
  let seg ← SegmentFile.openForRead crc bytes
  let scan ← scanBytesTolerant crc seg.bytes
  return scan.records.filter fun r => !isSentinel r

end

/-! ## The directory -/

/-- The directory, as its owner leaves it. -/
structure TailDir where
  /-- The segments of the journal, by their bases. -/
  bases : List ℕ
  /-- Where the written records end. -/
  end_ : ℕ
  /-- The record with a sequence that was last appended. -/
  held : ℕ → JournalRecord
  /-- How many records are being written. -/
  flying : ℕ
  /-- The segments that a truncation has still to unlink. -/
  stale : List (ℕ × List JournalRecord)

namespace TailDir

variable (d : TailDir)

def range (start stop : ℕ) : List JournalRecord := (List.range' start (stop - start)).map d.held

/-- Where the records of a segment end. -/
def fileEnd (base : ℕ) : ℕ := (d.bases.find? (base < ·)).getD d.end_

def names : List ℕ := d.bases ++ d.stale.map Prod.fst

/-- A segment that is there: what is written of it, and what is being written. -/
def file (base : ℕ) : Option (List JournalRecord × List JournalRecord) :=
  if base ∈ d.bases then
    some (d.range base (d.fileEnd base),
      if d.bases.getLast? = some base then d.range d.end_ (d.end_ + d.flying) else [])
  else (d.stale.find? (·.1 = base)).map fun f => (f.2, [])

/-- The owner's steps. -/
inductive Step where
  | write (rs : List JournalRecord)
  | written
  | roll
  /-- A purge unlinks one segment. -/
  | unlink
  /-- A truncation shortens the last segment that it keeps. -/
  | cut (keep : ℕ)
  | drop (base : ℕ)

def exec : Step → TailDir
  | .write rs =>
    { d with
      held := fun s => (rs.find? (·.seq = s)).getD (d.held s)
      flying := rs.length }
  | .written => { d with end_ := d.end_ + d.flying, flying := 0 }
  | .roll => { d with bases := d.bases ++ [d.end_] }
  | .unlink => { d with bases := d.bases.tail }
  | .cut keep =>
    { d with
      bases := d.bases.filter (· < keep)
      end_ := keep
      stale := (d.bases.filter (keep ≤ ·)).map fun b => (b, d.range b (d.fileEnd b)) }
  | .drop base => { d with stale := d.stale.filter (·.1 ≠ base) }

/-- What the owner does: it writes to the last segment, in order; it keeps the last
    segment in a purge; and it cuts nothing below `commit`. -/
def Allowed (commit : ℕ) : Step → Prop
  | .write rs =>
    d.flying = 0 ∧ d.stale = [] ∧ d.bases ≠ [] ∧ rs.map (·.seq) = List.range' d.end_ rs.length ∧
      ∀ r ∈ rs, r.Fits
  | .written => True
  | .roll => d.flying = 0 ∧ d.stale = [] ∧ ∀ b ∈ d.bases, b < d.end_
  | .unlink => 2 ≤ d.bases.length
  | .cut keep => d.flying = 0 ∧ d.stale = [] ∧ commit ≤ keep ∧ keep ≤ d.end_
  | .drop _ => True

end TailDir

/-! ## The reader -/

/-- Where the reader is. -/
inductive TailPhase where
  | idle
  /-- The names that were there at some time, and those that were there all the time. -/
  | listing (ever kept : List ℕ)
  | probing (paths : List ℕ)
  | scanning (paths : List ℕ)
  | ended (res : Except JournalError Unit)
deriving DecidableEq

/-- A call of `scan_from` over the directory. -/
structure TailScan where
  dir : TailDir
  startMeta : ℕ
  phase : TailPhase
  visited : List JournalRecord

/-- A step of the owner or of the reader. -/
inductive TailStep where
  | owner (step : TailDir.Step)
  | list_
  | listed (names : List ℕ)
  /-- The bytes that are read, if the file is there. -/
  | probe (seen : Bytes)
  /-- The visitor may stop at a record of the file. -/
  | open_ (seen : Bytes) (halt : Option ℕ)

namespace TailScan

/-- What a directory read has come across, after a step of the owner. -/
def meet (names : List ℕ) : TailPhase → TailPhase
  | .listing ever kept => .listing (ever ++ names) (kept.filter (· ∈ names))
  | phase => phase

section
variable (crc : Bytes → UInt32) (w : TailScan)

def exec : TailStep → TailScan
  | .owner step =>
    let dir := w.dir.exec step
    { w with dir, phase := meet dir.names w.phase }
  | .list_ =>
    match w.phase with
    | .idle => { w with phase := .listing w.dir.names w.dir.names }
    | _ => w
  | .listed names =>
    match w.phase with
    | .listing _ _ => { w with phase := .probing names }
    | _ => w
  | .probe seen =>
    match w.phase with
    | .probing (path :: next :: paths) =>
      match probeFirstMeta crc ((w.dir.file next).map fun _ => seen) with
      | .error e => { w with phase := .ended (.error e) }
      | .ok head =>
        if head.any (· ≤ w.startMeta) then { w with phase := .probing (next :: paths) }
        else { w with phase := .scanning (path :: next :: paths) }
    | .probing paths => { w with phase := .scanning paths }
    | _ => w
  | .open_ seen halt =>
    match w.phase with
    | .scanning [] => { w with phase := .ended (.ok ()) }
    | .scanning (path :: paths) =>
      match w.dir.file path with
      | none => { w with phase := .scanning paths }
      | some _ =>
        match readRecords crc seen with
        | .error e => { w with phase := .ended (.error e) }
        | .ok rs =>
          match halt.filter (· < rs.length) with
          | some n => { w with visited := w.visited ++ rs.take (n + 1), phase := .ended (.ok ()) }
          | none => { w with visited := w.visited ++ rs, phase := .scanning paths }
    | _ => w

/-- What can be read of a file: its header, what is written of it, and of what is being
    written some whole records; then come bytes that are no record.  A file that was
    just created may have no header yet. -/
def Readable (base : ℕ) (file : List JournalRecord × List JournalRecord) (bytes : Bytes) : Prop :=
  (file.1 = [] ∧ bytes.length < segmentHeaderSize) ∨
    ∃ now n tail, bytes = encodeHeader crc base now ++ encodeAll crc (file.1 ++ file.2.take n) ++ tail ∧
      ∀ off r k, decodeRecord crc tail off ≠ .ok (some (r, k))

/-- What may happen next. -/
def Allowed (commit : ℕ) : TailStep → Prop
  | .owner step => w.dir.Allowed commit step
  | .list_ => True
  | .listed names =>
    ∀ ever kept, w.phase = .listing ever kept → names.Pairwise (· < ·) ∧ names ⊆ ever ∧ kept ⊆ names
  | .probe seen =>
    ∀ path next paths, w.phase = .probing (path :: next :: paths) →
      ∀ file ∈ w.dir.file next, Readable crc next file seen
  | .open_ seen _ =>
    ∀ path paths, w.phase = .scanning (path :: paths) → ∀ file ∈ w.dir.file path, Readable crc path file seen

/-- The condition on a step:
    * a listing leaves out no segment between two that it has;
    * a head that is probed is not partly written;
    * once a record was visited, a segment with records below `commit` is there when it
      is opened;
    * no record looks like a sentinel. -/
def Steady (commit : ℕ) : TailStep → Prop
  | .owner _ | .list_ => True
  | .listed names =>
    ∀ b ∈ w.dir.bases, ∀ a ∈ names, ∀ z ∈ names, a < b → b < z → b ∈ names
  | .probe seen =>
    ∀ path next paths, w.phase = .probing (path :: next :: paths) → ∀ file ∈ w.dir.file next,
      ∀ h ∈ firstRecordMeta seen, ∃ r ∈ (file.1 ++ file.2).head?, r.meta_ = h
  | .open_ _ _ =>
    ∀ path paths, w.phase = .scanning (path :: paths) →
      (w.visited ≠ [] → path < commit → path ∈ w.dir.bases) ∧
        ∀ file ∈ w.dir.file path, ∀ r ∈ file.1 ++ file.2, isSentinel r = false

end

end TailScan

end UltimaCluster
