/-
  The broadcast ring: one producer that never waits, and a consumer that finds
  out afterwards whether what it copied was overwritten
  (`uc_protocol/src/ring/broadcast.rs`, `uc_protocol/src/ring/common.rs`).

  A step is one access to shared memory, a copy being one byte at a time.
  Positions are not bounded; the park and wake calls touch no record and are left
  out.  `crc` stands for `crc32fast::hash` and is any function.  A torn length may
  send the copy past the end of the buffer; what is there reads as zeros here.
-/
import UltimaCluster.LogRing

namespace UltimaCluster

/-- `RECORD_ALIGN`. -/
def recordAlign : ℕ := 8

/-- `FRAME_HEADER_LEN`. -/
def recordHeaderLen : ℕ := 16

/-- `FRAME_TRAILER_LEN`. -/
def recordTrailerLen : ℕ := 4

/-- `PADDING_MSG_TYPE`. -/
def paddingMsgType : ℕ := 0xffff

def alignRecordSize (total : ℕ) : ℕ := (total + (recordAlign - 1)) / recordAlign * recordAlign

/-- What a producer hands to a ring. -/
structure RingRecord where
  msgType : UInt16
  flags : UInt16
  headerExtra : Bytes
  payload : Bytes
deriving DecidableEq

/-- The sizes of a ring. -/
structure RingShape where
  capacity : ℕ
  maxMsgSize : ℕ
  powerOfTwo : ∃ k, capacity = 2 ^ k
  aligned : recordAlign ≤ capacity
  word : maxMsgSize < 2 ^ 32

/-- A ring of 64 bytes. -/
def RingShape.sixtyFour : RingShape := ⟨64, 64, ⟨6, rfl⟩, by decide, by decide⟩

namespace RingRecord

def total (r : RingRecord) : ℕ := recordHeaderLen + r.payload.length + recordTrailerLen

/-- What the crc is over. -/
def body (r : RingRecord) : Bytes :=
  Bytes.le 2 r.msgType.toNat ++ Bytes.le 2 r.flags.toNat ++ r.headerExtra ++ r.payload

end RingRecord

/-- What the producer puts at a position. -/
inductive RingEntry where
  | record (r : RingRecord)
  /-- The rest of the buffer up to its end. -/
  | padding (len : ℕ)
deriving DecidableEq

namespace RingEntry

variable (crc : Bytes → UInt32)

/-- What is stored for an entry. -/
def bytes : RingEntry → Bytes
  | .record r => Bytes.le 4 r.total ++ (r.body ++ Bytes.le 4 (crc r.body).toNat)
  | .padding len => Bytes.le 4 len ++ Bytes.le 2 paddingMsgType

/-- How far the position moves. -/
def span : RingEntry → ℕ
  | .record r => alignRecordSize r.total
  | .padding len => len

/-- `write_record_at` and `write_padding_marker_at`: the first word last. -/
def stores (pos : ℕ) (e : RingEntry) : List (ℕ × UInt8) :=
  LogRing.bytesAt (pos + 4) ((e.bytes crc).drop 4) ++ LogRing.bytesAt pos ((e.bytes crc).take 4)

end RingEntry

/-! ## The copy of a record -/

/-- What the bytes at a position decode to. -/
inductive RawRead where
  /-- The length reads as zero. -/
  | empty
  | padding (len : ℕ)
  | corrupt
  | badCrc
  | record (r : RingRecord) (advance : ℕ)
deriving DecidableEq

/-- The next access of `try_read_record_at`. -/
inductive ReadNext where
  /-- The byte after the last one copied. -/
  | copy
  /-- The crc is computed over the ring, not over the copy. -/
  | recopy
  | done (r : RawRead)
deriving DecidableEq

/-- `try_read_record_at`, by the bytes read so far: `out` the copy, `again` what
    the crc has read. -/
def tryReadRecordAt (crc : Bytes → UInt32) (out again : Bytes) : ReadNext :=
  if out.length < 4 then .copy
  else
    let length := Bytes.num out 0 4
    if length = 0 then .done .empty
    else if out.length < 6 then .copy
    else if Bytes.num out 4 6 = paddingMsgType then .done (.padding length)
    else if out.length < recordHeaderLen then .copy
    else if length < recordHeaderLen + recordTrailerLen then .done .corrupt
    else if out.length < length then .copy
    else if again.length < length - recordTrailerLen - 4 then .recopy
    else if Bytes.num out (length - recordTrailerLen) length = (crc again).toNat then
      .done (.record
        ⟨.ofNat (Bytes.num out 4 6), .ofNat (Bytes.num out 6 8), Bytes.slice out 8 recordHeaderLen,
          Bytes.slice out recordHeaderLen (length - recordTrailerLen)⟩ (alignRecordSize length))
    else .done .badCrc

/-! ## The ring -/

/-- A `write` under way: what it has still to store, and the record that is to
    follow a padding. -/
structure BroadcastWrite where
  entry : RingEntry
  left : List (ℕ × UInt8)
  retry : Option RingRecord
deriving DecidableEq

/-- Where the subscriber is. -/
inductive BroadcastPc where
  /-- The first load of the position. -/
  | load
  /-- Every byte is kept with the position that its slot was written for. -/
  | copy (out again : List (UInt8 × Option ℕ))
deriving DecidableEq

/-- What a `try_read` answers. -/
inductive TryRead where
  | none
  | overwritten
  | corrupt
  | badCrc
  | record (r : RingRecord)
deriving DecidableEq

/-- The ring, its writer and one subscriber. -/
structure BroadcastRing where
  store : Lap.Store UInt8
  publishPosition : ℕ
  write : Option BroadcastWrite
  /-- What was published, with its positions. -/
  published : List (ℕ × RingEntry)
  head : ℕ
  read : Option BroadcastPc
  /-- The answers to the consumer, with the heads that they are for. -/
  answers : List (ℕ × TryRead)

namespace BroadcastRing

variable (crc : Bytes → UInt32) (shape : RingShape)

def create : BroadcastRing := ⟨⟨fun _ => 0, fun _ => none, fun _ => none⟩, 0, none, [], 0, none, []⟩

/-- `write`, up to its first store: a record that does not fit before the end of
    the buffer comes after a padding. -/
def startWrite (s : BroadcastRing) (r : RingRecord) : BroadcastRing :=
  let bytesToTail := shape.capacity - s.publishPosition % shape.capacity
  let entry : RingEntry :=
    if bytesToTail < alignRecordSize r.total then .padding bytesToTail else .record r
  let retry := if bytesToTail < alignRecordSize r.total then some r else none
  { s with write := some ⟨entry, entry.stores crc s.publishPosition, retry⟩ }

def storeByte (s : BroadcastRing) : BroadcastRing :=
  match s.write with
  | some ⟨entry, (w, v) :: left, retry⟩ =>
    { s with store := s.store.write shape.capacity w v, write := some ⟨entry, left, retry⟩ }
  | _ => s

/-- The store of `publish_position`, when every byte is stored. -/
def publish (s : BroadcastRing) : BroadcastRing :=
  match s.write with
  | some ⟨entry, [], retry⟩ =>
    let s := { s with
      publishPosition := s.publishPosition + entry.span
      published := s.published ++ [(s.publishPosition, entry)]
      write := none }
    match retry with
    | some r => s.startWrite crc shape r
    | none => s
  | _ => s

def answer (s : BroadcastRing) (a : TryRead) : BroadcastRing :=
  { s with read := none, answers := s.answers ++ [(s.head, a)] }

/-- The second load, after the copy. -/
def recheck (s : BroadcastRing) (raw : RawRead) : BroadcastRing :=
  if shape.capacity ≤ s.publishPosition - s.head then
    { s.answer .overwritten with head := s.publishPosition }
  else
    match raw with
    | .empty => s.answer .none
    | .corrupt => s.answer .corrupt
    | .badCrc => s.answer .badCrc
    | .padding len => { s with head := s.head + len, read := some .load }
    | .record r advance => { s.answer (.record r) with head := s.head + advance }

/-- The slot of the byte `i` of the record at the head, and what it is for. -/
def cellAt (s : BroadcastRing) (i : ℕ) : UInt8 × Option ℕ :=
  let o := s.head % shape.capacity + i
  (s.store.cell o, s.store.owner o)

/-- One access of a `try_read`. -/
def access (s : BroadcastRing) : BroadcastRing :=
  match s.read with
  | none => s
  | some .load =>
    if s.head = s.publishPosition then s.answer .none
    else if shape.capacity ≤ s.publishPosition - s.head then
      { s.answer .overwritten with head := s.publishPosition }
    else { s with read := some (.copy [] []) }
  | some (.copy out again) =>
    match tryReadRecordAt crc (out.map (·.1)) (again.map (·.1)) with
    | .copy => { s with read := some (.copy (out ++ [cellAt shape s out.length]) again) }
    | .recopy => { s with read := some (.copy out (again ++ [cellAt shape s (4 + again.length)])) }
    | .done raw => s.recheck shape raw

end BroadcastRing

/-- One access, of either side. -/
inductive BroadcastStep where
  | write (r : RingRecord)
  | storeByte
  | publish
  | subscribe
  | tryRead
  | access
deriving DecidableEq

namespace BroadcastRing

variable (crc : Bytes → UInt32) (shape : RingShape)

/-- One step of the ring. -/
def exec (s : BroadcastRing) : BroadcastStep → BroadcastRing
  | .write r => if shape.maxMsgSize < r.total then s else s.startWrite crc shape r
  | .storeByte => s.storeByte shape
  | .publish => s.publish crc shape
  | .subscribe => { s with head := s.publishPosition }
  | .tryRead => { s with read := some .load }
  | .access => s.access crc shape

/-- One producer, one consumer; `header_extra` is an array of eight bytes. -/
def Possible (s : BroadcastRing) : BroadcastStep → Prop
  | .write r => s.write = none ∧ r.headerExtra.length = 8
  | .subscribe | .tryRead => s.read = none
  | _ => True

instance (s : BroadcastRing) : (step : BroadcastStep) → Decidable (s.Possible step)
  | .write _ => inferInstanceAs (Decidable (_ ∧ _))
  | .subscribe | .tryRead => inferInstanceAs (Decidable (s.read = none))
  | .storeByte | .publish | .access => .isTrue trivial

def run (s : BroadcastRing) (steps : List BroadcastStep) : BroadcastRing :=
  steps.foldl (exec crc shape) s

/-- The records of a list of entries, with their positions. -/
def records (entries : List (ℕ × RingEntry)) : List (ℕ × RingRecord) :=
  entries.filterMap fun e =>
    match e.2 with
    | .record r => some (e.1, r)
    | .padding _ => none

/-- The records that the consumer was given, with the heads it was at. -/
def delivered (s : BroadcastRing) : List (ℕ × RingRecord) :=
  s.answers.filterMap fun a =>
    match a.2 with
    | .record r => some (a.1, r)
    | _ => none

end BroadcastRing

end UltimaCluster
