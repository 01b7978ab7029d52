/-
  The log buffer: a ring of bytes addressed by stream positions, with one
  writer, the archive and any number of validated readers.

  The state is what the threads share: the bytes, the position counters
  `append`, `durable` and the write reserve, and how far each thread is in its
  function.  A step is one access to shared memory, a copy being one byte at a
  time, so every interleaving of the functions of `uc_log/src/buffer.rs`,
  `uc_log/src/writer.rs` and `uc_log/src/counters.rs` is a sequence of steps.
  The payload ceiling, the log clock and the counters `sent` and `commit` are
  left out; the reads do not depend on them.
-/
import UltimaCluster.Lib.Bytes
import UltimaCluster.Lib.Lap
import UltimaCluster.Lib.Trace

namespace UltimaCluster

def headerLen : ℕ := 32

def frameAlignment : ℕ := 32

def offType : ℕ := 4

def frameTypePadding : UInt8 := 2

def alignFrameLen (total : ℕ) : ℕ := (total + (frameAlignment - 1)) / frameAlignment * frameAlignment

/-- A frame as the leader stamps it. -/
structure LogFrame where
  frameType : UInt8
  flags : UInt8
  termId : ℕ
  clientId : ℕ
  seq : ℕ
  timeNs : ℕ
  body : Bytes
deriving DecidableEq

namespace LogFrame

/-- `write_header_except_length`: the header from its fifth byte on. -/
def headerExceptLength (f : LogFrame) : Bytes :=
  [f.frameType, f.flags, 0, 0] ++ Bytes.le 4 f.termId ++ Bytes.le 4 f.clientId ++
    Bytes.le 4 f.seq ++ [0, 0, 0, 0] ++ Bytes.le 8 f.timeNs

def total (f : LogFrame) : ℕ := headerLen + f.body.length

end LogFrame

/-- The sizes of a buffer. -/
structure LogBuffer where
  capacity : ℕ
  maxPayload : ℕ
  powerOfTwo : ∃ k, capacity = 2 ^ k
  word : capacity ≤ 2 ^ 31
  room : 4 * (2 * alignFrameLen (headerLen + maxPayload)) ≤ capacity

namespace LogBuffer

variable (b : LogBuffer)

/-- The worst-case footprint of one append. -/
def maxClaim : ℕ := 2 * alignFrameLen (headerLen + b.maxPayload)

/-- `pos & mask`, the capacity being a power of two. -/
def offset (pos : ℕ) : ℕ := pos % b.capacity

end LogBuffer

/-! ## The threads -/

/-- The appender of a leader. -/
structure Appender where
  pos : ℕ
  cachedDurable : ℕ
deriving DecidableEq

/-- What the writer has still to do: bytes to store, and for an append the
    value that it publishes last. -/
structure RingWrite where
  bytes : List (ℕ × UInt8)
  publish : Option ℕ
deriving DecidableEq

/-- A `prime` under way; the first store, of `durable`, is done. -/
structure RingPrime where
  pos : ℕ
  reserveDone : Bool
deriving DecidableEq

/-- What a reader asks for. -/
inductive ReadKind where
  | frame
  | run (maxBytes : ℕ)
deriving DecidableEq

/-- The next access of a read. -/
inductive ReadPc where
  | loadReserve
  | loadLength
  | loadType (span : ℕ)
  /-- `done` of the `len` bytes of a frame are copied; the frame spans `span`. -/
  | copy (span len done : ℕ) (padding : Bool)
  | recheckAppend
  | recheckReserve (append : ℕ)
deriving DecidableEq

/-- A read under way.  Every byte is kept with the position that its slot had
    been written for. -/
structure RingRead where
  kind : ReadKind
  pos : ℕ
  append : ℕ
  walked : ℕ
  out : List (UInt8 × Option ℕ)
  pc : ReadPc
deriving DecidableEq

/-- What it is told. -/
inductive ReadResult where
  | frame
  | run (bytes advance : ℕ)
  | notCommitted
  | overrun
deriving DecidableEq

/-- The ring, its writers and one reader. -/
structure LogRing where
  store : Lap.Store UInt8
  append : ℕ
  durable : ℕ
  reserve : ℕ
  appender : Option Appender
  write : Option RingWrite
  prime : Option RingPrime
  reads : List RingRead

namespace LogRing

variable (b : LogBuffer)

/-! ## The writer -/

/-- The bytes at consecutive positions. -/
def bytesAt (pos : ℕ) (bs : Bytes) : List (ℕ × UInt8) := bs.zipIdx.map fun e => (pos + e.2, e.1)

/-- A frame at `pos`, the commit word last. -/
def frameBytes (pos : ℕ) (f : LogFrame) : List (ℕ × UInt8) :=
  bytesAt (pos + headerLen) f.body ++ bytesAt (pos + 4) f.headerExceptLength ++
    bytesAt pos (Bytes.le 4 f.total)

/-- Padding to the end of the buffer: the header only. -/
def paddingBytes (pos padLen : ℕ) (f : LogFrame) : List (ℕ × UInt8) :=
  bytesAt (pos + 4)
      { f with
        frameType := frameTypePadding, flags := 0, clientId := 0, seq := 0 }.headerExceptLength ++
    bytesAt pos (Bytes.le 4 padLen)

/-- The padding that a frame at `pos` needs: frames never span the wrap. -/
def padLen (pos : ℕ) (f : LogFrame) : ℕ :=
  let toEnd := b.capacity - b.offset pos
  if toEnd < alignFrameLen f.total then toEnd else 0

/-- `Appender::append` up to its first store. -/
def startAppend (s : LogRing) (f : LogFrame) : LogRing :=
  match s.appender with
  | none => s
  | some a =>
    if b.maxPayload < f.body.length then s
    else
      let pad := padLen b a.pos f
      let finish := a.pos + pad + alignFrameLen f.total
      -- the one hard gate: never claim past durable + capacity
      let a := if a.cachedDurable + b.capacity < finish then { a with cachedDurable := s.durable }
        else a
      if a.cachedDurable + b.capacity < finish then { s with appender := some a }
      else
        { s with
          appender := some a
          write := some {
            bytes := (if pad = 0 then [] else paddingBytes a.pos pad f) ++ frameBytes (a.pos + pad) f
            publish := some finish } }

/-- `PositionedWriter::write_run` up to its first store into the ring. -/
def startRun (s : LogRing) (position : ℕ) (bytes : Bytes) : LogRing :=
  if bytes = [] ∨ b.capacity - b.offset position < bytes.length then s
  else if s.durable + b.capacity < position + bytes.length then s
  else if position < s.durable then s
  else
    { s with
      reserve := max s.reserve (position + bytes.length)
      write := some { bytes := bytesAt position bytes, publish := none } }

/-- The next byte of the write under way; a run is done with its last byte. -/
def storeByte (s : LogRing) : LogRing :=
  match s.write with
  | some ⟨(w, v) :: rest, publish⟩ =>
    { s with
      store := s.store.write b.capacity w v
      write := if rest = [] ∧ publish = none then none else some ⟨rest, publish⟩ }
  | _ => s

/-! ## The reader -/

/-- The highest position that any writer may have touched. -/
def writeExtent (append reserve : ℕ) : ℕ := max (append + b.maxClaim) reserve

/-- The commit word at an offset. -/
def commitWord (s : LogRing) (o : ℕ) : ℕ :=
  Bytes.val [s.store.cell o, s.store.cell (o + 1), s.store.cell (o + 2), s.store.cell (o + 3)]

/-- The bound of a run: the append counter and the wrap. -/
def hard (r : RingRead) : ℕ := min (r.append - r.pos) (b.capacity - b.offset r.pos)

/-- One access of a read. -/
def readStep (s : LogRing) (r : RingRead) : RingRead ⊕ ReadResult :=
  let off := b.offset r.pos
  match r.pc with
  | .loadReserve =>
    if r.pos + b.capacity < writeExtent b r.append s.reserve then .inr .overrun
    else .inl { r with pc := .loadLength }
  | .loadLength =>
    match r.kind with
    | .frame =>
      let len := s.commitWord off
      -- never written to this file, or not a committed frame
      if len = 0 then .inr .overrun
      else if len < headerLen ∨ b.capacity - off < alignFrameLen len then .inr .overrun
      else .inl { r with pc := .copy (alignFrameLen len) len 0 false }
    | .run _ =>
      if ¬ r.walked < hard b r then .inl { r with pc := .recheckAppend }
      else
        let len := s.commitWord (off + r.walked)
        if len = 0 then .inl { r with pc := .recheckAppend }
        else if hard b r < r.walked + alignFrameLen len then .inl { r with pc := .recheckAppend }
        else .inl { r with pc := .loadType (alignFrameLen len) }
  | .loadType span =>
    let padding := s.store.cell (off + r.walked + offType) == frameTypePadding
    let len := if padding then headerLen else span
    match r.kind with
    | .run maxBytes =>
      if 0 < r.out.length ∧ maxBytes < r.out.length + len then .inl { r with pc := .recheckAppend }
      else .inl { r with pc := .copy span len 0 padding }
    | .frame => .inl { r with pc := .recheckAppend }
  | .copy span len done padding =>
    if done < len then
      let o := off + r.walked + done
      .inl { r with
        out := r.out ++ [(s.store.cell o, s.store.owner o)]
        pc := .copy span len (done + 1) padding }
    else
      match r.kind with
      | .frame => .inl { r with walked := r.walked + span, pc := .recheckAppend }
      | .run maxBytes =>
        if padding ∨ maxBytes ≤ r.out.length then
          .inl { r with walked := r.walked + span, pc := .recheckAppend }
        else .inl { r with walked := r.walked + span, pc := .loadLength }
  | .recheckAppend => .inl { r with pc := .recheckReserve s.append }
  | .recheckReserve append =>
    if r.pos + b.capacity < writeExtent b append s.reserve then .inr .overrun
    else
      match r.kind with
      | .frame => .inr .frame
      | .run _ => if r.walked = 0 then .inr .overrun else .inr (.run r.out.length r.walked)

/-! ## Steps -/

/-- One access, of any side. -/
inductive RingStep where
  /-- The leader's term is open: a fresh appender. -/
  | openAppender
  | closeAppender
  | append (f : LogFrame)
  | writeRun (position : ℕ) (bytes : Bytes)
  /-- The writer stores a byte. -/
  | storeByte
  /-- The append is published. -/
  | publish
  /-- The receiver publishes its contiguous frontier. -/
  | publishRun (contiguous : ℕ)
  /-- The archive has recorded up to `durable`. -/
  | recorded (durable : ℕ)
  /-- A truncation or a collapse primes the counters: the store of `durable`. -/
  | prime (pos : ℕ)
  | primeReserve
  | primeAppend
  /-- The process starts again over the same file. -/
  | restart (pos : ℕ)
  | readFrame (pos : ℕ)
  | readRun (pos maxBytes : ℕ)
  /-- The next access of a read. -/
  | access (i : ℕ)

/-- There is one writer at a time: an open appender, or the receiver, which
    accepts runs at or above its frontier.  The archive primes a follower, or a
    leader before it opens its appender, at or below `append`. -/
def Possible (s : LogRing) : RingStep → Prop
  | .openAppender => s.appender = none ∧ s.write = none ∧ s.prime = none
  | .closeAppender => s.write = none
  | .append _ => s.appender.isSome ∧ s.write = none
  | .writeRun position _ => s.appender = none ∧ s.write = none ∧ s.append ≤ position
  | .storeByte => ∃ wr ∈ s.write, wr.bytes ≠ []
  | .publish => ∃ wr ∈ s.write, wr.bytes = [] ∧ wr.publish.isSome
  | .publishRun contiguous => s.appender = none ∧ s.write = none ∧ s.append ≤ contiguous
  | .recorded durable => s.durable ≤ durable ∧ durable ≤ s.append ∧ s.prime = none
  | .prime pos => s.prime = none ∧ s.appender = none ∧ pos ≤ s.append
  | .primeReserve => ∃ p ∈ s.prime, p.reserveDone = false
  | .primeAppend => ∃ p ∈ s.prime, p.reserveDone = true
  | .restart pos => pos ≤ s.append
  | .readFrame _ | .readRun _ _ => True
  | .access i => i < s.reads.length

instance (s : LogRing) : (st : RingStep) → Decidable (s.Possible st)
  | .openAppender => inferInstanceAs (Decidable (_ ∧ _ ∧ _))
  | .closeAppender => inferInstanceAs (Decidable (_ = _))
  | .append _ => inferInstanceAs (Decidable (_ ∧ _))
  | .writeRun _ _ | .publishRun _ | .recorded _ | .prime _ =>
    inferInstanceAs (Decidable (_ ∧ _ ∧ _))
  | .storeByte | .publish | .primeReserve | .primeAppend =>
    inferInstanceAs (Decidable (∃ e ∈ _, _))
  | .restart _ => inferInstanceAs (Decidable (_ ≤ _))
  | .readFrame _ | .readRun _ _ => .isTrue trivial
  | .access _ => inferInstanceAs (Decidable (_ < _))

/-- A read begins with the load of `append`. -/
def startRead (s : LogRing) (kind : ReadKind) (pos : ℕ) : LogRing :=
  if s.append ≤ pos then s
  else { s with reads := s.reads ++ [⟨kind, pos, s.append, 0, [], .loadReserve⟩] }

/-- One access of the ring. -/
def exec (s : LogRing) : RingStep → LogRing
  | .openAppender => { s with appender := some ⟨s.append, s.durable⟩ }
  | .closeAppender => { s with appender := none }
  | .append f => startAppend b s f
  | .writeRun position bytes => startRun b s position bytes
  | .storeByte => storeByte b s
  | .publish =>
    match s.write with
    | some ⟨_, some finish⟩ =>
      { s with
        append := finish, write := none
        appender := s.appender.map fun a => { a with pos := finish } }
    | _ => s
  | .publishRun contiguous => { s with append := contiguous }
  | .recorded durable => { s with durable }
  | .prime pos => { s with durable := pos, prime := some ⟨pos, false⟩ }
  | .primeReserve =>
    match s.prime with
    | some p => { s with reserve := p.pos, prime := some ⟨p.pos, true⟩ }
    | none => s
  | .primeAppend =>
    match s.prime with
    | some p => { s with append := p.pos, prime := none }
    | none => s
  | .restart pos =>
    { s with
      append := pos, durable := pos, reserve := pos, appender := none, write := none
      prime := none, reads := [] }
  | .readFrame pos => s.startRead .frame pos
  | .readRun pos maxBytes => s.startRead (.run maxBytes) pos
  | .access i =>
    match s.reads[i]? with
    | none => s
    | some r =>
      match readStep b s r with
      | .inl r => { s with reads := s.reads.set i r }
      | .inr _ => { s with reads := s.reads.eraseIdx i }

/-- What a step returns to a reader: the position, the bytes and the result. -/
def returns (s : LogRing) : RingStep → Option (RingRead × ReadResult)
  | .access i => do
    let r ← s.reads[i]?
    (readStep b s r).getRight?.map fun res => (r, res)
  | _ => none

def run (s : LogRing) (sts : List RingStep) : LogRing := sts.foldl (exec b) s

/-- Every step is possible where it is taken, and meets `P` there. -/
def Runs (P : LogRing → RingStep → Prop) (s : LogRing) (sts : List RingStep) : Prop :=
  Trace.Admits (exec b) (fun s st => s.Possible st ∧ P s st) s sts

instance (P : LogRing → RingStep → Prop) [∀ s st, Decidable (P s st)] (s : LogRing)
    (sts : List RingStep) : Decidable (Runs b P s sts) :=
  inferInstanceAs (Decidable (Trace.Admits _ _ _ _))

/-- A buffer file of zeros. -/
def fresh : LogRing where
  store := ⟨fun _ => 0, fun _ => none, fun _ => none⟩
  append := 0
  durable := 0
  reserve := 0
  appender := none
  write := none
  prime := none
  reads := []

end LogRing

end UltimaCluster
