/-
  The ring of many producers and one consumer
  (`uc_protocol/src/ring/mpsc.rs`, `uc_protocol/src/ring/common.rs`).

  A step is one access to shared memory, a copy being one byte at a time and the
  first word of a slot one access.  The `hole_timeout` of the consumer is an
  answer of the clock, which a step brings along.  Positions are not bounded; the
  commit count, which only changes the word that a parked consumer waits on, and
  the park and wake calls are left out.  `crc` stands for `crc32fast::hash` and is
  any function.  The answer of a `try_write` is noted at the compare-exchange that
  decides it.
-/
import UltimaCluster.Broadcast

namespace UltimaCluster

/-! ## The first word of a slot -/

/-- `MPSC_MAX_RECORD_BYTES`. -/
def mpscMaxRecordBytes : ℕ := 0x3ffff

/-- The lap of a position, in the thirteen bits of `COMMIT_LAP_MASK`. -/
def lapOf (pos capacity : ℕ) : ℕ := pos / capacity % 2 ^ 13

/-- Eighteen bits of length, thirteen of lap, and `COMMIT_CLAIMED`. -/
def encodeCommitWord (lap len : ℕ) (claimed : Bool) : ℕ :=
  (lap % 2 ^ 13) * 2 ^ 18 + len % 2 ^ 18 + if claimed then 2 ^ 31 else 0

/-- What the length word of a slot says. -/
inductive SlotState where
  | empty
  | claimed (advance : ℕ)
  | committed (length : ℕ)
deriving DecidableEq

/-- What a length word says. -/
def classifyCommitWord (word expectedLap : ℕ) : SlotState :=
  if word = 0 then .empty
  else if word / 2 ^ 18 % 2 ^ 13 ≠ expectedLap % 2 ^ 13 then .empty
  else if word / 2 ^ 31 % 2 ≠ 0 then .claimed (word % 2 ^ 18)
  else if word % 2 ^ 18 = 0 then .empty
  else .committed (word % 2 ^ 18)

/-! ## The record at a slot -/

/-- The byte of the slot that `try_read` and `decode_record_slice` read as their
    `n`-th: the type, then the header, the trailer, the bytes of the crc and the
    payload. -/
def slotRead (length n : ℕ) : ℕ :=
  if n < 2 then 4 + n
  else if n < 14 then 2 + n
  else if n < 18 then length - recordTrailerLen + (n - 14)
  else if n < 18 + (length - 8) then 4 + (n - 18)
  else recordHeaderLen + (n - (18 + (length - 8)))

/-- What the consumer makes of a slot. -/
inductive SlotRead where
  | fetch
  | padding (advance : ℕ)
  | corrupt
  | badCrc
  | record (r : RingRecord) (advance : ℕ)
deriving DecidableEq

/-- The committed arm of `try_read`, by the bytes read so far.  The type is read
    once for the choice of the decoder and again by it. -/
def decodeSlot (crc : Bytes → UInt32) (bytesToTail length : ℕ) (out : Bytes) : SlotRead :=
  if out.length < 4 then .fetch
  else if Bytes.num out 0 2 = paddingMsgType ∧ length = bytesToTail ∧
      Bytes.num out 2 4 = paddingMsgType then
    if length % recordAlign = 0 then .padding length else .corrupt
  else if length < recordHeaderLen + recordTrailerLen then .corrupt
  else if out.length < 18 + (length - 8) then .fetch
  else if (crc (Bytes.slice out 18 (18 + (length - 8)))).toNat ≠ Bytes.num out 14 18 then .badCrc
  else if out.length < 18 + (length - 8) + (length - 20) then .fetch
  else .record
    ⟨.ofNat (Bytes.num out 2 4), .ofNat (Bytes.num out 4 6), Bytes.slice out 6 14,
      Bytes.slice out (18 + (length - 8)) (18 + (length - 8) + (length - 20))⟩
    (alignRecordSize length)

/-! ## The ring -/

/-- What `MpscRing::create` admits. -/
structure MpscShape extends RingShape where
  fits : alignRecordSize maxMsgSize ≤ mpscMaxRecordBytes

namespace MpscShape

variable (shape : MpscShape)

def bytesToTail (pos : ℕ) : ℕ := shape.capacity - pos % shape.capacity

/-- What a claim at a position is for: a record that does not fit before the end
    of the buffer comes after a padding. -/
def entryAt (pos : ℕ) (r : RingRecord) : RingEntry :=
  if shape.bytesToTail pos < alignRecordSize r.total then .padding (shape.bytesToTail pos)
  else .record r

/-- The space a record takes at `pos`. -/
def needed (pos : ℕ) (r : RingRecord) : ℕ :=
  if shape.bytesToTail pos < alignRecordSize r.total then
    shape.bytesToTail pos + alignRecordSize r.total
  else alignRecordSize r.total

def free (claimPos consumerPos : ℕ) : ℕ := shape.capacity - (claimPos - consumerPos)

def maxRecord : ℕ := min (alignRecordSize shape.maxMsgSize) mpscMaxRecordBytes

end MpscShape

namespace RingEntry

/-- What is stored before the crc. -/
def fields : RingEntry → Bytes
  | .record r => r.body
  | .padding _ => Bytes.le 2 paddingMsgType

/-- The length that the commit tells. -/
def commitLen : RingEntry → ℕ
  | .record r => r.total
  | .padding len => len

end RingEntry

/-- `PendingClaim` and `PendingPadding`. -/
structure PendingClaim where
  pos : ℕ
  entry : RingEntry
deriving DecidableEq

namespace PendingClaim

variable (shape : MpscShape) (c : PendingClaim)

def claimWord : ℕ := encodeCommitWord (lapOf c.pos shape.capacity) c.entry.span true

def commitWord : ℕ := encodeCommitWord (lapOf c.pos shape.capacity) c.entry.commitLen false

end PendingClaim

/-- Where a `try_write` is. -/
inductive MpscWritePc where
  | idle
  | dead
  /-- The load of `claim_position`. -/
  | load (r : RingRecord)
  /-- The load of `consumer_position`, when the cached one leaves no room. -/
  | reload (r : RingRecord) (claimPos : ℕ)
  /-- The compare-exchange of `claim_position`. -/
  | claim (r : RingRecord) (claimPos : ℕ)
  | stamp (r : RingRecord) (c : PendingClaim)
  /-- `k` bytes are stored behind the first word. -/
  | body (r : RingRecord) (c : PendingClaim) (k : ℕ)
  /-- The crc is computed over the ring. -/
  | crc (r : RingRecord) (c : PendingClaim) (again : Bytes)
  | trailer (r : RingRecord) (c : PendingClaim) (sum : UInt32) (k : ℕ)
  | commit (r : RingRecord) (c : PendingClaim)
deriving DecidableEq

/-- The claim that a `try_write` holds. -/
def MpscWritePc.claim? : MpscWritePc → Option PendingClaim
  | .stamp _ c | .body _ c _ | .crc _ c _ | .trailer _ c _ _ | .commit _ c => some c
  | _ => none

/-- Between the body of a record and its commit. -/
def MpscWritePc.finished : MpscWritePc → Bool
  | .commit _ ⟨_, .record _⟩ => true
  | _ => false

/-- One producer. -/
structure MpscProducer where
  cachedConsumerPos : ℕ
  pc : MpscWritePc
deriving DecidableEq

/-- What `try_write` answers. -/
inductive WriteAnswer where
  | ok (pos : ℕ)
  | skipped (pos : ℕ)
  | full
  | tooLarge
  | reservedMsgType
deriving DecidableEq

/-- Where a `try_read` is. -/
inductive MpscReadPc where
  | idle
  /-- The load of the first word. -/
  | load
  /-- The word reads as empty. -/
  | empty
  /-- The word reads as claimed. -/
  | claimed (word advance : ℕ)
  | frontier (word advance : ℕ)
  /-- The compare-exchange of the skip marker. -/
  | mark (word advance : ℕ)
  | read (length : ℕ) (out : Bytes)
  /-- `zero_consumed`, from byte `k` on, and the store of `consumer_position`. -/
  | release (advance k : ℕ) (got : Option RingRecord)
deriving DecidableEq

def MpscReadPc.isClaimed : MpscReadPc → Bool
  | .claimed _ _ => true
  | _ => false

/-- What `try_read` answers. -/
inductive MpscRead where
  | none
  | wedged
  | corrupt
  | badCrc
  | record (pos : ℕ) (r : RingRecord)
deriving DecidableEq

/-- What a read delivers. -/
def MpscRead.delivery : MpscRead → Option (ℕ × RingRecord)
  | .record pos r => some (pos, r)
  | _ => .none

/-- The ring with all its producers. -/
structure MpscRing where
  cells : ℕ → UInt8
  claimPosition : ℕ
  consumerPosition : ℕ
  producers : List MpscProducer
  consumer : MpscReadPc
  /-- What was claimed, in order. -/
  claims : List PendingClaim
  /-- The answers to the producers. -/
  answers : List (RingRecord × WriteAnswer)
  /-- The positions of the claims that the consumer marked. -/
  skipped : List ℕ
  /-- The answers to the consumer. -/
  reads : List MpscRead

namespace MpscRing

variable (crc : Bytes → UInt32) (shape : MpscShape)

/-- A new ring, with the producer of `into_split`. -/
def create : MpscRing := ⟨fun _ => 0, 0, 0, [⟨0, .idle⟩], .idle, [], [], [], []⟩

def wordAt (s : MpscRing) (o : ℕ) : ℕ :=
  Bytes.val [s.cells o, s.cells (o + 1), s.cells (o + 2), s.cells (o + 3)]

def storeByte (s : MpscRing) (o : ℕ) (b : UInt8) : MpscRing :=
  { s with cells := fun x => if x = o then b else s.cells x }

def storeWord (s : MpscRing) (o word : ℕ) : MpscRing :=
  { s with cells := fun x =>
      if o ≤ x ∧ x < o + 4 then (Bytes.le 4 word).getD (x - o) 0 else s.cells x }

def setProducer (s : MpscRing) (i : ℕ) (p : MpscProducer) : MpscRing :=
  { s with producers := s.producers.set i p }

/-! ### `try_write` -/

def answerWrite (s : MpscRing) (i : ℕ) (p : MpscProducer) (r : RingRecord) (a : WriteAnswer) :
    MpscRing :=
  { s.setProducer i { p with pc := .idle } with answers := s.answers ++ [(r, a)] }

/-- A producer begins to write. -/
def tryWrite (s : MpscRing) (i : ℕ) (r : RingRecord) : MpscRing :=
  match s.producers[i]? with
  | none => s
  | some p =>
    if r.msgType.toNat = paddingMsgType then s.answerWrite i p r .reservedMsgType
    else if shape.maxMsgSize < r.total then s.answerWrite i p r .tooLarge
    else s.setProducer i { p with pc := .load r }

/-- The compare-exchange of a commit; a padding goes on to its record either way. -/
def commit (s : MpscRing) (i : ℕ) (p : MpscProducer) (r : RingRecord) (c : PendingClaim) :
    MpscRing :=
  let o := c.pos % shape.capacity
  match c.entry with
  | .padding _ =>
    let s := s.setProducer i { p with pc := .load r }
    if s.wordAt o = c.claimWord shape then s.storeWord o (c.commitWord shape) else s
  | .record _ =>
    if s.wordAt o = c.claimWord shape then
      (s.storeWord o (c.commitWord shape)).answerWrite i p r (.ok c.pos)
    else s.answerWrite i p r (.skipped c.pos)

/-- One access of a `try_write`; `weak` is a compare-exchange that fails for no
    reason. -/
def produce (s : MpscRing) (i : ℕ) (weak : Bool) : MpscRing :=
  match s.producers[i]? with
  | none => s
  | some p =>
    match p.pc with
    | .idle | .dead => s
    | .load r =>
      if shape.free s.claimPosition p.cachedConsumerPos < shape.needed s.claimPosition r then
        s.setProducer i { p with pc := .reload r s.claimPosition }
      else s.setProducer i { p with pc := .claim r s.claimPosition }
    | .reload r claimPos =>
      let p := { p with cachedConsumerPos := s.consumerPosition }
      if shape.free claimPos s.consumerPosition < shape.needed claimPos r then
        s.answerWrite i p r .full
      else s.setProducer i { p with pc := .claim r claimPos }
    | .claim r claimPos =>
      if weak = true ∨ s.claimPosition ≠ claimPos then s.setProducer i { p with pc := .load r }
      else
        let c : PendingClaim := ⟨claimPos, shape.entryAt claimPos r⟩
        { s.setProducer i { p with pc := .stamp r c } with
          claimPosition := claimPos + c.entry.span
          claims := s.claims ++ [c] }
    | .stamp r c =>
      (s.storeWord (c.pos % shape.capacity) (c.claimWord shape)).setProducer i
        { p with pc := .body r c 0 }
    | .body r c k =>
      match c.entry.fields[k]?, c.entry with
      | some b, _ =>
        (s.storeByte (c.pos % shape.capacity + 4 + k) b).setProducer i
          { p with pc := .body r c (k + 1) }
      | none, .record _ => s.setProducer i { p with pc := .crc r c [] }
      | none, .padding _ => s.setProducer i { p with pc := .commit r c }
    | .crc r c again =>
      if again.length < c.entry.fields.length then
        s.setProducer i
          { p with pc := .crc r c (again ++ [s.cells (c.pos % shape.capacity + 4 + again.length)]) }
      else s.setProducer i { p with pc := .trailer r c (crc again) 0 }
    | .trailer r c sum k =>
      match (Bytes.le 4 sum.toNat)[k]? with
      | some b =>
        (s.storeByte (c.pos % shape.capacity + 4 + c.entry.fields.length + k) b).setProducer i
          { p with pc := .trailer r c sum (k + 1) }
      | none => s.setProducer i { p with pc := .commit r c }
    | .commit r c => s.commit shape i p r c

/-! ### `try_read` -/

def answerRead (s : MpscRing) (a : MpscRead) : MpscRing :=
  { s with consumer := .idle, reads := s.reads ++ [a] }

/-- One access of a `try_read`; `elapsed` is the answer of `hole_elapsed`. -/
def consume (s : MpscRing) (elapsed : Bool) : MpscRing :=
  let pos := s.consumerPosition
  let o := pos % shape.capacity
  match s.consumer with
  | .idle => s
  | .load =>
    match classifyCommitWord (s.wordAt o) (lapOf pos shape.capacity) with
    | .empty => { s with consumer := .empty }
    | .claimed advance => { s with consumer := .claimed (s.wordAt o) advance }
    | .committed length =>
      if length < 6 ∨ shape.bytesToTail pos < length ∨ shape.maxRecord < length then
        s.answerRead .corrupt
      else { s with consumer := .read length [] }
  | .empty =>
    if s.claimPosition ≤ pos then s.answerRead .none
    else if elapsed then s.answerRead .wedged
    else s.answerRead .none
  | .claimed word advance =>
    if elapsed = false then s.answerRead .none
    else if advance = 0 ∨ alignRecordSize advance ≠ advance ∨ shape.bytesToTail pos < advance ∨
        shape.maxRecord < advance then
      s.answerRead .corrupt
    else { s with consumer := .frontier word advance }
  | .frontier word advance =>
    if s.claimPosition < pos + advance then s.answerRead .corrupt
    else { s with consumer := .mark word advance }
  | .mark word advance =>
    if s.wordAt o = word then
      { s.storeWord o (encodeCommitWord (lapOf pos shape.capacity) 0 true) with
        consumer := .release advance 4 none
        skipped := s.skipped ++ [pos] }
    else { s with consumer := .load }
  | .read length out =>
    match decodeSlot crc (shape.bytesToTail pos) length out with
    | .fetch =>
      { s with consumer := .read length (out ++ [s.cells (o + slotRead length out.length)]) }
    | .padding advance => { s with consumer := .release advance 4 none }
    | .record r advance => { s with consumer := .release advance 4 (some r) }
    | .corrupt => s.answerRead .corrupt
    | .badCrc => s.answerRead .badCrc
  | .release advance k got =>
    if k < advance then
      { s.storeByte (o + k) 0 with consumer := .release advance (k + 1) got }
    else if k = advance then
      { s.storeWord o 0 with consumer := .release advance (k + 1) got }
    else
      match got with
      | some r => { s.answerRead (.record pos r) with consumerPosition := pos + advance }
      | none => { s with consumerPosition := pos + advance, consumer := .load }

end MpscRing

/-- One access, of any side. -/
inductive MpscStep where
  /-- A producer of another `into_split`. -/
  | attach
  | clone (i : ℕ)
  | tryWrite (i : ℕ) (r : RingRecord)
  | produce (i : ℕ) (weak : Bool)
  | die (i : ℕ)
  | tryRead
  | consume (elapsed : Bool)
deriving DecidableEq

namespace MpscRing

variable (crc : Bytes → UInt32) (shape : MpscShape)

/-- One access of the ring. -/
def exec (s : MpscRing) : MpscStep → MpscRing
  | .attach => { s with producers := s.producers ++ [⟨0, .idle⟩] }
  | .clone i =>
    match s.producers[i]? with
    | some p => { s with producers := s.producers ++ [{ p with pc := .idle }] }
    | none => s
  | .tryWrite i r => s.tryWrite shape i r
  | .produce i weak => s.produce crc shape i weak
  | .die i =>
    match s.producers[i]? with
    | some p => s.setProducer i { p with pc := .dead }
    | none => s
  | .tryRead => { s with consumer := .load }
  | .consume elapsed => s.consume crc shape elapsed

/-- No producer is writing at the position of the consumer, other than one that
    has its record's commit before it. -/
def OnlyCommits (s : MpscRing) : Prop :=
  ∀ p ∈ s.producers, ∀ c ∈ p.pc.claim?, c.pos = s.consumerPosition → p.pc.finished = true

instance (s : MpscRing) : Decidable s.OnlyCommits :=
  inferInstanceAs (Decidable (∀ p ∈ s.producers, ∀ c ∈ p.pc.claim?, _))

/-- A producer makes one call at a time, and so does the consumer; `header_extra`
    is an array of eight bytes.  A producer that is not dead stalls for the
    timeout of the consumer only between its body and its commit. -/
def Possible (s : MpscRing) : MpscStep → Prop
  | .tryWrite i r => (∀ p ∈ s.producers[i]?, p.pc = .idle) ∧ r.headerExtra.length = 8
  | .tryRead => s.consumer = .idle
  | .consume elapsed => elapsed = true → s.consumer.isClaimed = true → s.OnlyCommits
  | _ => True

instance (s : MpscRing) : (step : MpscStep) → Decidable (s.Possible step)
  | .tryWrite _ _ => inferInstanceAs (Decidable (_ ∧ _))
  | .tryRead => inferInstanceAs (Decidable (s.consumer = .idle))
  | .consume elapsed =>
    inferInstanceAs (Decidable (elapsed = true → s.consumer.isClaimed = true → s.OnlyCommits))
  | .attach | .clone _ | .produce _ _ | .die _ => .isTrue trivial

def run (s : MpscRing) (steps : List MpscStep) : MpscRing := steps.foldl (exec crc shape) s

/-- The records that the consumer was given, with their positions. -/
def delivered (s : MpscRing) : List (ℕ × RingRecord) := s.reads.filterMap MpscRead.delivery

end MpscRing

end UltimaCluster
