/-
  The sending side of the remote client (`uc_remote/src/engine.rs`, `link.rs`,
  `outgoing.rs`, `slots.rs`): the thread that submits stages frames in the
  outgoing ring, the writer drains the ring and re-sends, the reader resolves
  requests and asks for re-sends.

  A step is one access to what the threads share.  The admission window, the
  probe gate, the backoff clock, the size of a batch and the outcome of a dial
  or of a socket write are choices of the run; so are the answers of the edges,
  which name requests that were written on some connection.  A frame counts as
  written on a connection when its bytes were handed to the socket, with or
  without an error.  Sequence numbers are unbounded; `first_seq` leaves half of
  the 64-bit range.

  `frames`, `begun`, `wire`, `ever` and `broken` are kept for the statements and
  read by no step.
-/
import UltimaCluster.Lib.Bytes
import UltimaCluster.Lib.CellRing
import UltimaCluster.Lib.Blocks
import UltimaCluster.Lib.Trace
import Mathlib.Data.List.Sort

namespace UltimaCluster

namespace Remote

/-! ## Frames -/

/-- What is asked for. -/
inductive RequestType where
  | submit
  | query
deriving DecidableEq

/-- The type byte of `FrameType`. -/
def RequestType.byte : RequestType → UInt8
  | .submit => 4
  | .query => 5

/-- `HEADER_LEN`. -/
def frameHeaderLen : ℕ := 24

/-- `MAX_FRAME_LEN`. -/
def maxFrameLen : ℕ := 2 ^ 20

/-- `PROTOCOL_VERSION`. -/
def protocolVersion : ℕ := 2

/-- The header of a frame. -/
structure Header where
  ty : RequestType
  flags : UInt8
  clientId : ℕ
  seq : ℕ
deriving DecidableEq

/-- `encode_header_into`. -/
def encodeHeaderInto (h : Header) (payloadLen : ℕ) : Bytes :=
  Bytes.le 4 (frameHeaderLen + payloadLen) ++
    ([h.ty.byte, h.flags] ++ (Bytes.le 2 protocolVersion ++ (Bytes.le 8 h.clientId ++ Bytes.le 8 h.seq)))

/-- The payload length that `decode_header` finds. -/
def decodeHeader (buf : Bytes) : Option ℕ :=
  if buf.length < frameHeaderLen then none
  else
    let len := Bytes.num buf 0 4
    if maxFrameLen < len ∨ len < frameHeaderLen then none
    else if 1 ≤ Bytes.at_ buf 4 ∧ Bytes.at_ buf 4 ≤ 13 then some (len - frameHeaderLen) else none

/-- A call of `send`. -/
structure Request where
  ty : RequestType
  flags : UInt8
  payload : Bytes
deriving DecidableEq

/-- The bytes that `stage_frame` copies. -/
def Request.frame (r : Request) (clientId seq : ℕ) : Bytes :=
  encodeHeaderInto ⟨r.ty, r.flags, clientId, seq⟩ r.payload.length ++ r.payload

/-! ## Threads -/

/-- The owner word of a slot. -/
inductive Owner where
  | free
  | reserved
  | seq (n : ℕ)
deriving DecidableEq

/-- Where `live_extent` is: what is loaded next. -/
inductive ExtentStage where
  | owner
  | off
  | len (off : ℕ)
  | recheck (off len : ℕ)
deriving DecidableEq

/-- Where the submitting thread is: its next access. -/
inductive SubPc where
  | idle
  /-- `reclaim` walks over the dead requests. -/
  | walk (r : Request) (seq : ℕ)
  | floor (r : Request) (seq : ℕ)
  | extent (r : Request) (seq : ℕ) (stage : ExtentStage)
  /-- `release_to` loads the send position. -/
  | release (r : Request) (pos : ℕ)
  | ack (r : Request) (target : ℕ)
  /-- The size and the window. -/
  | admission (r : Request)
  | isFree (r : Request)
  | stage (r : Request)
  /-- `claim_inner` counts. -/
  | count (frame : Bytes)
  | reserve (frame : Bytes)
  | storeOff (frame : Bytes)
  | storeLen (frame : Bytes)
  | publish (frame : Bytes)
  | nextSeq (frame : Bytes)
  | commit (frame : Bytes)
deriving DecidableEq

/-- A batch of re-sends: what is left of it, what was copied, and whether the
    queue held more. -/
structure Batch where
  due : List ℕ
  got : List (ℕ × Bytes)
  still : Bool
deriving DecidableEq

/-- Where a resend is. -/
inductive ResendStage where
  | gate
  | extent (seq : ℕ) (stage : ExtentStage)
  | copy (seq off len : ℕ)
  | isLive (seq : ℕ) (bytes : Bytes)
  | mark (seq : ℕ) (bytes : Bytes)
  | putBack
  | write
deriving DecidableEq

/-- The scan of a redial: the loads before it, and what it has collected. -/
structure Scan where
  last : ℕ
  snapshot : ℕ
  requeue : List ℕ
deriving DecidableEq

/-- Where the writer is: its next access. -/
inductive WriterPc where
  | top
  /-- `take_due_resends`, with the queue locked. -/
  | sort
  | notBefore (due : List ℕ) (taken : ℕ)
  | late (due : List ℕ) (taken : ℕ)
  | alive (due : List ℕ) (taken : ℕ)
  | drop (due : List ℕ) (taken : ℕ)
  | resend (b : Batch) (stage : ResendStage)
  | afterResends (still : Bool)
  /-- `drain_ring`. -/
  | flushLimit
  | peek (limit : ℕ)
  | consume (limit n : ℕ)
  /-- `redial`. -/
  | dial
  | last
  | snapshot (last : ℕ)
  | oldest (last snapshot : ℕ)
  | scan (s : Scan) (seq : ℕ)
  | extent (s : Scan) (seq : ℕ) (stage : ExtentStage)
  | replace (s : Scan)
  | setSend (s : Scan)
  | stopped
deriving DecidableEq

/-- The writer holds the lock of the re-send queue. -/
def WriterPc.locks : WriterPc → Bool
  | .notBefore _ _ | .late _ _ | .alive _ _ | .drop _ _ => true
  | _ => false

/-- Where the reader is in `queue_retransmit`. -/
inductive ReaderPc where
  | idle
  | push (seq : ℕ)
deriving DecidableEq

/-- What `Link::start` fixes. -/
structure LinkConfig where
  clientId : ℕ
  firstSeq : ℕ
  /-- The number of slots. -/
  slots : ℕ
  /-- The capacity of the outgoing ring. -/
  capacity : ℕ
  slots_pos : 0 < slots
  firstSeq_pos : 0 < firstSeq

/-- The link with its threads. -/
structure RemoteLink where
  owner : ℕ → Owner
  off : ℕ → ℕ
  len : ℕ → ℕ
  nextSeq : ℕ
  oldestUnreclaimed : ℕ
  ring : ℕ → UInt8
  write : ℕ
  send : ℕ
  ack : ℕ
  retransmit : List ℕ
  /-- A redial was asked for. -/
  needed : Bool
  closed : Bool
  sub : SubPc
  /-- The submitter's cursors. -/
  seqNext : ℕ
  reclaimSeq : ℕ
  reclaimPos : ℕ
  writer : WriterPc
  reader : ReaderPc
  /-- The frames that were committed, in order. -/
  frames : List Bytes
  /-- The requests whose frame was begun on the current connection, in order. -/
  begun : List ℕ
  /-- The bytes of the current connection. -/
  wire : Bytes
  /-- The requests whose frame was begun on any connection. -/
  ever : List ℕ
  /-- A write on the current connection failed. -/
  broken : Bool

namespace RemoteLink

variable (cfg : LinkConfig)

def start : RemoteLink where
  owner _ := .free
  off _ := 0
  len _ := 0
  nextSeq := cfg.firstSeq
  oldestUnreclaimed := cfg.firstSeq
  ring _ := 0
  write := 0
  send := 0
  ack := 0
  retransmit := []
  needed := false
  closed := false
  sub := .idle
  seqNext := cfg.firstSeq
  reclaimSeq := cfg.firstSeq
  reclaimPos := 0
  writer := .top
  reader := .idle
  frames := []
  begun := []
  wire := []
  ever := []
  broken := false

variable {cfg}

/-- The index of a sequence number. -/
def index (cfg : LinkConfig) (seq : ℕ) : ℕ := seq % cfg.slots

/-- `is_live`. -/
def IsLive (cfg : LinkConfig) (n : RemoteLink) (seq : ℕ) : Prop := n.owner (index cfg seq) = .seq seq

instance (n : RemoteLink) (seq : ℕ) : Decidable (n.IsLive cfg seq) :=
  inferInstanceAs (Decidable (_ = _))

/-- The next load of `live_extent`: the next stage, or the answer. -/
def liveExtent (cfg : LinkConfig) (n : RemoteLink) (seq : ℕ) :
    ExtentStage → ExtentStage ⊕ Option (ℕ × ℕ)
  | .owner => if n.IsLive cfg seq then .inl .off else .inr none
  | .off => .inl (.len (n.off (index cfg seq)))
  | .len off => .inl (.recheck off (n.len (index cfg seq)))
  | .recheck off len => if n.IsLive cfg seq then .inr (some (off, len)) else .inr none

/-! ### The submitter -/

/-- The next access of `send`; `ok` is what the window says, where it is
    asked. -/
def submitter (cfg : LinkConfig) (n : RemoteLink) (ok : Bool) : RemoteLink :=
  match n.sub with
  | .idle => n
  | .walk r seq =>
    if seq < n.seqNext ∧ ¬ n.IsLive cfg seq then { n with sub := .walk r (seq + 1) }
    else { n with sub := .floor r seq, reclaimSeq := seq }
  | .floor r seq =>
    { n with
      oldestUnreclaimed := seq
      sub := if seq < n.seqNext then .extent r seq .owner else .release r (max n.write n.reclaimPos)
      reclaimPos := if seq < n.seqNext then n.reclaimPos else max n.write n.reclaimPos }
  | .extent r seq stage =>
    match liveExtent cfg n seq stage with
    | .inl stage => { n with sub := .extent r seq stage }
    | .inr none => { n with sub := .release r n.reclaimPos }
    | .inr (some (off, _)) =>
      { n with sub := .release r (max off n.reclaimPos), reclaimPos := max off n.reclaimPos }
  | .release r pos => { n with sub := .ack r (min pos n.send) }
  | .ack r target => { n with ack := max n.ack target, sub := .admission r }
  | .admission r =>
    let need := frameHeaderLen + r.payload.length
    if maxFrameLen < need ∨ cfg.capacity < need ∨ ¬ ok then { n with sub := .idle }
    else { n with sub := .isFree r }
  | .isFree r =>
    if n.owner (index cfg n.seqNext) = .free then { n with sub := .stage r }
    else { n with sub := .idle }
  | .stage r =>
    let frame := r.frame cfg.clientId n.seqNext
    if cfg.capacity < frame.length ∨ cfg.capacity - (n.write - n.ack) < frame.length then
      { n with sub := .idle }
    else
      { n with ring := CellRing.write cfg.capacity n.ring n.write frame, sub := .count frame }
  | .count frame => if ok then { n with sub := .reserve frame } else { n with sub := .idle }
  | .reserve frame =>
    if n.owner (index cfg n.seqNext) = .free then
      { n with
        owner := Function.update n.owner (index cfg n.seqNext) .reserved, sub := .storeOff frame }
    else { n with sub := .idle }
  | .storeOff frame =>
    { n with off := Function.update n.off (index cfg n.seqNext) n.write, sub := .storeLen frame }
  | .storeLen frame =>
    { n with
      len := Function.update n.len (index cfg n.seqNext) frame.length, sub := .publish frame }
  | .publish frame =>
    { n with
      owner := Function.update n.owner (index cfg n.seqNext) (.seq n.seqNext), sub := .nextSeq frame }
  | .nextSeq frame =>
    { n with seqNext := n.seqNext + 1, nextSeq := n.seqNext + 1, sub := .commit frame }
  | .commit frame =>
    { n with write := n.write + frame.length, frames := n.frames ++ [frame], sub := .idle }

/-! ### The writer -/

/-- The requests whose frames start within a chunk. -/
def startsIn (cfg : LinkConfig) (n : RemoteLink) (s e : ℕ) : List ℕ :=
  let i := Blocks.startsBelow n.frames s
  (List.range' i (Blocks.startsBelow n.frames e - i)).map (cfg.firstSeq + ·)

/-- Bytes are handed to the socket. -/
def handed (n : RemoteLink) (seqs : List ℕ) (bytes : Bytes) : RemoteLink :=
  { n with begun := n.begun ++ seqs, wire := n.wire ++ bytes, ever := n.ever ++ seqs }

/-- The write failed. -/
def failed (n : RemoteLink) : RemoteLink :=
  { n with needed := true, broken := true, writer := .top }

/-- The next access of `write_resends`, past the queue. -/
def resendStep (cfg : LinkConfig) (n : RemoteLink) (b : Batch) (ok : Bool) :
    ResendStage → RemoteLink
  | .gate =>
    match b.due with
    | seq :: due =>
      if ok then { n with writer := .resend { b with due } (.extent seq .owner) }
      else { n with writer := .resend b .putBack }
    | [] => { n with writer := .resend b .putBack }
  | .extent seq stage =>
    match liveExtent cfg n seq stage with
    | .inl stage => { n with writer := .resend b (.extent seq stage) }
    | .inr none => { n with writer := .resend b .gate }
    | .inr (some (off, len)) => { n with writer := .resend b (.copy seq off len) }
  | .copy seq off len =>
    { n with writer := .resend b (.isLive seq (CellRing.read cfg.capacity n.ring off len)) }
  | .isLive seq bytes =>
    if n.IsLive cfg seq then { n with writer := .resend b (.mark seq bytes) }
    else { n with writer := .resend b .gate }
  | .mark seq bytes =>
    if n.IsLive cfg seq then
      { n with
        writer := .resend { b with got := b.got ++ [(seq, bytes)] } (if ok then .gate else .putBack) }
    else { n with writer := .resend b .gate }
  | .putBack =>
    if b.due = [] then { n with writer := .resend b .write }
    else
      { n with
        retransmit := n.retransmit ++ b.due.filter (· ∉ n.retransmit)
        writer := .resend { b with due := [], still := true } .write }
  | .write =>
    if b.got = [] then { n with writer := .afterResends b.still }
    else
      let n := n.handed (b.got.map Prod.fst) (b.got.flatMap Prod.snd)
      if ok then { n with writer := .afterResends b.still } else n.failed

/-- `flush_limit`: everything that is committed on a connection that is proven,
    the frame at the send position on one that is not. -/
def flushLimit (cfg : LinkConfig) (n : RemoteLink) (proven gate : Bool) : ℕ :=
  if proven then n.write
  else if ¬ gate ∨ n.write - n.send < frameHeaderLen then n.send
  else
    match decodeHeader (CellRing.read cfg.capacity n.ring n.send frameHeaderLen) with
    | none => n.send
    | some payloadLen => min (n.send + (frameHeaderLen + payloadLen)) n.write

/-- The length of `peek_upto`: up to the limit and to the wrap. -/
def peekUpto (cfg : LinkConfig) (n : RemoteLink) (limit : ℕ) : ℕ :=
  min (min limit n.write - n.send) (cfg.capacity - n.send % cfg.capacity)

/-- The next access of the writer; `ok` and `ok'` are the choices it meets. -/
def writerStep (cfg : LinkConfig) (n : RemoteLink) (ok ok' : Bool) : RemoteLink :=
  match n.writer with
  | .top =>
    if n.closed then { n with writer := .stopped }
    else if n.needed then { n with writer := .dial }
    else { n with writer := .sort }
  | .sort =>
    if n.retransmit = [] then { n with writer := .afterResends false }
    else
      { n with
        retransmit := n.retransmit.insertionSort (· ≤ ·)
        writer := .notBefore [] 0 }
  | .notBefore due taken =>
    if n.retransmit.length ≤ taken then { n with writer := .drop due taken }
    else { n with writer := if ok then .alive due taken else .late due taken }
  | .late due taken =>
    if ∃ seq ∈ n.retransmit[taken]?, n.IsLive cfg seq then { n with writer := .drop due taken }
    else { n with writer := .alive due taken }
  | .alive due taken =>
    match n.retransmit[taken]? with
    | some seq =>
      { n with writer := .notBefore (if n.IsLive cfg seq then due ++ [seq] else due) (taken + 1) }
    | none => { n with writer := .drop due taken }
  | .drop due taken =>
    let rest := n.retransmit.drop taken
    { n with
      retransmit := rest
      writer :=
        if due = [] then .afterResends (rest ≠ []) else .resend ⟨due, [], rest ≠ []⟩ .gate }
  | .resend b stage => n.resendStep cfg b ok stage
  | .afterResends still =>
    if n.needed ∨ still then { n with writer := .top } else { n with writer := .flushLimit }
  | .flushLimit => { n with writer := .peek (n.flushLimit cfg ok ok') }
  | .peek limit =>
    let k := n.peekUpto cfg limit
    if k = 0 then { n with writer := .top }
    else
      let n := n.handed (n.startsIn cfg n.send (n.send + k)) (CellRing.read cfg.capacity n.ring n.send k)
      if ok then { n with writer := .consume limit k } else n.failed
  | .consume limit k => { n with send := n.send + k, writer := .peek limit }
  | .dial =>
    if n.closed then { n with writer := .stopped }
    else if ok then { n with needed := false, writer := .last }
    else if ok' then { n with closed := true, writer := .stopped }
    else n
  | .last => { n with writer := .snapshot n.nextSeq }
  | .snapshot last => { n with writer := .oldest last n.write }
  | .oldest last snapshot =>
    { n with writer := .scan ⟨last, snapshot, []⟩ (max n.oldestUnreclaimed 1) }
  | .scan s seq =>
    { n with writer := if seq < s.last then .extent s seq .owner else .replace s }
  | .extent s seq stage =>
    match liveExtent cfg n seq stage with
    | .inl stage => { n with writer := .extent s seq stage }
    | .inr none => { n with writer := .scan s (seq + 1) }
    | .inr (some (off, len)) =>
      if s.snapshot < off + len then { n with writer := .replace s }
      else { n with writer := .scan { s with requeue := s.requeue ++ [seq] } (seq + 1) }
  | .replace s => { n with retransmit := s.requeue, writer := .setSend s }
  | .setSend s =>
    { n with
      send := max n.send s.snapshot
      writer := .top
      begun := []
      wire := []
      broken := false }
  | .stopped => n

/-! ### Runs -/

/-- One access of one thread. -/
inductive LinkStep where
  /-- `try_submit` or `try_query`: the closed flag is loaded. -/
  | send (r : Request)
  | submitter (ok : Bool)
  | writer (ok ok' : Bool)
  /-- The compare-exchange of `resolve`, `sweep` or `drain_abort`. -/
  | resolve (seq : ℕ)
  /-- An answer asks for a re-send: the gates of `queue_retransmit`. -/
  | retry (seq : ℕ)
  | push
  | requestRedial
  | close
deriving DecidableEq

/-- What the threads can do. -/
def Possible (n : RemoteLink) : LinkStep → Prop
  | .send _ => n.sub = .idle
  | .retry seq => n.reader = .idle ∧ seq ∈ n.ever
  | .push => n.writer.locks = false
  | .submitter _ | .writer _ _ | .resolve _ | .requestRedial | .close => True

instance (n : RemoteLink) : (st : LinkStep) → Decidable (n.Possible st)
  | .send _ => inferInstanceAs (Decidable (_ = _))
  | .retry _ => inferInstanceAs (Decidable (_ ∧ _))
  | .push => inferInstanceAs (Decidable (_ = _))
  | .submitter _ | .writer _ _ | .resolve _ | .requestRedial | .close => .isTrue trivial

/-- One access of a thread. -/
def step (cfg : LinkConfig) (n : RemoteLink) : LinkStep → RemoteLink
  | .send r => if n.closed then n else { n with sub := .walk r n.reclaimSeq }
  | .submitter ok => n.submitter cfg ok
  | .writer ok ok' => n.writerStep cfg ok ok'
  | .resolve seq =>
    if n.IsLive cfg seq then { n with owner := Function.update n.owner (index cfg seq) .free } else n
  | .retry seq => if n.IsLive cfg seq then { n with reader := .push seq } else n
  | .push =>
    match n.reader with
    | .push seq =>
      { n with
        retransmit := if seq ∈ n.retransmit then n.retransmit else n.retransmit ++ [seq]
        reader := .idle }
    | .idle => n
  | .requestRedial => { n with needed := true }
  | .close => { n with closed := true }

def run (cfg : LinkConfig) (n : RemoteLink) (sts : List LinkStep) : RemoteLink :=
  sts.foldl (step cfg) n

def Runs (cfg : LinkConfig) (n : RemoteLink) (sts : List LinkStep) : Prop :=
  Trace.Admits (step cfg) Possible n sts

instance (n : RemoteLink) (sts : List LinkStep) : Decidable (Runs cfg n sts) :=
  inferInstanceAs (Decidable (Trace.Admits (step cfg) Possible n sts))

end RemoteLink

end Remote

end UltimaCluster
