/-
  The engine of a client (`uc_client/src/engine.rs`): any number of threads that
  send, and the one that polls.

  A step is one access to the shared words of the slot table.  The rings are the
  environment: a write succeeds or not, and the poll half may read any record of
  this client for a request that was written, any number of times.  So is the
  page of the node.  The counters of `EngineStats` are left out, and the cells of
  the read-your-writes token: the token of a query is any number.

  `life`, `claims`, `delivered` and the like are kept for the statements and
  read by no step.
-/
import UltimaCluster.ClientSlots
import UltimaCluster.Records
import UltimaCluster.Lib.Trace

namespace UltimaCluster

/-! ## Requests -/

/-- Why a ring takes no record. -/
inductive RingError where
  | full
  | tooLarge (len max : ℕ)
  | other
deriving DecidableEq

/-- Why `try_submit` refuses. -/
inductive SubmitError where
  | backpressure
  | notServing
  | payloadTooLarge (len max : ℕ)
  | instanceRestart (attached current : ℕ)
  | ring (e : RingError)
  | serviceNotDeclared (id declared : ℕ)
  | readYourWritesUnsupported
deriving DecidableEq

/-- A read-your-writes read has the token as it is when the call reads it. -/
inductive Consistency where
  | linearizable
  | snapshot
  | atLeast (token : ℕ)
deriving DecidableEq

/-- `try_submit` and `try_query` name the service 0. -/
inductive ClientCall where
  | submitTo (userData id : ℕ) (bytes : Bytes)
  | submitAll (userData : ℕ) (bytes : Bytes)
  | queryOn (userData id : ℕ) (bytes : Bytes) (c : Consistency)
deriving DecidableEq

/-- The arguments of `SendHalf::send`. -/
structure SendArgs where
  kind : ReqKind
  linearizable : Bool
  userData : ℕ
  bytes : Bytes
  expected : ℕ
  fanIn : Bool
  /-- The service id in front of a query. -/
  service : Option ℕ
  minPosition : ℕ
deriving DecidableEq

/-- What `Engine::attach` fixes. -/
structure EngineShared where
  clientId : ℕ
  instanceId : ℕ
  timeoutNs : ℕ
  maxPayload : Option ℕ
  headerMaxPayload : ℕ
  servingGate : Bool
  minPositionSupported : Bool
  /-- The declared services, as a mask of eight bits that is not empty. -/
  declared : ℕ
  declared_lt : declared < 2 ^ 8
  declared_pos : 0 < declared

namespace EngineShared

variable (sh : EngineShared)

/-- The one ring of a service. -/
def expectOne (id : ℕ) : Except SubmitError ℕ :=
  if id < cncMaxServices ∧ sh.declared.testBit id then .ok (1 <<< id)
  else .error (.serviceNotDeclared id sh.declared)

/-- `query_with_min`. -/
def queryWithMin (userData id : ℕ) (bytes : Bytes) (linearizable : Bool) (min : ℕ) :
    Except SubmitError SendArgs := do
  let expected ← sh.expectOne id
  if 0 < min ∧ ¬ sh.minPositionSupported then throw .readYourWritesUnsupported
  return ⟨.query, linearizable, userData, bytes, expected, false, some id, min⟩

/-- `try_submit_to`, `try_submit_all` and `try_query_on`, up to `send`. -/
def args : ClientCall → Except SubmitError SendArgs
  | .submitTo userData id bytes => do
    let expected ← sh.expectOne id
    return ⟨.submit, false, userData, bytes, expected, false, none, 0⟩
  | .submitAll userData bytes =>
    return ⟨.submit, false, userData, bytes, sh.declared, true, none, 0⟩
  | .queryOn userData id bytes .linearizable => sh.queryWithMin userData id bytes true 0
  | .queryOn userData id bytes .snapshot => sh.queryWithMin userData id bytes false 0
  | .queryOn userData id bytes (.atLeast token) => sh.queryWithMin userData id bytes false token

end EngineShared

/-- What a call reads off the node's page, and the engine's clock. -/
structure DoorView where
  canServe : Bool
  payloadCeiling : ℕ
  elapsed : ℕ
deriving DecidableEq

/-- What a claim is for. -/
structure Claim where
  thread : ℕ
  /-- The call, by its place in `calls`. -/
  call : ℕ
  body : SlotMeta
deriving DecidableEq

/-! ## Threads -/

/-- Where a sending thread stands: what it has done last. -/
inductive SenderPc where
  | idle
  /-- The call is past the door. -/
  | admitted (c : Claim)
  /-- The window had room. -/
  | counted (c : Claim)
  /-- The window had none. -/
  | full (c : Claim)
  | drawn (c : Claim) (seq : ℕ)
  /-- Another request has the slot. -/
  | busy (c : Claim)
  /-- The slot is reserved, and so many of the stores are made. -/
  | storing (c : Claim) (seq done : ℕ)
  | published (c : Claim) (seq : ℕ)
  | written (c : Claim) (seq : ℕ)
  | writeFailed (c : Claim) (seq : ℕ) (e : RingError)
  /-- The slot is given back. -/
  | released (c : Claim) (seq : ℕ) (e : RingError)
deriving DecidableEq

/-- What the node answers. -/
inductive EgressMsg where
  | response (isQuery : Bool) (payload : Bytes)
  | notLeader (payload : Bytes)
  | retry
  | badService (payload : Bytes)
  | other
deriving DecidableEq

/-- A record of a broadcast: of a service's ring, or of the node's. -/
structure EgressRecord where
  ring : Option ℕ
  client : ℕ
  wireSeq : ℕ
  msg : EgressMsg
deriving DecidableEq

namespace EgressRecord

/-- The piece of a response that goes on to the slots: the ring, the kind and the
    payload. -/
def answer (r : EgressRecord) : Option (ℕ × ReqKind × Bytes) :=
  match r.msg, r.ring with
  | .response isQuery payload, some ring =>
    if payload.length < 8 then none else some (ring, if isQuery then .query else .submit, payload)
  | _, _ => none

/-- The signals that end a request without a ring. -/
def terminal (r : EgressRecord) : Bool :=
  match r.msg with
  | .notLeader _ | .retry | .badService _ => true
  | _ => false

def position (payload : Bytes) : ℕ := Bytes.num payload 0 8

end EgressRecord

/-- What the caller is told. -/
inductive ClientOutcome where
  | response (body : Bytes)
  | responses (parts : List (ℕ × Bytes))
  | notLeader (hint : Option ℕ)
  | retry
  | badService (id : ℕ)
  | timedOut
  | instanceRestart (attached current : ℕ)
  /-- The callback of `drain_abort`. -/
  | aborted
deriving DecidableEq

/-- What the callback is called with. -/
structure Completion where
  /-- Of which request; the callback does not have it. -/
  seq : ℕ
  userData : ℕ
  position : Option ℕ
  outcome : ClientOutcome
deriving DecidableEq

/-- Where `resolve` stands, with `handle_record` around it: what comes next, and
    what was read. -/
inductive ResolveStage where
  | minOwner
  | minValue
  | owner (min : ℕ)
  | kind (min owner : ℕ)
  | expected (min owner : ℕ)
  | received (min owner expected ring : ℕ)
  | userData (min owner : ℕ) (first : Bool)
  | fanIn (min owner : ℕ) (first : Bool) (userData : ℕ)
  | exchange (min owner : ℕ) (first : Bool) (userData : ℕ) (fanIn : Bool)
  | finish (min owner : ℕ) (first : Bool) (userData : ℕ) (fanIn : Bool)
deriving DecidableEq

/-- Where a scan is at one slot. -/
inductive ScanStage where
  | owner
  | deadline (owner : ℕ)
  | userData (owner : ℕ)
  | exchange (owner userData : ℕ)
  | finish (owner userData : ℕ)
deriving DecidableEq

/-- Why the slots are scanned. -/
inductive ScanMode where
  | sweep (now : ℕ)
  /-- `drain_abort` of a restart, before the sweep. -/
  | restart (current : ℕ)
  /-- `PollHalf::drain_abort`. -/
  | abort
deriving DecidableEq

/-- Where the polling half is. -/
inductive PollPc where
  | idle
  /-- `seq` is the request that the record is for. -/
  | resolve (r : EgressRecord) (seq : ℕ) (stage : ResolveStage)
  | clock
  | scan (mode : ScanMode) (index : ℕ) (stage : ScanStage)
deriving DecidableEq

/-- The parts of an answer so far. -/
structure FanIn where
  position : ℕ
  parts : List (ℕ × Bytes)
deriving DecidableEq

namespace FanIn

def new : FanIn := ⟨0, []⟩

/-- A piece of an answer. -/
def pushPiece (f : FanIn) (first : Bool) (position ring : ℕ) (body : Bytes) : FanIn :=
  let f := if first then ⟨position, []⟩ else f
  { f with parts := f.parts ++ [(ring, body)] }

end FanIn

/-- What has become of a sequence number. -/
inductive Life where
  | fresh
  | drawn
  | burnt
  | storing
  | live
  | released
  /-- Freed by the poll half, which has not called back yet. -/
  | won
  | done
deriving DecidableEq

/-! ## The engine -/

/-- The engine with all its threads. -/
structure ClientEngine where
  shared : EngineShared
  table : SlotTable
  /-- The instance that was found where the attached one should be. -/
  restart : Option ℕ
  threads : ℕ
  senders : ℕ → SenderPc
  poll : PollPc
  fanin : ℕ → FanIn
  calls : List (ℕ × ClientCall)
  answers : List (ℕ × Except SubmitError Unit)
  /-- For what a sequence number was drawn. -/
  claims : ℕ → Option Claim
  life : ℕ → Life
  /-- The requests whose record is in the ring. -/
  sent : List ℕ
  /-- The pieces that the poll half has read, with their request and ring. -/
  delivered : List (ℕ × ℕ × Bytes)
  completions : List Completion

namespace ClientEngine

def start (sh : EngineShared) (maxInflight startSeq threads : ℕ) : ClientEngine :=
  { shared := sh, table := .new maxInflight startSeq, restart := none, threads
    senders := fun _ => .idle, poll := .idle, fanin := fun _ => .new, calls := [], answers := []
    claims := fun _ => none, life := fun _ => .fresh, sent := [], delivered := []
    completions := [] }

def setPc (w : ClientEngine) (t : ℕ) (pc : SenderPc) : ClientEngine :=
  { w with senders := Function.update w.senders t pc }

def setLife (w : ClientEngine) (seq : ℕ) (l : Life) : ClientEngine :=
  { w with life := Function.update w.life seq l }

/-- The call returns. -/
def reply (w : ClientEngine) (t : ℕ) (c : Claim) (r : Except SubmitError Unit) : ClientEngine :=
  { w.setPc t .idle with answers := w.answers ++ [(c.call, r)] }

/-! ### Sends -/

/-- The checks of `send` before the claim. -/
def sendChecks (w : ClientEngine) (v : DoorView) (a : SendArgs) : Except SubmitError SlotMeta :=
  match w.restart with
  | some current => .error (.instanceRestart w.shared.instanceId current)
  | none =>
    let gated := a.kind = .submit ∨ a.linearizable
    let wireLen := a.bytes.length + (if a.service.isSome then 1 else 0) +
      if 0 < a.minPosition then 8 else 0
    let max := w.shared.maxPayload.getD
      (if v.payloadCeiling = 0 then w.shared.headerMaxPayload else v.payloadCeiling)
    if gated ∧ w.shared.servingGate ∧ ¬ v.canServe then .error .notServing
    else if max < wireLen then .error (.payloadTooLarge wireLen max)
    else .ok ⟨a.userData, (v.elapsed + w.shared.timeoutNs) % 2 ^ 64, a.kind, a.expected, 0, a.fanIn,
      a.minPosition⟩

/-- A call up to its claim. -/
def enter (w : ClientEngine) (t : ℕ) (call : ClientCall) (v : DoorView) : ClientEngine :=
  let k := w.calls.length
  let w := { w with calls := w.calls ++ [(t, call)] }
  match w.shared.args call >>= w.sendChecks v with
  | .error e => { w with answers := w.answers ++ [(k, .error e)] }
  | .ok body => w.setPc t (.admitted ⟨t, k, body⟩)

/-- `finish_write`'s errors. -/
def ringRefusal : RingError → SubmitError
  | .full => .backpressure
  | .tooLarge len max => .payloadTooLarge len max
  | .other => .ring .other

/-- The next access of a sending thread: `claim_inner`, the write, `finish_write`.
    `write` is what the ring says, where it is asked. -/
def senderStep (w : ClientEngine) (t : ℕ) (write : Except RingError Unit) : ClientEngine :=
  match w.senders t with
  | .idle => w
  | .admitted c =>
    let full := w.table.maxInflight ≤ w.table.inflight
    { w with table := w.table.addInflight }.setPc t (if full then .full c else .counted c)
  | .full c => { w with table := w.table.subInflight }.reply t c (.error .backpressure)
  | .counted c =>
    let seq := w.table.nextSeq
    ({ w with
        table := w.table.drawSeq
        claims := Function.update w.claims seq (some c) }.setLife seq .drawn).setPc t (.drawn c seq)
  | .drawn c seq =>
    if (w.table.slot seq).owner = ownerFree then
      ({ w with table := w.table.setOwner seq ownerReserved }.setLife seq .storing).setPc t
        (.storing c seq 0)
    else (w.setLife seq .burnt).setPc t (.busy c)
  | .busy c => { w with table := w.table.subInflight }.reply t c (.error .backpressure)
  | .storing c seq done =>
    if done < 7 then
      { w with table := w.table.setSlot seq ((w.table.slot seq).store c.body done) }.setPc t
        (.storing c seq (done + 1))
    else
      ({ w with table := w.table.setOwner seq (SlotTable.ownerWord seq) }.setLife seq .live).setPc t
        (.published c seq)
  | .published c seq =>
    match write with
    | .ok () => { w with sent := w.sent ++ [seq] }.setPc t (.written c seq)
    | .error e => w.setPc t (.writeFailed c seq e)
  | .written c _ => w.reply t c (.ok ())
  | .writeFailed c seq e =>
    if (w.table.slot seq).owner = SlotTable.ownerWord seq then
      ({ w with table := w.table.setOwner seq ownerFree }.setLife seq .released).setPc t
        (.released c seq e)
    else w.reply t c (.ok ())
  | .released c _ e => { w with table := w.table.subInflight }.reply t c (.error (ringRefusal e))

/-! ### Polls -/

/-- `handle_record` up to the slots. -/
def deliver (w : ClientEngine) (r : EgressRecord) (seq : ℕ) : ClientEngine :=
  if r.client ≠ w.shared.clientId then w
  else
    match r.answer with
    | some (ring, kind, payload) =>
      { w with
        delivered := w.delivered ++ [(seq, ring, payload)]
        poll := .resolve r seq (if kind = .query then .minOwner else .owner 0) }
    | none => if r.terminal then { w with poll := .resolve r seq (.owner 0) } else w

/-- The callback of a resolved record, and the pieces that are left. -/
def callback (f : FanIn) (r : EgressRecord) (seq min : ℕ) (first : Bool) (userData : ℕ)
    (fanIn : Bool) : FanIn × Completion :=
  match r.msg, r.answer with
  | _, some (ring, kind, payload) =>
    let position := EgressRecord.position payload
    if fanIn then
      let f := f.pushPiece first position ring (payload.drop 8)
      ({ f with parts := [] },
        ⟨seq, userData, some f.position,
          .responses (f.parts.insertionSort fun a b => a.1 ≤ b.1)⟩)
    else if kind = .query ∧ position < min then (f, ⟨seq, userData, none, .retry⟩)
    else (f, ⟨seq, userData, some position, .response (payload.drop 8)⟩)
  | .notLeader payload, none =>
    let hint := if payload.length < 8 then 2 ^ 64 - 1 else Bytes.num payload 0 8
    ({ f with parts := [] },
      ⟨seq, userData, none,
        .notLeader (if hint = 2 ^ 64 - 1 then none else some (hint % 2 ^ 32))⟩)
  | .badService payload, none =>
    ({ f with parts := [] },
      ⟨seq, userData, none, .badService (payload.head?.elim (2 ^ 8 - 1) (·.toNat))⟩)
  | _, none => ({ f with parts := [] }, ⟨seq, userData, none, .retry⟩)

/-- The next access of `min_position` and `resolve`. -/
def resolveStep (w : ClientEngine) (r : EgressRecord) (seq : ℕ) : ResolveStage → ClientEngine
  | .minOwner =>
    let s := w.table.slot r.wireSeq
    let here := s.Occupied ∧ (s.owner - 1) % 2 ^ 32 = r.wireSeq
    { w with poll := .resolve r seq (if here then .minValue else .owner 0) }
  | .minValue => { w with poll := .resolve r seq (.owner (w.table.slot r.wireSeq).minPosition) }
  | .owner min =>
    let s := w.table.slot r.wireSeq
    if s.Occupied ∧ (s.owner - 1) % 2 ^ 32 = r.wireSeq then
      { w with
        poll := .resolve r seq (if r.answer.isSome then .kind min s.owner else .expected min s.owner) }
    else { w with poll := .idle }
  | .kind min owner =>
    if r.answer.map (·.2.1) = some (w.table.slot r.wireSeq).kind then
      { w with poll := .resolve r seq (.expected min owner) }
    else { w with poll := .idle }
  | .expected min owner =>
    let expected := (w.table.slot r.wireSeq).expected
    match r.answer with
    | none => { w with poll := .resolve r seq (.userData min owner false) }
    | some (ring, _, _) =>
      let bit := 1 <<< ring
      if expected &&& bit = 0 then { w with poll := .idle }
      else if expected = bit then { w with poll := .resolve r seq (.userData min owner true) }
      else { w with poll := .resolve r seq (.received min owner expected ring) }
  | .received min owner expected ring =>
    let s := w.table.slot r.wireSeq
    let bit := 1 <<< ring
    let prev := s.received
    let w := { w with table := w.table.setSlot r.wireSeq { s with received := prev ||| bit } }
    if prev &&& bit ≠ 0 then { w with poll := .idle }
    else if prev ||| bit ≠ expected then
      let i := w.table.slotIndex r.wireSeq
      let payload := r.answer.elim [] (·.2.2)
      { w with
        fanin := Function.update w.fanin i
          ((w.fanin i).pushPiece (prev = 0) (EgressRecord.position payload) ring (payload.drop 8))
        poll := .idle }
    else { w with poll := .resolve r seq (.userData min owner (prev = 0)) }
  | .userData min owner first =>
    { w with poll := .resolve r seq (.fanIn min owner first (w.table.slot r.wireSeq).userData) }
  | .fanIn min owner first userData =>
    { w with
      poll := .resolve r seq (.exchange min owner first userData (w.table.slot r.wireSeq).fanIn) }
  | .exchange min owner first userData fanIn =>
    if (w.table.slot r.wireSeq).owner = owner then
      { w with
        table := w.table.setOwner r.wireSeq ownerFree
        poll := .resolve r seq (.finish min owner first userData fanIn) }.setLife (owner - 1) .won
    else { w with poll := .idle }
  | .finish min owner first userData fanIn =>
    let i := w.table.slotIndex r.wireSeq
    let done := callback (w.fanin i) r (owner - 1) min first userData fanIn
    { w with
      table := w.table.subInflight
      fanin := Function.update w.fanin i done.1
      poll := .idle
      completions := w.completions ++ [done.2] }.setLife (owner - 1) .done

/-- What a scan calls back with. -/
def scanOutcome (w : ClientEngine) : ScanMode → ClientOutcome
  | .sweep _ => .timedOut
  | .restart current => .instanceRestart w.shared.instanceId current
  | .abort => .aborted

/-- The next access of `sweep` and `drain_abort`. -/
def scanStep (w : ClientEngine) (mode : ScanMode) (i : ℕ) : ScanStage → ClientEngine
  | .owner =>
    if w.table.len ≤ i then { w with poll := if mode matches .restart _ then .clock else .idle }
    else
      let s := w.table.slots i
      if s.Occupied then
        { w with
          poll := .scan mode i (if mode matches .sweep _ then .deadline s.owner else .userData s.owner) }
      else { w with poll := .scan mode (i + 1) .owner }
  | .deadline owner =>
    match mode with
    | .sweep now =>
      if now < (w.table.slots i).deadlineNs then { w with poll := .scan mode (i + 1) .owner }
      else { w with poll := .scan mode i (.userData owner) }
    | _ => { w with poll := .scan mode i (.userData owner) }
  | .userData owner => { w with poll := .scan mode i (.exchange owner (w.table.slots i).userData) }
  | .exchange owner userData =>
    if (w.table.slots i).owner = owner then
      { w with
        table := w.table.setOwner i ownerFree
        poll := .scan mode i (.finish owner userData) }.setLife (owner - 1) .won
    else { w with poll := .scan mode (i + 1) .owner }
  | .finish owner userData =>
    { w with
      table := w.table.subInflight
      poll := .scan mode (i + 1) .owner
      completions := w.completions ++
        [Completion.mk (owner - 1) userData none (w.scanOutcome mode)] }.setLife (owner - 1) .done

/-- `maintenance`, up to its scans. -/
def maintain (w : ClientEngine) (observed : Option ℕ) : ClientEngine :=
  if w.restart.isNone ∧ observed ≠ some w.shared.instanceId then
    { w with restart := some (observed.getD 0), poll := .scan (.restart (observed.getD 0)) 0 .owner }
  else { w with poll := .clock }

/-- The next access of the polling thread; `now` is what the clock says. -/
def pollStep (w : ClientEngine) (now : ℕ) : ClientEngine :=
  match w.poll with
  | .idle => w
  | .resolve r seq stage => w.resolveStep r seq stage
  | .clock => { w with poll := .scan (.sweep now) 0 .owner }
  | .scan mode i stage => w.scanStep mode i stage

/-! ### Runs -/

/-- One access of one thread. -/
inductive EngineStep where
  | enter (t : ℕ) (call : ClientCall) (v : DoorView)
  | sender (t : ℕ) (write : Except RingError Unit)
  | deliver (r : EgressRecord) (seq : ℕ)
  | maintain (observed : Option ℕ)
  | drainAbort
  | poll (now : ℕ)

/-- One step of the engine. -/
def exec (w : ClientEngine) : EngineStep → ClientEngine
  | .enter t call v => w.enter t call v
  | .sender t write => w.senderStep t write
  | .deliver r seq => w.deliver r seq
  | .maintain observed => w.maintain observed
  | .drainAbort => { w with poll := .scan .abort 0 .owner }
  | .poll now => w.pollStep now

/-- A record is late by fewer than 2^32 requests: the one that has the slot is
    nearer than that. -/
def Timely (w : ClientEngine) (seq : ℕ) : Prop :=
  (w.table.slot seq).Occupied →
    (w.table.slot seq).owner ≤ seq + 2 ^ 32 ∧ seq + 1 < (w.table.slot seq).owner + 2 ^ 32

/-- A record of this client is for a request that was written, and comes from one
    of the eight rings or the node's. -/
def Genuine (w : ClientEngine) (r : EgressRecord) (seq : ℕ) : Prop :=
  r.client = w.shared.clientId →
    seq ∈ w.sent ∧ seq % 2 ^ 32 = r.wireSeq ∧ ∀ ring ∈ r.ring, ring < cncMaxServices

instance (w : ClientEngine) (seq : ℕ) : Decidable (w.Timely seq) :=
  inferInstanceAs (Decidable (_ → _))

instance (w : ClientEngine) (r : EgressRecord) (seq : ℕ) : Decidable (w.Genuine r seq) :=
  inferInstanceAs (Decidable (_ → _))

/-- What the poll half works on is not late. -/
def PollTimely (w : ClientEngine) : PollPc → Prop
  | .resolve _ seq _ => w.Timely seq
  | _ => True

instance (w : ClientEngine) : (pc : PollPc) → Decidable (w.PollTimely pc)
  | .resolve _ seq _ => inferInstanceAs (Decidable (w.Timely seq))
  | .idle | .clock | .scan _ _ _ => .isTrue trivial

/-- Which steps there are: a thread makes one call at a time, and the poll half
    does one thing at a time. -/
def Allowed (w : ClientEngine) : EngineStep → Prop
  | .enter t _ _ => t < w.threads ∧ w.senders t = .idle
  | .sender t _ => t < w.threads
  | .deliver r seq => w.poll = .idle ∧ w.Genuine r seq
  | .maintain _ | .drainAbort => w.poll = .idle
  | .poll _ => w.PollTimely w.poll

instance (w : ClientEngine) : (step : EngineStep) → Decidable (w.Allowed step)
  | .enter t _ _ => inferInstanceAs (Decidable (t < w.threads ∧ w.senders t = .idle))
  | .sender t _ => inferInstanceAs (Decidable (t < w.threads))
  | .deliver r seq => inferInstanceAs (Decidable (w.poll = .idle ∧ w.Genuine r seq))
  | .maintain _ | .drainAbort => inferInstanceAs (Decidable (w.poll = .idle))
  | .poll _ => inferInstanceAs (Decidable (w.PollTimely w.poll))

/-- The next number is none of the last two, whose words are `RESERVED` and
    `FREE`. -/
def SeqRoom (w : ClientEngine) (step : EngineStep) : Prop :=
  ∀ t ∈ (match step with | .sender t _ => some t | _ => none),
    (w.senders t matches .counted _) → w.table.nextSeq + 2 < 2 ^ 64

instance (w : ClientEngine) (step : EngineStep) : Decidable (w.SeqRoom step) :=
  inferInstanceAs (Decidable (∀ t ∈ (match step with | .sender t _ => some t | _ => none),
    (w.senders t matches .counted _) → w.table.nextSeq + 2 < 2 ^ 64))

/-- A step of an engine whose numbers are not used up. -/
def Possible (w : ClientEngine) (step : EngineStep) : Prop := w.Allowed step ∧ w.SeqRoom step

instance (w : ClientEngine) (step : EngineStep) : Decidable (w.Possible step) :=
  inferInstanceAs (Decidable (_ ∧ _))

def run (w : ClientEngine) (steps : List EngineStep) : ClientEngine := steps.foldl exec w

def Runs (w : ClientEngine) (steps : List EngineStep) : Prop := Trace.Admits exec Possible w steps

instance (w : ClientEngine) (steps : List EngineStep) : Decidable (w.Runs steps) :=
  inferInstanceAs (Decidable (Trace.Admits exec Possible w steps))

end ClientEngine

end UltimaCluster
