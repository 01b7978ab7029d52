/-
  The SUBMITs of a gateway's connections on their way to the log
  (`uc_gateway/src/edge.rs`, `conn.rs`; `drain_ingress_ring` of
  `uc_node/src/node.rs`).

  A connection's reader takes its SUBMITs one after another through the door, the
  backpressure ladder and the client engine into the node's ingress ring; the
  driver answers completions; the node drains the ring in duty cycles, under the
  role that it has in each.  A step is one access to what the threads share.  The
  credits, the sizes, the clocks, what the engine and the appender say, how much
  of the ring a cycle drains and which role it has are choices of the run; so is
  what `can_serve` reads.  A request that the engine takes is in the ring by one
  step, since a connection's requests are written by one thread.

  SUBMITs are numbered per connection in the order in which they were sent.
  `answers`, `refusals` and `dropped` are kept for the statements, but that a
  completion is of a request that is not answered, and one as not leader of a
  request that the node refused.
-/
import UltimaCluster.Lib.Trace

namespace UltimaCluster

namespace Gateway

/-- What a SUBMIT was answered. -/
inductive Verdict where
  | tooLarge
  /-- `REDIRECT`, or `RETRY` as not serving. -/
  | redirected
  /-- `RETRY` as service unavailable. -/
  | unavailable
  | unknown
  | response
deriving DecidableEq

/-- Where a connection's reader is with its SUBMIT: its next access. -/
inductive ReaderPc where
  | reading
  /-- The latch at the door. -/
  | door (k : ℕ)
  | canServe (k : ℕ)
  | latch (k : ℕ)
  /-- `ladder_step`. -/
  | ladder (k : ℕ)
  /-- `try_submit`. -/
  | submit (k : ℕ)
  /-- The connection has ended. -/
  | gone
deriving DecidableEq

/-- One connection. -/
structure Conn where
  reader : ReaderPc
  /-- How many SUBMITs the reader has taken. -/
  next : ℕ
  notServing : Bool
  answers : ℕ → Option Verdict

/-- Where the node is in its duty cycle. -/
inductive NodePc where
  | idle
  /-- The record that was held back comes first. -/
  | retry
  | drain (serving : Bool)
deriving DecidableEq

/-- What the appender says. -/
inductive AppendResult where
  | ok
  | wouldOverrun
  | payloadTooLarge
deriving DecidableEq

/-- What `try_submit` says. -/
inductive SubmitResult where
  | ok
  | backpressure
  | notServing
  | payloadTooLarge
  /-- A ring error, or a node that is to be upgraded. -/
  | unavailable
  | instanceRestart
deriving DecidableEq

/-- A SUBMIT of a connection. -/
structure Submit where
  conn : ℕ
  k : ℕ
deriving DecidableEq

/-- The connections, the ring and the node. -/
structure Pipeline where
  conns : ℕ → Conn
  /-- The ingress ring. -/
  ring : List Submit
  node : NodePc
  /-- `pending_ring_ingress`. -/
  held : Option Submit
  /-- The client frames that were appended, in order. -/
  log : List Submit
  /-- The records that were answered `NOT_LEADER`. -/
  refusals : List Submit
  /-- The records that the appender dropped for their size. -/
  dropped : List Submit

namespace Pipeline

def start : Pipeline where
  conns _ := ⟨.reading, 0, false, fun _ => none⟩
  ring := []
  node := .idle
  held := none
  log := []
  refusals := []
  dropped := []

variable {p : Pipeline}

def setConn (p : Pipeline) (c : ℕ) (conn : Conn) : Pipeline :=
  { p with conns := Function.update p.conns c conn }

def Conn.answer (conn : Conn) (k : ℕ) (v : Verdict) : Conn :=
  { conn with answers := Function.update conn.answers k (some v) }

/-! ### The edge -/

/-- What `ladder_step` reads besides the latch: the connection is closed or the
    edge stops, or the request's budget is spent. -/
inductive LadderChoice where
  | go
  | gone
  | outOfBudget
deriving DecidableEq

/-- The choices that a reader's access meets. -/
structure ReaderChoice where
  canServe : Bool
  ladder : LadderChoice
  submit : SubmitResult
deriving DecidableEq

/-- The next access of `dispatch`. -/
def dispatch (p : Pipeline) (c : ℕ) (ch : ReaderChoice) : Pipeline :=
  let conn := p.conns c
  match conn.reader with
  | .reading | .gone => p
  | .door k => p.setConn c { conn with reader := if conn.notServing then .latch k else .canServe k }
  | .canServe k => p.setConn c { conn with reader := if ch.canServe then .ladder k else .latch k }
  | .latch k =>
    p.setConn c (Conn.answer { conn with reader := .reading, notServing := true } k .redirected)
  | .ladder k =>
    if ch.ladder = .gone then p.setConn c { conn with reader := .gone }
    else if conn.notServing then
      p.setConn c (Conn.answer { conn with reader := .reading } k .redirected)
    else if ch.ladder = .outOfBudget then
      p.setConn c (Conn.answer { conn with reader := .reading } k .unavailable)
    else p.setConn c { conn with reader := .submit k }
  | .submit k =>
    match ch.submit with
    | .ok => { p.setConn c { conn with reader := .reading } with ring := p.ring ++ [⟨c, k⟩] }
    | .backpressure => p.setConn c { conn with reader := .ladder k }
    | .notServing => p.setConn c { conn with reader := .latch k }
    | .payloadTooLarge => p.setConn c (Conn.answer { conn with reader := .reading } k .tooLarge)
    | .unavailable => p.setConn c (Conn.answer { conn with reader := .reading } k .unavailable)
    | .instanceRestart => p.setConn c { conn with reader := .gone }

/-- What a request is completed with. -/
inductive Completion where
  | response
  | notLeader
  | retry
  | timedOut
deriving DecidableEq

/-- `complete`. -/
def complete (p : Pipeline) (c k : ℕ) : Completion → Pipeline
  | .response => p.setConn c (Conn.answer (p.conns c) k .response)
  | .notLeader => p.setConn c (Conn.answer { p.conns c with notServing := true } k .redirected)
  | .retry => p.setConn c (Conn.answer (p.conns c) k .unavailable)
  | .timedOut => p.setConn c (Conn.answer (p.conns c) k .unknown)

/-! ### The node -/

/-- The next access of `drain_ingress_ring`. -/
def drainIngressRing (p : Pipeline) (res : AppendResult) : Pipeline :=
  match p.node, p.held, p.ring with
  | .idle, _, _ => p
  | .retry, none, _ => { p with node := .drain true }
  | .retry, some s, _ =>
    match res with
    | .ok => { p with held := none, log := p.log ++ [s], node := .drain true }
    | .payloadTooLarge => { p with held := none, dropped := p.dropped ++ [s], node := .drain true }
    | .wouldOverrun => { p with node := .idle }
  | .drain _, _, [] => { p with node := .idle }
  | .drain true, _, s :: ring =>
    match res with
    | .ok => { p with ring, log := p.log ++ [s] }
    | .payloadTooLarge => { p with ring, dropped := p.dropped ++ [s] }
    | .wouldOverrun => { p with ring, held := some s, node := .idle }
  | .drain false, _, s :: ring => { p with ring, refusals := p.refusals ++ [s] }

/-! ### Runs -/

/-- A step of a reader, the pump or the node. -/
inductive PipelineStep where
  /-- The reader takes the next SUBMIT. -/
  | frame (c : ℕ) (fits : Bool)
  | dispatch (c : ℕ) (ch : ReaderChoice)
  /-- The socket fails between two frames. -/
  | hangUp (c : ℕ)
  | complete (c k : ℕ) (out : Completion)
  /-- A duty cycle comes to the ring. -/
  | cycle (serving : Bool)
  | drain (res : AppendResult)
  /-- The budget is spent, or the door is closed. -/
  | stop
deriving DecidableEq

/-- The request was handed to the engine and is not answered. -/
def InFlight (p : Pipeline) (s : Submit) : Prop :=
  (s ∈ p.ring ∨ p.held = some s ∨ s ∈ p.log ∨ s ∈ p.refusals ∨ s ∈ p.dropped) ∧
    (p.conns s.conn).answers s.k = none

instance (s : Submit) : Decidable (p.InFlight s) := inferInstanceAs (Decidable (_ ∧ _))

/-- What the threads can do. -/
def Possible (p : Pipeline) : PipelineStep → Prop
  | .frame c _ | .hangUp c => (p.conns c).reader = .reading
  | .complete c k .response => p.InFlight ⟨c, k⟩ ∧ ⟨c, k⟩ ∈ p.log
  | .complete c k .notLeader => p.InFlight ⟨c, k⟩ ∧ ⟨c, k⟩ ∈ p.refusals
  | .complete c k _ => p.InFlight ⟨c, k⟩
  | .cycle _ => p.node = .idle
  | .dispatch _ _ | .drain _ | .stop => True

instance (p : Pipeline) : (st : PipelineStep) → Decidable (p.Possible st)
  | .frame _ _ => inferInstanceAs (Decidable (_ = _))
  | .hangUp _ => inferInstanceAs (Decidable (_ = _))
  | .complete _ _ .response => inferInstanceAs (Decidable (_ ∧ _))
  | .complete _ _ .notLeader => inferInstanceAs (Decidable (_ ∧ _))
  | .complete c k .retry => inferInstanceAs (Decidable (p.InFlight ⟨c, k⟩))
  | .complete c k .timedOut => inferInstanceAs (Decidable (p.InFlight ⟨c, k⟩))
  | .cycle _ => inferInstanceAs (Decidable (_ = _))
  | .dispatch _ _ | .drain _ | .stop => .isTrue trivial

/-- One step of the pipeline. -/
def step (p : Pipeline) : PipelineStep → Pipeline
  | .frame c fits =>
    let conn := p.conns c
    if fits then p.setConn c { conn with next := conn.next + 1, reader := .door conn.next }
    else p.setConn c (Conn.answer { conn with next := conn.next + 1 } conn.next .tooLarge)
  | .dispatch c ch => p.dispatch c ch
  | .hangUp c => p.setConn c { p.conns c with reader := .gone }
  | .complete c k out => p.complete c k out
  | .cycle serving => { p with node := if serving ∧ p.held.isSome then .retry else .drain serving }
  | .drain res => p.drainIngressRing res
  | .stop => { p with node := .idle }

def run (p : Pipeline) (sts : List PipelineStep) : Pipeline := sts.foldl step p

def Runs (p : Pipeline) (sts : List PipelineStep) : Prop := Trace.Admits step Possible p sts

instance (p : Pipeline) (sts : List PipelineStep) : Decidable (p.Runs sts) :=
  inferInstanceAs (Decidable (Trace.Admits step Possible p sts))

end Pipeline

end Gateway

end UltimaCluster
