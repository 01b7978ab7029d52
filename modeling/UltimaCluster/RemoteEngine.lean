/-
  The completions of the remote client (`uc_remote/src/engine.rs`, `link.rs`,
  `slots.rs`): a request is claimed in its slot, the slot is taken by an answer, a
  sweep or an abort pass, and the one that took it pushes the completion.

  A step is one access to what the threads share.  The window, the ring, the
  clock and what the edges answer are choices of the run; an answer names a
  request whose frame was committed.  The producer of completions is the reader
  until its thread ends, and then whoever closes: `close` joins the reader and
  holds the lock of the threads over its pass, so there is one at a time.  The
  writer takes no slot; how it sends is in `RemoteLink`.  Callbacks return.

  `calls`, `accepted`, `refused`, `sends`, `received` and `dropped` are kept for
  the statements and read by no step.
-/
import UltimaCluster.RemoteLink
import UltimaCluster.RemoteQueue

namespace UltimaCluster

namespace Remote

/-- The sizes of the engine. -/
structure EngineConfig where
  firstSeq : ℕ
  /-- The number of slots. -/
  slots : ℕ
  queue : QueueSize
  slots_pos : 0 < slots

/-- A call of `try_submit` or `try_query`, with its deadline. -/
structure Call where
  /-- Which call it is. -/
  id : ℕ
  userData : ℕ
  kind : RequestType
  deadlineNs : ℕ
  minPosition : ℕ
deriving DecidableEq

/-- A `RESPONSE` frame. -/
structure Response where
  seq : ℕ
  position : ℕ
  replayed : Bool
  expired : Bool
  body : Bytes
deriving DecidableEq

/-- A frame that resolves a request: a response, or a terminal `RETRY` or
    `UNKNOWN`. -/
inductive Answer where
  | response (r : Response)
  | refusal (seq : ℕ) (tag : OutcomeTag)
deriving DecidableEq

namespace Answer

def seq : Answer → ℕ
  | .response r => r.seq
  | .refusal seq _ => seq

def body : Answer → Bytes
  | .response r => r.body
  | .refusal _ _ => []

/-- The record that completes the request. -/
def record (userData : ℕ) : Answer → Record
  | .response r =>
    { Record.simple r.seq userData .response with
      position := r.position, hasPosition := true, replayed := r.replayed, expired := r.expired }
  | .refusal seq tag => Record.simple seq userData tag

/-- A `RETRY` or an `UNKNOWN` completes with its own tag. -/
def Terminal : Answer → Prop
  | .response _ => True
  | .refusal _ tag => tag = .payloadTooLarge ∨ tag = .unknown

instance : (a : Answer) → Decidable a.Terminal
  | .response _ => .isTrue trivial
  | .refusal _ _ => inferInstanceAs (Decidable (_ ∨ _))

end Answer

/-! ## Threads -/

/-- Where the submitting thread is: its next access. -/
inductive ClaimPc where
  | idle
  /-- The size and the window. -/
  | admission (c : Call)
  | isFree (c : Call)
  | stage (c : Call)
  /-- `claim_inner`. -/
  | count (c : Call)
  | reserve (c : Call)
  | userData (c : Call)
  | deadline (c : Call)
  | kind (c : Call)
  | minPosition (c : Call)
  | publish (c : Call)
  | nextSeq (c : Call)
  | commit (c : Call)
deriving DecidableEq

/-- Where `take` is. -/
inductive TakeStage where
  | owner
  | userData
  | exchange (userData : ℕ)
deriving DecidableEq

/-- `sweep`, or `drain_abort`. -/
inductive PassMode where
  | sweep (now : ℕ)
  | abort
deriving DecidableEq

def PassMode.tag : PassMode → OutcomeTag
  | .sweep _ => .timedOut
  | .abort => .closed

/-- Where a pass is at a slot. -/
inductive PassStage where
  | owner
  | deadline (seq : ℕ)
  | userData (seq : ℕ)
  | exchange (seq userData : ℕ)
deriving DecidableEq

/-- Where the producer of completions is: its next access. -/
inductive ProducerPc where
  /-- The reader, between two frames. -/
  | reading
  /-- `kind_and_min_position`. -/
  | kindOwner (r : Response)
  | kindWord (r : Response)
  | minWord (r : Response) (kind : RequestType)
  | take (a : Answer) (stage : TakeStage)
  /-- A pass over the slots, and what it took: the requests and their user
      data. -/
  | pass (mode : PassMode) (i : ℕ) (stage : PassStage) (fired : List (ℕ × ℕ))
  /-- `complete`: the first or the second `push`, the records that come after,
      and whether the thread ends then. -/
  | push (r : Record) (body : Bytes) (stage : PushStage) (again : Bool) (rest : List Record)
      (exits : Bool)
  /-- `complete` loads `closed`; `full` tells whether the link was closed when
      `push` refused. -/
  | check (r : Record) (body : Bytes) (rest : List Record) (exits full : Bool)
  /-- The reader's thread has ended, and nobody closes. -/
  | exited
deriving DecidableEq

/-- A completion that is given up; `full` when the link was closed while the
    queue had no room for it. -/
structure Drop where
  seq : ℕ
  full : Bool
deriving DecidableEq

/-- The engine with its threads. -/
structure RemoteEngine where
  owner : ℕ → Owner
  userData : ℕ → ℕ
  deadlineNs : ℕ → ℕ
  kind : ℕ → RequestType
  minPosition : ℕ → ℕ
  closed : Bool
  queue : CompletionQueue
  sub : ClaimPc
  /-- The submitter's cursor. -/
  seqNext : ℕ
  prod : ProducerPc
  /-- The calls whose slot was published, by sequence number. -/
  calls : List Call
  /-- How many of them returned `Ok`. -/
  accepted : ℕ
  /-- The calls that returned an error. -/
  refused : List ℕ
  /-- How many calls were made. -/
  sends : ℕ
  /-- The responses that the reader received. -/
  received : List Response
  dropped : List Drop

namespace RemoteEngine

variable {cfg : EngineConfig}

def start (cfg : EngineConfig) : RemoteEngine where
  owner _ := .free
  userData _ := 0
  deadlineNs _ := 0
  kind _ := .submit
  minPosition _ := 0
  closed := false
  queue := .new
  sub := .idle
  seqNext := cfg.firstSeq
  prod := .reading
  calls := []
  accepted := 0
  refused := []
  sends := 0
  received := []
  dropped := []

/-- The index of a sequence number. -/
def slot (cfg : EngineConfig) (seq : ℕ) : ℕ := seq % cfg.slots

/-- `is_live`. -/
def Live (cfg : EngineConfig) (n : RemoteEngine) (seq : ℕ) : Prop := n.owner (slot cfg seq) = .seq seq

instance (n : RemoteEngine) (seq : ℕ) : Decidable (n.Live cfg seq) :=
  inferInstanceAs (Decidable (_ = _))

/-! ### The submitter -/

/-- `send` returns an error. -/
def refuse (n : RemoteEngine) (c : Call) : RemoteEngine :=
  { n with sub := .idle, refused := n.refused ++ [c.id] }

/-- The next access of `send`; `ok` is what the window or the ring says, where it
    is asked. -/
def submitter (cfg : EngineConfig) (n : RemoteEngine) (ok : Bool) : RemoteEngine :=
  let i := slot cfg n.seqNext
  match n.sub with
  | .idle => n
  | .admission c => if ok then { n with sub := .isFree c } else n.refuse c
  | .isFree c => if n.owner i = .free then { n with sub := .stage c } else n.refuse c
  | .stage c => if ok then { n with sub := .count c } else n.refuse c
  | .count c => if ok then { n with sub := .reserve c } else n.refuse c
  | .reserve c =>
    if n.owner i = .free then
      { n with owner := Function.update n.owner i .reserved, sub := .userData c }
    else n.refuse c
  | .userData c =>
    { n with userData := Function.update n.userData i c.userData, sub := .deadline c }
  | .deadline c =>
    { n with deadlineNs := Function.update n.deadlineNs i c.deadlineNs, sub := .kind c }
  | .kind c => { n with kind := Function.update n.kind i c.kind, sub := .minPosition c }
  | .minPosition c =>
    { n with minPosition := Function.update n.minPosition i c.minPosition, sub := .publish c }
  | .publish c =>
    { n with
      owner := Function.update n.owner i (.seq n.seqNext)
      sub := .nextSeq c
      calls := n.calls ++ [c] }
  | .nextSeq c => { n with seqNext := n.seqNext + 1, sub := .commit c }
  | .commit _ => { n with sub := .idle, accepted := n.accepted + 1 }

/-! ### The producer -/

/-- The records of a pass, or of an answer, are pushed one after another. -/
def settle (exits : Bool) : List Record → ProducerPc
  | [] => if exits then .exited else .reading
  | r :: rest => .push r [] .tail false rest exits

/-- The slot is taken. -/
def free (n : RemoteEngine) (i : ℕ) : RemoteEngine :=
  { n with owner := Function.update n.owner i .free }

/-- The next access of a pass. -/
def passStep (cfg : EngineConfig) (n : RemoteEngine) (mode : PassMode) (i : ℕ)
    (fired : List (ℕ × ℕ)) : PassStage → RemoteEngine
  | .owner =>
    if i < cfg.slots then
      match n.owner i with
      | .seq s =>
        match mode with
        | .sweep _ => { n with prod := .pass mode i (.deadline s) fired }
        | .abort => { n with prod := .pass mode i (.userData s) fired }
      | .free | .reserved => { n with prod := .pass mode (i + 1) .owner fired }
    else
      { n with
        prod := settle (mode = .abort) (fired.map fun f => Record.simple f.1 f.2 mode.tag) }
  | .deadline s =>
    match mode with
    | .sweep now =>
      if now < n.deadlineNs i then { n with prod := .pass mode (i + 1) .owner fired }
      else { n with prod := .pass mode i (.userData s) fired }
    | .abort => { n with prod := .pass mode i (.userData s) fired }
  | .userData s => { n with prod := .pass mode i (.exchange s (n.userData i)) fired }
  | .exchange s ud =>
    if n.owner i = .seq s then
      { n.free i with prod := .pass mode (i + 1) .owner (fired ++ [(s, ud)]) }
    else { n with prod := .pass mode (i + 1) .owner fired }

/-- The next access of the producer. -/
def producer (cfg : EngineConfig) (n : RemoteEngine) : RemoteEngine :=
  match n.prod with
  | .reading | .exited => n
  | .kindOwner r =>
    if n.Live cfg r.seq then { n with prod := .kindWord r }
    else { n with prod := .take (.response r) .owner }
  | .kindWord r => { n with prod := .minWord r (n.kind (slot cfg r.seq)) }
  | .minWord r kind =>
    -- The answer is from state older than the token: it resolves nothing.
    if kind = .query ∧ r.expired = false ∧ r.position < n.minPosition (slot cfg r.seq) then
      { n with prod := .reading }
    else { n with prod := .take (.response r) .owner }
  | .take a .owner =>
    if n.Live cfg a.seq then { n with prod := .take a .userData } else { n with prod := .reading }
  | .take a .userData => { n with prod := .take a (.exchange (n.userData (slot cfg a.seq))) }
  | .take a (.exchange ud) =>
    if n.Live cfg a.seq then
      { n.free (slot cfg a.seq) with prod := .push (a.record ud) a.body .tail false [] false }
    else { n with prod := .reading }
  | .pass mode i stage fired => n.passStep cfg mode i fired stage
  | .push r body stage again rest exits =>
    let (queue, next) := n.queue.push cfg.queue r body stage
    match next with
    | .stage s => { n with queue, prod := .push r body s again rest exits }
    | .done => { n with queue, prod := settle exits rest }
    | .refused =>
      if again then { n with queue, prod := .check r body rest exits n.closed }
      else { n with queue, prod := .push r body .tail true rest exits }
  | .check r body rest exits full =>
    if n.closed then
      { n with
        dropped := n.dropped ++ [⟨r.seq, full || !decide (n.queue.Room cfg.queue body)⟩]
        prod := settle exits rest }
    else { n with prod := .push r body .tail false rest exits }

/-! ### Runs -/

/-- One access of one thread. -/
inductive EngineStep where
  /-- `try_submit` or `try_query`: the closed flag is loaded. -/
  | send (userData : ℕ) (kind : RequestType) (deadlineNs minPosition : ℕ)
  | submitter (ok : Bool)
  /-- The reader finds an answer. -/
  | frame (a : Answer)
  /-- The reader's tick. -/
  | sweep (now : ℕ)
  /-- The reader sees the link closed and leaves its loop. -/
  | exit
  /-- `close` has joined the threads. -/
  | closer
  | producer
  /-- The flag is set, by any thread. -/
  | close
  | poll (max : ℕ)
  | poller
deriving DecidableEq

/-- The request was accepted. -/
def Accepted (cfg : EngineConfig) (n : RemoteEngine) (seq : ℕ) : Prop :=
  cfg.firstSeq ≤ seq ∧ seq < cfg.firstSeq + n.accepted

instance (n : RemoteEngine) (seq : ℕ) : Decidable (n.Accepted cfg seq) :=
  inferInstanceAs (Decidable (_ ∧ _))

/-- What the threads can do. -/
def Possible (cfg : EngineConfig) (n : RemoteEngine) : EngineStep → Prop
  | .send _ _ _ _ => n.sub = .idle
  | .frame a => n.prod = .reading ∧ n.Accepted cfg a.seq ∧ a.Terminal
  | .sweep _ => n.prod = .reading
  | .exit => n.prod = .reading ∧ n.closed = true
  | .closer => n.prod = .exited ∧ n.closed = true
  | .poll _ => n.queue.drain = .idle
  | .submitter _ | .producer | .close | .poller => True

instance (n : RemoteEngine) : (st : EngineStep) → Decidable (n.Possible cfg st)
  | .send _ _ _ _ => inferInstanceAs (Decidable (_ = _))
  | .frame _ => inferInstanceAs (Decidable (_ ∧ _))
  | .sweep _ => inferInstanceAs (Decidable (_ = _))
  | .exit => inferInstanceAs (Decidable (_ ∧ _))
  | .closer => inferInstanceAs (Decidable (_ ∧ _))
  | .poll _ => inferInstanceAs (Decidable (_ = _))
  | .submitter _ | .producer | .close | .poller => .isTrue trivial

/-- One access of a thread. -/
def step (cfg : EngineConfig) (n : RemoteEngine) : EngineStep → RemoteEngine
  | .send userData kind deadlineNs minPosition =>
    let c : Call := ⟨n.sends, userData, kind, deadlineNs, minPosition⟩
    let n := { n with sends := n.sends + 1 }
    if n.closed then n.refuse c else { n with sub := .admission c }
  | .submitter ok => n.submitter cfg ok
  | .frame (.response r) => { n with prod := .kindOwner r, received := n.received ++ [r] }
  | .frame a => { n with prod := .take a .owner }
  | .sweep now => { n with prod := .pass (.sweep now) 0 .owner [] }
  | .exit | .closer => { n with prod := .pass .abort 0 .owner [] }
  | .producer => n.producer cfg
  | .close => { n with closed := true }
  | .poll max => { n with queue := { n.queue with drain := .head max } }
  | .poller => { n with queue := n.queue.drainStep cfg.queue }

def run (cfg : EngineConfig) (n : RemoteEngine) (sts : List EngineStep) : RemoteEngine :=
  sts.foldl (step cfg) n

def Runs (cfg : EngineConfig) (n : RemoteEngine) (sts : List EngineStep) : Prop :=
  Trace.Admits (step cfg) (Possible cfg) n sts

instance (n : RemoteEngine) (sts : List EngineStep) : Decidable (Runs cfg n sts) :=
  inferInstanceAs (Decidable (Trace.Admits (step cfg) (Possible cfg) n sts))

end RemoteEngine

end Remote

end UltimaCluster
