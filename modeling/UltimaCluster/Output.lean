/-
  The outputs of a node's services (`uc_service/src/output.rs`, with
  `service_mins_and_liveness` of `uc_node/src/services.rs` and
  `maybe_persist_output_progress` of `uc_node/src/node.rs`).

  Every attached service has an output agent with a cursor of its own; the node
  takes the least of the slots' `output_completed`, persists it and mirrors it.
  A step is one access to what they share: the page, the disk, the ring, the
  journal and the handler.  The apply agents are the rows of `ServiceApply`; what
  they have published is in the slots.  A restart gives the node a new page and
  leaves the services to go on until they notice.  What the ring and the journal
  hold, the counters and what the handlers answer are choices of the run; a purge
  shows in what a scan finds.

  `handed`, `reign` and `lives` are kept for the statements, and `origin`, where
  the node's log and artifacts started.
-/
import UltimaCluster.ServiceExact
import UltimaCluster.ServiceFleet

namespace UltimaCluster

namespace Output

/-- What `on_committed` answers. -/
inductive Answer where
  | ok
  | permanent
  | retryable
deriving DecidableEq

/-- A walk of the archived journal: the target of the cycle, where it resumes,
    its cursor and the blocks that are left. -/
structure Walk where
  target : ℕ
  resume : ℕ
  cursor : ℕ
  blocks : List Block
deriving DecidableEq

/-- Where a delivery goes on. -/
inductive Source where
  | live (target before : ℕ) (frames : List LogFrame)
  | walk (w : Walk) (bound : ℕ) (frames : List (ℕ × LogFrame))
deriving DecidableEq

/-- The next access of an output agent. -/
inductive AgentPc where
  | top
  /-- The cursor goes to the marker. -/
  | reset
  /-- The loads of the target. -/
  | load
  | turn (target : ℕ)
  | read (target : ℕ)
  | open_ (target : ℕ)
  | batch (target before : ℕ) (frames : List LogFrame)
  /-- The next block, and the target for it. -/
  | block (w : Walk)
  | walk (w : Walk) (bound : ℕ) (frames : List (ℕ × LogFrame))
  /-- `deliver`: the leader check before the handler. -/
  | deliver (x : ℕ × LogFrame) (src : Source)
  | hand (x : ℕ × LogFrame) (src : Source)
  | store (x : ℕ × LogFrame) (src : Source)
deriving DecidableEq

/-- `OutputState`. -/
structure Agent where
  cursor : ℕ
  wasLeader : Bool
  pc : AgentPc
deriving DecidableEq

/-- Where the node is in its duty cycle. -/
inductive DutyPc where
  | idle
  /-- The slots that are left, and the least so far. -/
  | mins (ids : List ℕ) (least : ℕ)
  | persist
  | mirror (completed : ℕ)
deriving DecidableEq

/-- A call of a handler: the incarnation and the leadership in which it was made,
    and the last position that the state machine had applied then. -/
structure Handed where
  service : ℕ
  life : ℕ
  reign : ℕ
  frame : ℕ × LogFrame
  answer : Answer
  lastApplied : Option UInt64
deriving DecidableEq

/-- The output worker and its services. -/
structure OutputNode (σ : Type) where
  /-- The flag of the page. -/
  leader : Bool
  /-- `applied` of the slots. -/
  applied : ℕ → ℕ
  /-- `output_completed` of the slots. -/
  completed : ℕ → ℕ
  /-- The aggregate `output_completed`. -/
  service : ℕ
  /-- `output_progress` of the page. -/
  progress : ℕ
  /-- `output_progress.state`. -/
  disk : ℕ
  /-- `output_persisted_completed`. -/
  persisted : ℕ
  duty : DutyPc
  rows : ℕ → Option (Service.Incarnation σ)
  agents : ℕ → Option Agent
  origin : ℕ
  reign : ℕ
  lives : ℕ → ℕ
  handed : List Handed

/-- What an access of an agent finds. -/
structure AgentEnv where
  counters : Counters
  read : RingRun
  scan : JournalScan
  answer : Answer
deriving DecidableEq

/-! ### Turns of an agent -/

/-- The end of a batch: an empty one ends the cycle. -/
def Agent.endBatch (a : Agent) (target before : ℕ) : Agent :=
  { a with pc := if a.cursor = before then .top else .turn target }

/-- `ReplayOutcome::Cursor`. -/
def Agent.rejoin (a : Agent) (w : Walk) : Agent :=
  { a with cursor := w.cursor, pc := .turn w.target }

/-- A delivery that found the leadership lost. -/
def Agent.abandon (a : Agent) : Source → Agent
  | .live _ _ _ => { a with wasLeader := false, pc := .top }
  | .walk w _ _ => { cursor := w.cursor, wasLeader := false, pc := .top }

/-- The source behind a frame that was delivered. -/
def Source.next (x : ℕ × LogFrame) : Source → AgentPc
  | .live target before frames => .batch target before frames
  | .walk w bound frames => .walk { w with cursor := x.1 + x.2.span } bound frames

namespace OutputNode

variable {σ : Type}

/-- A node whose log and artifacts start at `origin`. -/
def start (origin : ℕ) : OutputNode σ where
  leader := false
  applied _ := 0
  completed _ := 0
  service := 0
  progress := origin
  disk := origin
  persisted := origin
  duty := .idle
  rows _ := none
  agents _ := none
  origin := origin
  reign := 0
  lives _ := 0
  handed := []

/-! ### The output agent -/

/-- `store_output_completed`. -/
def storeOutputCompleted (n : OutputNode σ) (s frameEnd : ℕ) : OutputNode σ :=
  if n.completed s < frameEnd then { n with completed := Function.update n.completed s frameEnd } else n

def setAgent (n : OutputNode σ) (s : ℕ) (a : Agent) : OutputNode σ :=
  { n with agents := Function.update n.agents s (some a) }

/-- The bound up to which outputs are delivered. -/
def target (n : OutputNode σ) (s : ℕ) (c : Counters) : ℕ := min c.head (n.applied s)

/-- The next access of `output_cycle`. -/
def outputCycle (n : OutputNode σ) (s : ℕ) (a : Agent) (env : AgentEnv) : OutputNode σ :=
  match a.pc with
  | .top =>
    if !n.leader then n.setAgent s { a with wasLeader := false }
    else n.setAgent s { a with pc := if a.wasLeader then .load else .reset }
  | .reset => n.setAgent s { cursor := n.progress, wasLeader := true, pc := .load }
  | .load => n.setAgent s { a with pc := .turn (n.target s env.counters) }
  | .turn target => n.setAgent s { a with pc := if n.leader then .read target else .top }
  | .read target =>
    if target ≤ a.cursor then n.setAgent s { a with pc := .top }
    else
      match env.read with
      | .notCommitted => n.setAgent s { a with pc := .top }
      | .overrun => n.setAgent s { a with pc := .open_ target }
      | .run frames => n.setAgent s { a with pc := .batch target a.cursor frames }
  | .open_ target => n.setAgent s { a with pc := .block ⟨target, a.cursor, a.cursor, env.scan.found⟩ }
  | .batch target before [] => n.setAgent s (a.endBatch target before)
  | .batch target before (f :: frames) =>
    if target < a.cursor + f.span then n.setAgent s (a.endBatch target before)
    else
      let past := { a with cursor := a.cursor + f.span }
      if f.frameType = frameTypeMessage then
        n.setAgent s { past with pc := .deliver (a.cursor, f) (.live target before frames) }
      else n.setAgent s { past with pc := .batch target before frames }
  | .block w =>
    match w.blocks with
    | [] => n.setAgent s (a.rejoin w)
    | b :: blocks =>
      n.setAgent s { a with pc := .walk { w with blocks } (n.target s env.counters) b.placed }
  | .walk w _ [] => n.setAgent s { a with pc := .block w }
  | .walk w bound (x :: frames) =>
    if bound < x.1 + x.2.span then n.setAgent s (a.rejoin w)
    else if x.2.frameType = frameTypeMessage ∧ w.resume ≤ x.1 then
      if !n.leader then n.setAgent s (a.abandon (.walk w bound frames))
      else n.setAgent s { a with pc := .deliver x (.walk w bound frames) }
    else n.setAgent s { a with pc := .walk { w with cursor := x.1 + x.2.span } bound frames }
  | .deliver x src =>
    if !n.leader then n.setAgent s (a.abandon src) else n.setAgent s { a with pc := .hand x src }
  | .hand x src =>
    let call : Handed := ⟨s, n.lives s, n.reign, x, env.answer,
      (n.rows s).bind fun i => i.service.machine.lastApplied i.running.row.sm⟩
    { n.setAgent s { a with pc := if env.answer = .retryable then .deliver x src else .store x src } with
      handed := n.handed ++ [call] }
  | .store x src => (n.storeOutputCompleted s (x.1 + x.2.span)).setAgent s { a with pc := src.next x }

/-! ### The node -/

/-- The next access of `service_mins_and_liveness` and of
    `maybe_persist_output_progress`. -/
def dutyCycle (declared : List ℕ) (n : OutputNode σ) (floorElapsed : Bool) : OutputNode σ :=
  match n.duty with
  | .idle => { n with duty := .mins declared (2 ^ 64 - 1) }
  | .mins (id :: ids) least => { n with duty := .mins ids (min least (n.completed id)) }
  | .mins [] least =>
    if declared = [] then { n with duty := .persist } else { n with service := least, duty := .persist }
  | .persist =>
    if n.service ≤ n.persisted ∨ !floorElapsed then { n with duty := .idle }
    else { n with disk := n.service, duty := .mirror n.service }
  | .mirror completed => { n with progress := completed, persisted := completed, duty := .idle }

/-- A new boot: a fresh page, with the marker of the disk. -/
def restart (n : OutputNode σ) : OutputNode σ :=
  { n with
    leader := false, applied := fun _ => 0, completed := fun _ => 0, service := 0
    progress := n.disk, persisted := n.disk, duty := .idle, reign := n.reign + 1 }

/-! ### Runs -/

/-- What happens on the node. -/
inductive OutputStep (σ : Type) where
  | lead (leader : Bool)
  | attach (s : ℕ) (S : Service σ) (env : AttachEnv) (sm₀ : σ) (seen : Counters)
  /-- The process of the service ends. -/
  | detach (s : ℕ)
  | row (s : ℕ) (step : RowStep)
  /-- The apply agent stores `applied`. -/
  | publish (s : ℕ)
  | output (s : ℕ) (env : AgentEnv)
  | duty (floorElapsed : Bool)
  | restart
  /-- A snapshot is installed: the log starts again there. -/
  | install (pos : ℕ)

/-- One step on the node. -/
def exec (declared : List ℕ) (n : OutputNode σ) : OutputStep σ → OutputNode σ
  | .lead leader =>
    { n with leader, reign := if leader && !n.leader then n.reign + 1 else n.reign }
  | .attach s S env sm₀ seen =>
    match S.attach env sm₀ with
    | .error _ => n
    | .ok row =>
      { n with
        rows := Function.update n.rows s (some ⟨S, ⟨row, seen⟩⟩)
        applied := Function.update n.applied s row.applied
        agents := Function.update n.agents s (some ⟨n.progress, false, .top⟩)
        lives := Function.update n.lives s (n.lives s + 1) }
  | .detach s =>
    { n with rows := Function.update n.rows s none, agents := Function.update n.agents s none }
  | .row s step =>
    match n.rows s with
    | none => n
    | some i =>
      let running := i.running.exec i.service step
      { n with rows := Function.update n.rows s (some { i with running }) }
  | .publish s =>
    match n.rows s with
    | none => n
    | some i => { n with applied := Function.update n.applied s i.running.row.applied }
  | .output s env =>
    match n.agents s with
    | none => n
    | some a => n.outputCycle s a env
  | .duty floorElapsed => n.dutyCycle declared floorElapsed
  | .restart => n.restart
  | .install pos => { n with origin := max n.origin pos }

variable (L : CommittedLog) (declared : List ℕ)

/-- What an access can find: the ring holds the log up to the target, the journal up
    to the counters. -/
def Found (a : Agent) (env : AgentEnv) : Prop :=
  match a.pc with
  | .read target =>
    match env.read with
    | .run frames => ∀ x ∈ Tiling.place LogFrame.span a.cursor frames, L.Agrees target x
    | _ => True
  | .open_ _ => ∀ b ∈ env.scan.found, ∀ x ∈ b.placed, L.Agrees env.counters.head x
  | _ => True

/-- A declared row has one process, which starts and reads as `ServiceApply` has it. -/
def Possible (n : OutputNode σ) : OutputStep σ → Prop
  | .attach s S env sm₀ seen =>
    s ∈ declared ∧ n.rows s = none ∧ n.agents s = none ∧ Service.Advances S.machine ∧
      Service.Attachable L (fun pos _ => Service.Whole S L pos) env seen ∧ Service.Resumes S L sm₀ seen
  | .row s step => ∀ i ∈ n.rows s,
      Service.Allowed L (fun pos _ => Service.Whole i.service L pos) i.running.row i.running.seen step
  | .output s env => ∀ a ∈ n.agents s, Found L a env
  | .install pos => L.Edge pos
  | .lead _ | .detach _ | .publish _ | .duty _ | .restart => True

def run (n : OutputNode σ) (sts : List (OutputStep σ)) : OutputNode σ := sts.foldl (exec declared) n

def Runs (n : OutputNode σ) (sts : List (OutputStep σ)) : Prop :=
  Trace.Admits (exec declared) (Possible L declared) n sts

end OutputNode

end Output

end UltimaCluster
