/-
  The cluster agent (`uc_node/src/cluster_agent.rs`): it walks the committed log, feeds
  the cluster FSM its `CLUSTER` and `SNAPSHOT` frames, writes an artifact at a snapshot
  instant, and publishes the words of the rows before the positions they stand for.

  The committed log is one for all nodes.  What the ring and the journal hold decides
  how a pass goes on: a batch of some frames, or an overrun and what is replayed of the
  journal; both read the log as it is (`LogFollower`, `ArchiveRefines`).  A check of the
  wire level may stop the agent at any frame, so a node may die in the middle of a pass.
  Log lines, hashes and gauges are left out.
-/
import UltimaCluster.ImageRoundTrip
import UltimaCluster.RowHistory

namespace UltimaCluster

/-- A store of the agent to the words that others read. -/
inductive PageWrite where
  | rows (words : Row → RowRead)
  | clusterApplied (p : ℕ)
  | consumed (p : ℕ)

/-- What `publish_view` stores for a row. -/
def ClusterState.rowWords (s : ClusterState) (row : Row) : RowRead :=
  .view ((s.pinFor row).map fun p => (p.origin, p.from_, p.to_)) ((s.runningFor row).map RowRunning.version)
    ((s.runningFor row).elim 0 RowRunning.recordPos)

/-- The agent of one node, with its disk. -/
structure ClusterAgent where
  fsm : ClusterState
  cursor : ℕ
  snapshotPos : ℕ
  up : Bool
  /-- `snapshots/cluster`, by position. -/
  disk : List (ℕ × Bytes)
  /-- The stores since it started. -/
  page : List PageWrite
  /-- Where the image stands that it started from or installed, and the frames it fed
      to the FSM since. -/
  base : ℕ
  fed : List Frame
  /-- Every artifact it ever wrote. -/
  wrote : List (ℕ × Bytes)

/-- How the ring answers: a batch of so many frames at most, or an overrun, where the
    journal is retained from a position on. -/
inductive RingBatch where
  | frames (n : ℕ)
  | overrun (floor : ℕ)
deriving DecidableEq

/-- What a pass finds. -/
structure AgentPass where
  /-- The artifacts announced by the receiver. -/
  installs : List ℕ
  /-- The lower of the commit and the durable counter. -/
  head : ℕ
  learner : Bool
  /-- Where an artifact can be written. -/
  writable : ℕ → Bool
  batches : List RingBatch

namespace ClusterAgent

variable (crc : Bytes → UInt32) (L : CommittedLog)

def publishView (a : ClusterAgent) : ClusterAgent := { a with page := a.page ++ [.rows a.fsm.rowWords] }

def storeClusterApplied (a : ClusterAgent) : ClusterAgent :=
  { a with page := a.page ++ [.clusterApplied a.fsm.applied] }

def noteConsumed (a : ClusterAgent) : ClusterAgent := { a with page := a.page ++ [.consumed a.fsm.applied] }

/-- The newest artifact of a directory. -/
def newest (disk : List (ℕ × Bytes)) : Option (ℕ × Bytes) :=
  disk.foldl (fun best x => if best.all (·.1 < x.1) then some x else best) none

/-- `recover` and `new`; an artifact that cannot be read stops the start. -/
def boot (a : ClusterAgent) (membership : ClusterConfig) (settings : Settings) : ClusterAgent :=
  let start (fsm : ClusterState) (pos : ℕ) : ClusterAgent :=
    let a := { a with fsm, cursor := pos, snapshotPos := pos, up := true, page := [], base := pos, fed := [] }
    a.publishView.storeClusterApplied
  match newest a.disk with
  | none => start (.genesis membership settings) 0
  | some (pos, img) =>
    match readImage crc pos img with
    | .error _ => { a with up := false }
    | .ok fsm => start fsm fsm.applied

/-- An artifact above what is applied. -/
def installFrom (a : ClusterAgent) (position : ℕ) : ClusterAgent :=
  if position ≤ a.fsm.applied then a
  else
    match a.disk.find? (·.1 = position) with
    | none => { a with up := false }
    | some (_, img) =>
      match readImage crc position img with
      | .error _ => { a with up := false }
      | .ok fsm =>
        let a := { a with fsm }.publishView.storeClusterApplied
        { a with snapshotPos := fsm.applied, cursor := fsm.applied, base := fsm.applied, fed := [] }

/-- The FSM is given a frame; a frame of another type is passed over. -/
def feed (a : ClusterAgent) (x : ℕ × LogFrame) : ClusterAgent :=
  match clusterFrame x with
  | none => a
  | some f => { a with fsm := a.fsm.walk f, fed := a.fed ++ [f] }

/-- The artifact of an instant. -/
def freezeAndWrite (a : ClusterAgent) (writable : ℕ → Bool) : ClusterAgent :=
  match a.fsm.freeze crc with
  | .error _ => a
  | .ok (img, pos) =>
    if writable pos then
      { a with
        disk := (pos, img) :: a.disk.filter (·.1 ≠ pos)
        snapshotPos := pos
        wrote := a.wrote ++ [(pos, img)] }
    else a

/-- A frame, and whether it is the instant of an artifact. -/
def act (writable : ℕ → Bool) (a : ClusterAgent) (x : ℕ × LogFrame) (freeze : Bool) : ClusterAgent :=
  let a := a.feed x
  if freeze then { a with fsm := a.fsm.setConsumed (x.1 + x.2.span) }.freezeAndWrite crc writable else a

/-- An instant that this node freezes at: a standby one is a learner's work. -/
def actionable (learner : Bool) (x : ℕ × LogFrame) : Bool :=
  x.2.frameType == frameTypeSnapshot && !(x.2.hasFlag flagSnapshotStandby && !learner)

/-- The frames from the cursor up to the head. -/
def ahead (a : ClusterAgent) (head : ℕ) : List (ℕ × LogFrame) :=
  L.placed.filter fun x => a.cursor ≤ x.1 && x.1 + x.2.span ≤ head

/-- Frames, each with its part in the pass. -/
def walkFrames (writable : ℕ → Bool) (a : ClusterAgent) (xs : List ((ℕ × LogFrame) × Bool)) : ClusterAgent :=
  xs.foldl (fun a x => a.act crc writable x.1 x.2) a

/-- The cursor after frames. -/
def cursorAfter (cursor : ℕ) (xs : List (ℕ × LogFrame)) : ℕ :=
  (xs.getLast?.map fun x => x.1 + x.2.span).getD cursor

/-- The frames of a batch of the ring. -/
def liveFrames (a : ClusterAgent) (p : AgentPass) (n : ℕ) : List ((ℕ × LogFrame) × Bool) :=
  ((a.ahead L p.head).take n).map fun x => (x, actionable p.learner x)

/-- The start of the last instant that a replay should freeze at. -/
def lastActionableInstant (a : ClusterAgent) (p : AgentPass) (xs : List (ℕ × LogFrame)) : Option ℕ :=
  (xs.filter fun x => actionable p.learner x && a.snapshotPos < x.1 + x.2.span).getLast?.map Prod.fst

/-- The frames of a replay of the journal. -/
def replayFrames (a : ClusterAgent) (p : AgentPass) : List ((ℕ × LogFrame) × Bool) :=
  let xs := (a.ahead L p.head).filter fun x => x.2.frameType ≠ frameTypePadding
  let freezeAt := a.lastActionableInstant p xs
  xs.map fun x => (x, some x.1 == freezeAt)

/-- The frames that come next; none where the journal begins above the cursor. -/
def framesOf (a : ClusterAgent) (p : AgentPass) : RingBatch → List ((ℕ × LogFrame) × Bool)
  | .frames n => a.liveFrames L p n
  | .overrun floor => if floor ≤ a.cursor then a.replayFrames L p else []

/-- Whether the FSM was given any of them. -/
def appliedAny (xs : List ((ℕ × LogFrame) × Bool)) : Bool := xs.any fun x => (clusterFrame x.1).isSome

/-- The frames of one batch. -/
def walkBatch (a : ClusterAgent) (p : AgentPass) (b : RingBatch) : ClusterAgent :=
  let xs := a.framesOf L p b
  { a.walkFrames crc p.writable xs with cursor := cursorAfter a.cursor (xs.map Prod.fst) }

/-- The loop of `do_work`, with whether a frame was applied. -/
def walkLoop (p : AgentPass) : List RingBatch → ClusterAgent → ClusterAgent × Bool
  | [], a => (a, false)
  | .overrun floor :: _, a =>
    (a.walkBatch crc L p (.overrun floor), appliedAny (a.framesOf L p (.overrun floor)))
  | .frames n :: rest, a =>
    if p.head ≤ a.cursor then (a, false)
    else
      let b := a.walkBatch crc L p (.frames n)
      let applied := appliedAny (a.framesOf L p (.frames n))
      -- no progress: the head is inside a frame
      if b.cursor = a.cursor then (b, applied)
      else
        let (c, more) := walkLoop p rest b
        (c, applied || more)

def doWork (a : ClusterAgent) (p : AgentPass) : ClusterAgent :=
  let a := p.installs.foldl (installFrom crc) a
  if !a.up then a
  else
    let (a, applied) := walkLoop crc L p p.batches a
    let a := { a with fsm := a.fsm.setConsumed a.cursor }
    (if applied then a.publishView.storeClusterApplied else a).noteConsumed

/-- A pass that ends after some frames of a batch. -/
def die (a : ClusterAgent) (p : AgentPass) (last : RingBatch) (k : ℕ) : ClusterAgent :=
  let a := p.installs.foldl (installFrom crc) a
  if !a.up then a
  else
    let a := (walkLoop crc L p p.batches a).1
    { a.walkFrames crc p.writable ((a.framesOf L p last).take k) with up := false }

end ClusterAgent

/-- What happens to the agents. -/
inductive ClusterAgentStep where
  | boot (n : ℕ) (membership : ClusterConfig) (settings : Settings)
  | doWork (n : ℕ) (p : AgentPass)
  | die (n : ℕ) (p : AgentPass) (last : RingBatch) (k : ℕ)
  /-- The artifact of a snapshot session. -/
  | receive (n : ℕ) (position : ℕ) (img : Bytes)
  /-- Retention, in the directory of a node. -/
  | prune (n : ℕ) (keep : ℕ → Bool)

/-- The agents of the nodes. -/
structure AgentWorld where
  agents : ℕ → ClusterAgent

namespace AgentWorld

variable (crc : Bytes → UInt32) (L : CommittedLog)

/-- No node has started, and none has an artifact. -/
def fresh (s : ClusterState) : AgentWorld := ⟨fun _ => ⟨s, 0, 0, false, [], [], 0, [], []⟩⟩

def set (w : AgentWorld) (n : ℕ) (a : ClusterAgent) : AgentWorld := ⟨Function.update w.agents n a⟩

def exec (w : AgentWorld) : ClusterAgentStep → AgentWorld
  | .boot n membership settings => w.set n ((w.agents n).boot crc membership settings)
  | .doWork n p => w.set n ((w.agents n).doWork crc L p)
  | .die n p last k => w.set n ((w.agents n).die crc L p last k)
  | .receive n position img =>
    let a := w.agents n
    w.set n { a with disk := (position, img) :: a.disk.filter (·.1 ≠ position) }
  | .prune n keep =>
    let a := w.agents n
    w.set n { a with disk := a.disk.filter fun x => keep x.1 }

/-- Only a node that runs works, and only an artifact that a node wrote is sent. -/
def Possible (w : AgentWorld) : ClusterAgentStep → Prop
  | .doWork n _ => (w.agents n).up = true
  | .die n _ _ _ => (w.agents n).up = true
  | .receive _ position img => ∃ m, (position, img) ∈ (w.agents m).wrote
  | _ => True

def run (w : AgentWorld) (steps : List ClusterAgentStep) : AgentWorld := steps.foldl (exec crc L) w

end AgentWorld

end UltimaCluster
