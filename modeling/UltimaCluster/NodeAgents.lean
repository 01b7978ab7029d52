/-
  The consensus agent and the archive agent of one node (`uc_node/src/node.rs`)
  around the election state machine: the intake gate, the data-plane term, the
  commands to the archive and their acks, the durable counter and the term
  observations.

  Each agent is a thread.  A step of the consensus agent is one call that its
  duty cycle makes; a step of the archive agent is one write that the other
  threads can see.  The ring is what lies between the archive's frontier and
  the append counter, as the list of its frames; the receiver and the leader's
  appender extend it.  `marks` records what the node went through, newest
  first; nothing reads it.
-/
import Mathlib.Algebra.GroupWithZero.Nat
import UltimaCluster.Lib.Trace
import UltimaCluster.Trans

namespace UltimaCluster

/-! ## The archive -/

/-- What the archive's header walk sees of a frame. -/
structure FrameStamp where
  term : ℕ
  padding : Bool
  /-- The aligned length. -/
  len : ℕ
deriving DecidableEq

/-- The terms of the bytes of some frames. -/
def stampsOf (fs : List FrameStamp) : List ℕ := fs.flatMap fun f => List.replicate f.len f.term

/-- `observe_terms`: the transitions of a block at `base`, and the term of its
    last frame that is no padding. -/
def observeTerms (last base : ℕ) : List FrameStamp → List (ℕ × ℕ) × ℕ
  | [] => ([], last)
  | f :: fs =>
    if f.padding = false ∧ f.term ≠ last then
      let r := observeTerms f.term (base + f.len) fs
      ((f.term, base) :: r.1, r.2)
    else observeTerms last (base + f.len) fs

/-- The recorded stream: the term of every retained byte, and the observations
    that were not handed over yet. -/
structure ArchiveLog where
  firstBase : ℕ
  stamps : List ℕ
  lastObservedTerm : ℕ
  termObservations : List (ℕ × ℕ)
deriving DecidableEq

namespace ArchiveLog

/-- The archive's own frontier, `recovered_position`. -/
def durablePos (a : ArchiveLog) : ℕ := a.firstBase + a.stamps.length

/-- The term stamped in the frame of the byte at `p`. -/
def stamp (a : ArchiveLog) (p : ℕ) : Option ℕ :=
  if p < a.firstBase then none else a.stamps[p - a.firstBase]?

/-- `do_work`: one block, walked after its fsync. -/
def record (a : ArchiveLog) (block : List FrameStamp) : ArchiveLog :=
  let r := observeTerms a.lastObservedTerm a.durablePos block
  { a with
    stamps := a.stamps ++ stampsOf block
    lastObservedTerm := r.2
    termObservations := a.termObservations ++ r.1 }

/-- `truncate_to`; `none` where it fails. -/
def truncateTo (a : ArchiveLog) (pos : ℕ) : Option ArchiveLog :=
  if pos = a.durablePos then some a
  else if a.durablePos < pos ∨ pos < a.firstBase then none
  else some { a with
    stamps := a.stamps.take (pos - a.firstBase)
    lastObservedTerm := 0
    termObservations := [] }

/-- `purge_below`: whole segments go, so the new floor is the journal's. -/
def purgeBelow (a : ArchiveLog) (floor : ℕ) : ArchiveLog :=
  if a.firstBase ≤ floor ∧ floor ≤ a.durablePos then
    { a with firstBase := floor, stamps := a.stamps.drop (floor - a.firstBase) }
  else a

/-- `adopt_floor`. -/
def adoptFloor (a : ArchiveLog) (pos : ℕ) : ArchiveLog :=
  if pos ≤ a.durablePos then a
  else if a.stamps = [] then { a with firstBase := pos }
  else { firstBase := pos, stamps := [], lastObservedTerm := 0, termObservations := [] }

end ArchiveLog

/-- What the archive is asked to do. -/
inductive ArchiveCmd where
  | truncate (epoch target : ℕ)
  | collapse (epoch target : ℕ)
  | purge (below : ℕ)
  | adoptFloor (pos : ℕ)
deriving DecidableEq

/-- Where the archive agent is in its loop. -/
inductive ArchivePc where
  /-- Draining commands, or about to record. -/
  | idle
  /-- A cut or a floor was executed; the counters are to be primed at `pos`. -/
  | prime (cmd : ArchiveCmd) (pos : ℕ)
  /-- The cut is to be acked. -/
  | ack (cmd : ArchiveCmd) (pos : ℕ)
  /-- A block was recorded; the durable counter is to be published. -/
  | durable
  /-- Everything observed was handed over; the frontier is to be published. -/
  | frontier
deriving DecidableEq

def ArchivePc.primes : ArchivePc → Bool
  | .prime .. => true
  | _ => false

def ArchivePc.acks : ArchivePc → Bool
  | .ack .. => true
  | _ => false

/-! ## The consensus agent -/

/-- An open that waits for its collapse. -/
structure PendingLeaderOpen where
  epoch : ℕ
  term : ℕ
  base : ℕ
deriving DecidableEq

/-- What a node went through. -/
inductive GateMark where
  /-- A strictly newer term was adopted (at boot: recovered). -/
  | adopt (term : ℕ)
  /-- The term was opened as leader. -/
  | lead (term : ℕ)
  /-- The map of a leader of `term` was reconciled with the log; it refuted
      the bytes from `refuted` on. -/
  | map (term : ℕ) (refuted : Option ℕ)
  /-- The archive cut its journal to `pos` for a reconciliation. -/
  | cut (pos : ℕ)
deriving DecidableEq

/-- The consensus and archive agents of a node. -/
structure NodeAgents where
  sm : ElectionSm
  intakeGate : Bool
  termHandle : ℕ
  adoptedTerm : ℕ
  awaitingReconcile : Bool
  pendingTruncation : Option ℕ
  pendingLeaderOpen : Option PendingLeaderOpen
  nextCollapseEpoch : ℕ
  leaderFlag : Bool
  /-- The term of the leader's appender. -/
  appender : Option ℕ
  durableSeen : ℕ
  pendingObs : List (ℕ × ℕ)
  /-- An `expect` or a `Fatal` stopped the consensus agent. -/
  panicked : Bool
  /-- The command channel. -/
  commands : List ArchiveCmd
  truncSlot : Option (ℕ × ℕ)
  collapseSlot : Option (ℕ × ℕ)
  /-- The channel of the term observations. -/
  obs : List (ℕ × ℕ)
  obsFrontier : ℕ
  /-- The durable counter. -/
  durable : ℕ
  append : ℕ
  ring : List FrameStamp
  archive : ArchiveLog
  pc : ArchivePc
  /-- An `expect` stopped the archive agent. -/
  archiveFailed : Bool
  marks : List GateMark
  /-- The epochs of the collapses whose leader open was abandoned. -/
  abandoned : List ℕ
  /-- The epochs of the truncations that were asked for while a leader open
      was waiting for its collapse. -/
  duringOpen : List ℕ
deriving DecidableEq

/-- Where a shipped map refutes the log, if it does. -/
def ElectionSm.refuted (sm : ElectionSm) (entries : TermMap) : Option ℕ :=
  match reconcile sm.termMap sm.durable entries with
  | .noCommonPrefix => some 0
  | .ok o => if o.validUpTo < sm.durable then some o.validUpTo else none

namespace NodeAgents

def closeGate (n : NodeAgents) : NodeAgents := { n with intakeGate := false }

def openGate (n : NodeAgents) : NodeAgents := { n with intakeGate := true }

/-- `exec`, one action: what it does to the gate, the archive channel and the
    role flags. -/
def exec (n : NodeAgents) : Action → NodeAgents
  | .becomeLeader term base =>
    let n := closeGate { n with termHandle := term }
    { n with
      nextCollapseEpoch := n.nextCollapseEpoch + 1
      pendingLeaderOpen := some ⟨n.nextCollapseEpoch, term, base⟩
      commands := n.commands ++ [.collapse n.nextCollapseEpoch base]
      adoptedTerm := term
      awaitingReconcile := false
      marks := .lead term :: n.marks }
  | .becomeFollower term _ =>
    let n := { n with
      termHandle := term
      leaderFlag := false
      appender := none
      abandoned := (n.pendingLeaderOpen.map PendingLeaderOpen.epoch).toList ++ n.abandoned
      pendingLeaderOpen := none }
    let n := if n.adoptedTerm < term then
      { closeGate n with awaitingReconcile := true, marks := .adopt term :: n.marks } else n
    { n with adoptedTerm := term }
  | .truncate epoch target _ =>
    let n := closeGate n
    { n with
      pendingTruncation := some epoch
      awaitingReconcile := false
      commands := n.commands ++ [.truncate epoch target]
      duringOpen := if n.pendingLeaderOpen.isSome then epoch :: n.duringOpen else n.duringOpen }
  | .fatal _ => { n with panicked := true }
  | .haltRemoved | .stepDownRemoved => { n with leaderFlag := false }
  | _ => n

/-- The actions of one step, in order. -/
def execAll (n : NodeAgents) (out : List Action) : NodeAgents := out.foldl exec n

/-- Note a map that the state machine reconciled. -/
def noteMap (before : ElectionSm) (term : ℕ) (entries : TermMap) (n : NodeAgents) : NodeAgents :=
  if before.truncatingEpoch = none ∧ before.currentTerm ≤ term then
    { n with marks := .map term (before.refuted entries) :: n.marks }
  else n

/-- The tail of `feed` for a map: reopen the gate when the map was processed
    and asked for no cut, none is in flight, and the machine's term is the
    data-plane term. -/
def reopenOnMap (before : ElectionSm) (out : List Action) (term : ℕ) (n : NodeAgents) :
    NodeAgents :=
  if n.awaitingReconcile ∧ ElectionSm.truncates out = [] ∧ n.pendingTruncation = none
      ∧ before.currentTerm ≤ term ∧ n.sm.currentTerm = n.adoptedTerm then
    openGate { n with awaitingReconcile := false }
  else n

/-- `feed`: the step, its actions, and the reopening of the gate. -/
def feed (n : NodeAgents) (ev : Event) : NodeAgents :=
  let r := n.sm.step ev
  let n' := execAll { n with sm := r.1 } r.2
  match ev with
  | .termMapReceived term entries =>
    if n'.panicked then n' else reopenOnMap n.sm r.2 term (noteMap n.sm term entries n')
  | _ => n'

/-- `refresh_durable`: absorb the durable counter, clamped to the frontier that
    the handed-over observations describe. -/
def refreshDurable (n : NodeAgents) : NodeAgents :=
  if n.pendingLeaderOpen.isSome then n
  else
    let d := min n.durable n.obsFrontier
    if d ≤ n.durableSeen then n else feed { n with durableSeen := d } (.durableAdvanced d)

/-- `feed_net` of a `RequestVote`. -/
def feedRequestVote (n : NodeAgents) (src : NodeId) (newTerm lastTerm lastDurable : ℕ) :
    NodeAgents :=
  feed (refreshDurable n) (.requestVote src newTerm lastTerm lastDurable)

/-- Step 1b of the duty cycle: drain the term observations, hold them while a
    truncation is in flight. -/
def drainObs (n : NodeAgents) : NodeAgents :=
  let n := { n with pendingObs := n.pendingObs ++ n.obs, obs := [] }
  if n.sm.truncatingEpoch.isSome then n
  else n.pendingObs.foldl (fun n o => feed n (.dataTermObserved o.1 o.2)) { n with pendingObs := [] }

/-- `on_truncated`. -/
def onTruncated (n : NodeAgents) (epoch target : ℕ) : NodeAgents :=
  let n := { n with durableSeen := target }
  let matching := n.pendingTruncation = some epoch
  let n := feed n (.truncated epoch target)
  if matching then
    let n := { n with pendingTruncation := none }
    if n.awaitingReconcile = false ∧ n.sm.currentTerm = n.adoptedTerm
        ∧ n.pendingLeaderOpen = none then openGate n
    else n
  else n

def newTermLen : ℕ := 64

/-- The wrap padding in front of a NewTerm frame at `pos`. -/
def newTermPad (capacity pos : ℕ) : ℕ :=
  if capacity - pos % capacity < newTermLen then capacity - pos % capacity else 0

/-- `on_collapsed`: the second half of a leader open. -/
def onCollapsed (capacity : ℕ) (n : NodeAgents) (epoch target : ℕ) : NodeAgents :=
  let n := { n with durableSeen := target }
  match n.pendingLeaderOpen with
  | none => n
  | some o =>
    if o.epoch ≠ epoch then n
    else
      let pad := newTermPad capacity n.append
      let newTerm := (if pad = 0 then [] else [⟨o.term, true, pad⟩]) ++ [⟨o.term, false, newTermLen⟩]
      let n := { n with
        pendingLeaderOpen := none
        append := n.append + pad + newTermLen
        ring := n.ring ++ newTerm
        appender := some o.term }
      { openGate (feed n (.newTermAppended n.append)) with leaderFlag := true }

/-- `maybe_adopt_incoming_snapshot` of a set above the durable counter; the
    channel may be full. -/
def installSnapshot (n : NodeAgents) (pos : ℕ) (lineage : TermMap) (config : ClusterConfig)
    (sent : Bool) : NodeAgents :=
  if n.durable < pos then
    { n with
      sm := ElectionSm.adoptSnapshotConfig pos config (ElectionSm.adoptSnapshotLineage lineage n.sm)
      commands := if sent then n.commands ++ [.adoptFloor pos] else n.commands }
  else n

/-! ## The archive agent -/

/-- One command: the journal work, before the counters are primed. -/
def archiveCommand (n : NodeAgents) (floor : ℕ) : NodeAgents :=
  match n.commands with
  | [] => n
  | cmd :: rest =>
    match cmd with
    | .truncate _ target =>
      match n.archive.truncateTo target with
      | none => { n with archiveFailed := true }
      | some a => { n with
          archive := a, commands := rest, pc := .prime cmd target
          marks := .cut target :: n.marks }
    | .collapse _ target =>
      let target := min target n.archive.durablePos
      match n.archive.truncateTo target with
      | none => { n with archiveFailed := true }
      | some a => { n with archive := a, commands := rest, pc := .prime cmd target }
    | .purge below =>
      { n with commands := rest, archive := if floor ≤ below then n.archive.purgeBelow floor
          else n.archive }
    | .adoptFloor pos =>
      let a := n.archive.adoptFloor pos
      { n with archive := a, commands := rest, pc := .prime cmd a.durablePos }

/-- `LogCounters::prime`. -/
def primeCounters (n : NodeAgents) : NodeAgents :=
  match n.pc with
  | .prime cmd pos => { n with durable := pos, append := pos, ring := [], pc := .ack cmd pos }
  | _ => n

/-- The post on the ack slot of the command. -/
def postAck (n : NodeAgents) : NodeAgents :=
  match n.pc with
  | .ack (.truncate epoch _) pos => { n with truncSlot := some (epoch, pos), pc := .idle }
  | .ack (.collapse epoch _) pos => { n with collapseSlot := some (epoch, pos), pc := .idle }
  | .ack _ _ => { n with pc := .idle }
  | _ => n

/-- `do_work`: record the first `k` frames of the ring as a block. -/
def recordBlock (n : NodeAgents) (k : ℕ) : NodeAgents :=
  { n with archive := n.archive.record (n.ring.take k), ring := n.ring.drop k, pc := .durable }

/-- Hand over the first `k` observations; the others are retained for the next
    cycle when the channel is full. -/
def handOver (n : NodeAgents) (k : ℕ) : NodeAgents :=
  let sent := n.archive.termObservations.take k
  let unsent := n.archive.termObservations.drop k
  { n with
    obs := n.obs ++ sent
    archive := { n.archive with termObservations := unsent }
    pc := if unsent = [] then .frontier else .idle }

/-! ## Runs -/

/-- A step of either agent. -/
inductive AgentStep where
  /-- An event of the network, of the clock or of the config observations. -/
  | feed (ev : Event)
  | requestVote (src : NodeId) (newTerm lastTerm lastDurable : ℕ)
  | refreshDurable
  | drainObs
  | truncAck
  | collapseAck
  | install (pos : ℕ) (lineage : TermMap) (config : ClusterConfig) (sent : Bool)
  | sendPurge (below : ℕ)
  /-- The archive agent. -/
  | command (floor : ℕ)
  | prime
  | postAck
  | record (k : ℕ)
  | publishDurable
  | handOver (k : ℕ)
  | publishFrontier
  /-- The receiver writes frames of the stream into the ring. -/
  | receive (fs : List FrameStamp)
  /-- The leader appends frames. -/
  | append (fs : List FrameStamp)
deriving DecidableEq

/-- The events that reach the state machine through `feed` alone. -/
def Fed : Event → Prop
  | .tick _ | .leaderSeen _ | .report .. | .commitGossip .. | .vote .. | .termMapReceived ..
  | .configObserved .. => True
  | _ => False

instance : DecidablePred Fed := fun ev => by cases ev <;> simp only [Fed] <;> infer_instance

/-- When a step can be taken. -/
def Possible (n : NodeAgents) : AgentStep → Prop
  | .feed ev => n.panicked = false ∧ Fed ev
  | .requestVote .. | .refreshDurable | .drainObs | .install .. | .sendPurge _ =>
    n.panicked = false
  | .truncAck => n.panicked = false ∧ n.truncSlot.isSome
  | .collapseAck => n.panicked = false ∧ n.collapseSlot.isSome
  | .command _ => n.archiveFailed = false ∧ n.pc = .idle
  | .prime => n.pc.primes
  | .postAck => n.pc.acks
  | .record k => n.archiveFailed = false ∧ n.pc = .idle ∧ 0 < k ∧ k ≤ n.ring.length
  | .publishDurable => n.pc = .durable
  | .handOver k => n.archiveFailed = false ∧ n.pc = .idle ∧ k ≤ n.archive.termObservations.length
  | .publishFrontier => n.pc = .frontier
  | .receive fs => n.intakeGate ∧ ∀ f ∈ fs, 0 < f.len
  | .append fs => n.appender.isSome ∧ ∀ f ∈ fs, 0 < f.len ∧ some f.term = n.appender

instance (n : NodeAgents) : DecidablePred (Possible n) := fun st => by
  cases st <;> simp only [Possible] <;> infer_instance

def lenOf (fs : List FrameStamp) : ℕ := (fs.map FrameStamp.len).sum

/-- One step of either agent. -/
def step (capacity : ℕ) (n : NodeAgents) : AgentStep → NodeAgents
  | .feed ev => n.feed ev
  | .requestVote src newTerm lastTerm lastDurable =>
    n.feedRequestVote src newTerm lastTerm lastDurable
  | .refreshDurable => n.refreshDurable
  | .drainObs => n.drainObs
  | .truncAck =>
    match n.truncSlot with
    | some (epoch, target) => onTruncated { n with truncSlot := none } epoch target
    | none => n
  | .collapseAck =>
    match n.collapseSlot with
    | some (epoch, target) => onCollapsed capacity { n with collapseSlot := none } epoch target
    | none => n
  | .install pos lineage config sent => n.installSnapshot pos lineage config sent
  | .sendPurge below => { n with commands := n.commands ++ [.purge below] }
  | .command floor => n.archiveCommand floor
  | .prime => n.primeCounters
  | .postAck => n.postAck
  | .record k => n.recordBlock k
  | .publishDurable => { n with durable := n.archive.durablePos, pc := .idle }
  | .handOver k => n.handOver k
  | .publishFrontier => { n with obsFrontier := n.archive.durablePos, pc := .idle }
  | .receive fs | .append fs => { n with ring := n.ring ++ fs, append := n.append + lenOf fs }

/-- The node after a run. -/
def run (capacity : ℕ) (n : NodeAgents) (sts : List AgentStep) : NodeAgents :=
  sts.foldl (step capacity) n

/-- Every step of the run can be taken where it is taken. -/
def Runs (capacity : ℕ) (n : NodeAgents) (sts : List AgentStep) : Prop :=
  Trace.Admits (step capacity) Possible n sts

instance (capacity : ℕ) (n : NodeAgents) (sts : List AgentStep) : Decidable (Runs capacity n sts) :=
  inferInstanceAs (Decidable (Trace.Admits _ _ _ _))

/-- The gate is closed at boot iff the vote is of a later term than the map. -/
def boot (sm : ElectionSm) (archive : ArchiveLog) : NodeAgents where
  sm
  intakeGate := !sm.awaitingReconcile
  termHandle := sm.currentTerm
  adoptedTerm := sm.currentTerm
  awaitingReconcile := sm.awaitingReconcile
  pendingTruncation := none
  pendingLeaderOpen := none
  nextCollapseEpoch := 0
  leaderFlag := false
  appender := none
  durableSeen := archive.durablePos
  pendingObs := []
  panicked := false
  commands := []
  truncSlot := none
  collapseSlot := none
  obs := []
  obsFrontier := archive.durablePos
  durable := archive.durablePos
  append := archive.durablePos
  ring := []
  archive
  pc := .idle
  archiveFailed := false
  marks := [.adopt sm.currentTerm]
  abandoned := []
  duringOpen := []

end NodeAgents

end UltimaCluster
