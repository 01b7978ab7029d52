/-
  The kernel's config and the cluster FSM's membership, over the nodes of a cluster
  (`maybe_reconcile_forced_membership`, `propose_and_append` and `append_cluster_frame` of
  `uc_node/src/node.rs`, `force_single_member` of `uc_node/src/recovery.rs`).

  The kernel adopts a membership frame as it is appended or observed, when its version is
  higher; the FSM takes it once it is committed, and only as the next version.  A log is
  the list of its frames, of which the membership ones carry their config.  What the
  election and the replication decide is taken from them: who wins, what is committed,
  where a follower is cut.  The channels between a node's agents, with the record's
  persistence around a cut, are in `ConfigLog`; here an observation and a cut are one
  step each.  `kept` is a ghost: the config by fiat that the kernel's record started from.
-/
import UltimaCluster.ClusterFsm
import UltimaCluster.ConfigRecord

namespace UltimaCluster.KernelView

/-! ## Logs -/

/-- What a frame carries. -/
inductive LogKind where
  | other
  /-- A `CLUSTER` frame of any kind but membership. -/
  | cluster
  | membership (c : ClusterConfig)
deriving DecidableEq

/-- One frame of the log. -/
structure LogItem where
  term : ℕ
  /-- The aligned length. -/
  length : ℕ
  kind : LogKind
deriving DecidableEq

def LogItem.config? (e : LogItem) : Option ClusterConfig :=
  match e.kind with
  | .membership c => some c
  | _ => none

/-- The membership frame that an item at a position is. -/
def LogItem.frameAt (e : LogItem) (p : ℕ) : Option MembershipFrame :=
  e.config?.map fun c => ⟨p, e.length, c⟩

def logEnd (l : List LogItem) : ℕ := (l.map LogItem.length).sum

/-- The membership frames of a log that starts at a position. -/
def framesFrom (p : ℕ) : List LogItem → List MembershipFrame
  | [] => []
  | e :: l => (e.frameAt p).toList ++ framesFrom (p + e.length) l

/-- The frame at a position. -/
def itemAt : List LogItem → ℕ → Option LogItem
  | [], _ => none
  | e :: l, p => if p = 0 then some e else if e.length ≤ p then itemAt l (p - e.length) else none

/-! ## The cluster FSM -/

/-- What the FSM makes of a membership frame. -/
def acceptMembership (cur next : ClusterConfig) : ClusterConfig :=
  if next.version = cur.version + 1 then next else cur

def feed (cur : ClusterConfig) (e : LogItem) : ClusterConfig :=
  e.config?.elim cur (acceptMembership cur)

/-- The FSM's membership after a log. -/
def membershipOf (g : ClusterConfig) (l : List LogItem) : ClusterConfig := l.foldl feed g

/-- What a node's cluster agent publishes. -/
structure View where
  membership : ClusterConfig
  /-- The position of the last frame that the FSM was given. -/
  position : ℕ
  consumed : ℕ
deriving DecidableEq

/-- The agent's cursor passes a frame. -/
def View.walk (v : View) (e : LogItem) : View :=
  let end_ := v.consumed + e.length
  match e.kind with
  | .other => { v with consumed := end_ }
  | .cluster => { v with position := end_, consumed := end_ }
  | .membership _ => ⟨feed v.membership e, end_, end_⟩

/-! ## A node -/

/-- One node, its log and its kernel. -/
structure Peer where
  /-- The config of the state machine, as its record has it. -/
  kernel : ConfigRecord
  log : List LogItem
  /-- How many frames are durable. -/
  durable : ℕ
  /-- How many frames the kernel has observed. -/
  seen : ℕ
  term : ℕ
  leader : Bool
  /-- The end of the frame that opened our term. -/
  newTermEnd : ℕ
  commitSeen : ℕ
  /-- `membership_reconciled_latched`. -/
  latched : Bool
  lastClusterAppend : ℕ
  view : View
  /-- The newest artifact of the cluster FSM. -/
  artifact : Option View
  kept : ClusterConfig × ℕ
deriving DecidableEq

namespace Peer

/-- A node on its own settings, with an empty directory. -/
def fresh (g : ClusterConfig) : Peer :=
  ⟨.seed g, [], 0, 0, 0, false, 0, 0, false, 0, ⟨g, 0, 0⟩, none, (g, 0)⟩

def canServe (p : Peer) : Bool := p.leader && decide (p.newTermEnd ≤ p.commitSeen)

/-- The kernel observes the next frame of its log. -/
def observeNext (p : Peer) : Peer :=
  match p.log[p.seen]? with
  | none => p
  | some e =>
    let frame := e.frameAt (logEnd (p.log.take p.seen))
    { p with kernel := frame.elim p.kernel p.kernel.observe, seen := p.seen + 1 }

def observeAll : ℕ → Peer → Peer
  | 0, p => p
  | k + 1, p => observeAll k p.observeNext

/-- The leader appends a frame; a membership frame is adopted with it. -/
def append (p : Peer) (kind : LogKind) (length : ℕ) : Peer :=
  ({ p with log := p.log ++ [⟨p.term, length, kind⟩] } : Peer).observeNext

def appendClusterFrame (p : Peer) (kind : LogKind) (length : ℕ) : Peer :=
  { p.append kind length with lastClusterAppend := logEnd p.log + length }

/-- `maybe_reconcile_forced_membership`; `full` where the buffer would overrun. -/
def reconcile (p : Peer) (full : Bool) (length : ℕ) : Peer :=
  if p.view.consumed < p.kernel.position then p
  else if p.kernel.config.version ≤ p.view.membership.version then { p with latched := true }
  -- a wipe keeps its config at position 0
  else if p.kernel.position = 0 then { p with latched := true }
  else if p.view.position < p.lastClusterAppend then p
  -- `validate_cluster_command` refuses
  else if p.kernel.config.version ≠ p.view.membership.version + 1 then { p with latched := true }
  else if full then p
  else { p.appendClusterFrame (.membership p.kernel.config) length with latched := true }

/-- `propose_config`, with what the member in question has reported. -/
def proposeConfig (p : Peer) (id : NodeId) (op : ConfigOp) (reported slack : ℕ) :
    Except ProposeError ClusterConfig :=
  if !p.leader then .error .notLeader
  else if !p.canServe then .error .notServing
  else if p.commitSeen < p.kernel.position then .error .changePending
  else if op = .demoteVoter id then .error .selfDemote
  else
    match op with
    | .promoteLearner _ =>
      let target := p.commitSeen - slack
      if reported < target then .error (.notCaughtUp (target - reported)) else p.kernel.config.apply op
    | _ => p.kernel.config.apply op

/-- `propose_and_append`: the latch is attempted first. -/
def proposeAndAppend (p : Peer) (id : NodeId) (op : ConfigOp) (reported slack : ℕ)
    (reconcileFull full : Bool) (reconcileLength length : ℕ) : Peer :=
  match p.proposeConfig id op reported slack with
  | .error _ => p
  | .ok config =>
    let p := if p.latched then p else p.reconcile reconcileFull reconcileLength
    if !p.latched then p
    else if full then p
    else p.appendClusterFrame (.membership config) length

/-- Reconciliation cuts our log, and the record is reverted. -/
def cut (p : Peer) (k : ℕ) : Peer :=
  let log := p.log.take k
  { p with
    kernel := p.kernel.revert (logEnd log)
    log
    durable := min p.durable k
    seen := min p.seen k
    kept := if logEnd log < p.kernel.position ∧ logEnd log = 0 then (p.kernel.config, 0) else p.kept }

/-- Crash and boot, with the first `k` frames on disk; without an artifact the FSM starts
    from the recovered config. -/
def boot (p : Peer) (g : ClusterConfig) (k : ℕ) : Peer :=
  let log := p.log.take k
  let r := recoverConfigRecord (some p.kernel) (framesFrom 0 log) 0 (logEnd log) g
  { p with
    kernel := r
    log
    durable := log.length
    seen := log.length
    leader := false
    newTermEnd := 0
    commitSeen := 0
    latched := false
    lastClusterAppend := 0
    view := p.artifact.getD ⟨r.config, 0, 0⟩ }

/-- `plan_force_single_member`, on the directory of a node that is down. -/
def planForceSingleMember (p : Peer) (id : NodeId) (k : ℕ) : Option ConfigRecord :=
  let log := p.log.take k
  let durable := logEnd log
  if durable < p.kernel.position ∧ durable < p.kernel.prevPosition then none
  else
    let recovered :=
      (recoverConfigRecord (some p.kernel) (framesFrom 0 log) 0 durable ⟨0, [], [], []⟩).config
    if recovered.tombstones.contains id then none
    else
      ((recovered.voters ++ recovered.learners).find? fun m => m.1 == id).map fun survivor =>
        let forced : ClusterConfig := ⟨recovered.version + 1, [survivor], [], recovered.tombstones⟩
        ⟨durable, forced, durable, forced⟩

/-- The config is seeded from the installed image, and the archive starts at the floor. -/
def adopt (p : Peer) (history : List LogItem) : Peer :=
  let c := p.view.membership
  let pos := logEnd history
  { p with
    kernel := ⟨pos, c, pos, c⟩
    log := history
    durable := history.length
    seen := history.length
    kept := (c, pos) }

end Peer

/-! ## The cluster -/

/-- All nodes and what is committed. -/
structure World where
  peers : NodeId → Peer
  committed : List LogItem
  /-- Every artifact that the cluster's nodes have written. -/
  artifacts : List View
  /-- The node that was forced to be the only voter, with the config written for it, until
      that config is committed. -/
  forced : Option (NodeId × ClusterConfig)

/-- A step of one node. -/
inductive Op where
  | elect (n : NodeId) (term length : ℕ)
  | stepDown (n : NodeId)
  /-- A frame of the leader that is no membership change. -/
  | append (n : NodeId) (cluster : Bool) (length : ℕ)
  /-- An admin request, our own or a forwarded one. -/
  | propose (n : NodeId) (op : ConfigOp) (reported slack : ℕ) (reconcileFull full : Bool)
      (reconcileLength length : ℕ)
  | reconcile (n : NodeId) (full : Bool) (length : ℕ)
  /-- The next frame of the log of `m`. -/
  | receive (n m : NodeId)
  | persist (n : NodeId) (k : ℕ)
  | observe (n : NodeId)
  /-- The leader `m` has a different log above the first `k` frames. -/
  | cut (n m : NodeId) (k : ℕ)
  /-- The leader's first `k` frames are committed. -/
  | commit (n : NodeId) (k : ℕ)
  /-- A follower learns the commit. -/
  | learn (n : NodeId) (k : ℕ)
  | consume (n : NodeId)
  /-- The cluster agent writes an artifact. -/
  | freeze (n : NodeId)
  /-- The cluster agent installs the artifact of a session. -/
  | install (n : NodeId) (v : View)
  /-- A session with the leader `m` completes at the end of the first `k` committed frames. -/
  | adopt (n m : NodeId) (k : ℕ) (sent : Bool)
  | restart (n : NodeId) (k : ℕ)
  /-- `force_single_member` and the start after it. -/
  | force (n : NodeId) (k : ℕ)
deriving DecidableEq

namespace World

variable (g : ClusterConfig)

def fresh : World := ⟨fun _ => .fresh g, [], [], none⟩

def set (w : World) (n : NodeId) (p : Peer) : World := { w with peers := Function.update w.peers n p }

/-- The forced config is committed. -/
def settle (forced : Option (NodeId × ClusterConfig)) (committed : List LogItem) :
    Option (NodeId × ClusterConfig) :=
  forced.filter fun f => decide ((membershipOf g committed).version < f.2.version)

/-- One step of the cluster. -/
def exec (w : World) : Op → World
  | .elect n term length =>
    let p := w.peers n
    if p.leader then w
    else
      -- the archive hands its observations over before it acks the collapse
      let p := { p.observeAll (p.log.length - p.seen) with leader := true, term }
      let p := p.append .other length
      w.set n { p with newTermEnd := logEnd p.log }
  | .stepDown n => w.set n { w.peers n with leader := false, lastClusterAppend := 0 }
  | .append n cluster length =>
    let p := w.peers n
    if !p.leader then w
    else w.set n (if cluster then p.appendClusterFrame .cluster length else p.append .other length)
  | .propose n op reported slack reconcileFull full reconcileLength length =>
    w.set n ((w.peers n).proposeAndAppend n op reported slack reconcileFull full reconcileLength length)
  | .reconcile n full length =>
    let p := w.peers n
    if p.latched || !p.canServe then w else w.set n (p.reconcile full length)
  | .receive n m =>
    let p := w.peers n
    if p.leader || !decide (p.log <+: (w.peers m).log) then w
    else w.set n { p with log := (w.peers m).log.take (p.log.length + 1) }
  | .persist n k => w.set n
    { w.peers n with durable := max (w.peers n).durable (min k (w.peers n).log.length) }
  | .observe n => w.set n (w.peers n).observeNext
  | .cut n _ k => if (w.peers n).leader then w else w.set n ((w.peers n).cut k)
  | .commit n k =>
    let p := w.peers n
    if !p.leader then w
    else
      let committed := p.log.take k
      { w.set n { p with commitSeen := logEnd committed } with
        committed
        forced := settle g w.forced committed }
  | .learn n k =>
    let p := w.peers n
    if p.leader then w else w.set n { p with commitSeen := max p.commitSeen (logEnd (p.log.take k)) }
  | .consume n =>
    let p := w.peers n
    match itemAt w.committed p.view.consumed with
    | none => w
    | some e =>
      if p.view.consumed + e.length ≤ p.commitSeen then w.set n { p with view := p.view.walk e } else w
  | .freeze n =>
    let p := w.peers n
    { w.set n { p with artifact := some p.view } with artifacts := p.view :: w.artifacts }
  | .install n v =>
    let p := w.peers n
    if p.leader || decide (v.consumed ≤ p.view.consumed) then w
    else w.set n { p with view := v, artifact := some v }
  | .adopt n _ k sent =>
    let p := w.peers n
    let history := w.committed.take k
    -- a node that covers the position adopts nothing; the command may be dropped
    if logEnd history ≤ logEnd (p.log.take p.durable) then w
    else if sent then w.set n (p.adopt history)
    else w.set n { p.adopt history with log := p.log, durable := p.durable, seen := p.seen }
  | .restart n k => w.set n ((w.peers n).boot g k)
  | .force n k =>
    match (w.peers n).planForceSingleMember n k with
    | none => w
    | some r =>
      let p := { w.peers n with kernel := r, kept := (r.config, r.position) }.boot g k
      -- the dropped peers wipe their directories and come back as fresh ones
      { peers := fun m => if m = n then p else .fresh g
        committed := p.log
        artifacts := p.artifact.toList
        forced := some (n, r.config) }

def run (w : World) (ops : List Op) : World := ops.foldl (exec g) w

/-! ## What the election and the replication promise -/

/-- What replication allows. -/
def Possible (w : World) : Op → Prop
  -- a winner has all that is committed, and the only voter wins alone
  | .elect n _ length => 0 < length ∧ w.committed <+: (w.peers n).log ∧ ∀ f ∈ w.forced, f.1 = n
  | .append _ _ length => 0 < length
  | .propose _ _ _ _ _ _ reconcileLength length => 0 < reconcileLength ∧ 0 < length
  | .reconcile _ _ length => 0 < length
  | .cut n m _ => m ≠ n ∧ (w.peers m).leader = true
  | .commit n k => w.committed <+: (w.peers n).log.take k
  | .learn n k => (w.peers n).log.take k <+: w.committed
  | .install _ v => v ∈ w.artifacts
  | .adopt n m k _ => m ≠ n ∧ (w.peers m).leader = true ∧ (w.peers n).leader = false ∧
      logEnd (w.committed.take k) ≤ (w.peers n).view.consumed
  | .restart n k => (w.peers n).durable ≤ k
  -- above genesis
  | .force n k => (w.peers n).durable ≤ k ∧ 0 < logEnd ((w.peers n).log.take k)
  | _ => True

/-- A config that a log makes the membership, at some length of it. -/
def Reached (l : List LogItem) (c : ClusterConfig) : Prop := ∃ q ∈ l.inits, c = membershipOf g q

/-- The view is of a prefix of the log, and of what it has consumed at the least. -/
def Covers (l : List LogItem) (v : View) : Prop :=
  ∃ q ∈ l.inits, v.membership = membershipOf g q ∧ ∃ q' ∈ q.inits, v.consumed = logEnd q'

/-- The record or its predecessor lies within the first `k` frames. -/
def RecordWithin (p : Peer) (k : ℕ) : Prop :=
  p.kernel.position ≤ logEnd (p.log.take k) ∨ p.kernel.prevPosition ≤ logEnd (p.log.take k)

/-- Where the config is not written past what the FSM will ever take. -/
def Orderly (w : World) : Op → Prop
  | .cut n _ k =>
    let p := w.peers n
    if logEnd (p.log.take k) = 0 then 0 < p.kernel.position → Reached g w.committed p.kernel.config
    else RecordWithin p k
  | .adopt _ _ _ sent => sent = true
  | .restart n k =>
    let p := w.peers n
    RecordWithin p k ∧ (p.artifact = none → Reached g w.committed (p.boot g k).kernel.config)
  | .force n k =>
    let p := w.peers n
    ∀ r ∈ p.planForceSingleMember n k, (p.boot g k).kernel.config = membershipOf g (p.log.take k) ∧
      ∃ v ∈ p.artifact, Covers g (p.log.take k) v
  | _ => True

instance (w : World) (op : Op) : Decidable (Possible w op) := by
  cases op <;> unfold Possible <;> infer_instance

instance (l : List LogItem) (c : ClusterConfig) : Decidable (Reached g l c) :=
  inferInstanceAs (Decidable (∃ q ∈ l.inits, _))

instance (l : List LogItem) (v : View) : Decidable (Covers g l v) :=
  inferInstanceAs (Decidable (∃ q ∈ l.inits, _))

instance (p : Peer) (k : ℕ) : Decidable (RecordWithin p k) := inferInstanceAs (Decidable (_ ∨ _))

instance (w : World) (op : Op) : Decidable (Orderly g w op) := by
  cases op <;> unfold Orderly <;> infer_instance

end World

end UltimaCluster.KernelView
