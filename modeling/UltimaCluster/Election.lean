/-
  The election state machine (`uc_consensus/src/election.rs`): Raft's safety
  core over byte positions.  Events in, actions out, time injected by `Tick`.

  The machine is modelled in its default build (no `mutation-testing`
  feature) with all the fields that its functions read.  A function of the
  source that takes `&mut self` and pushes on `out` returns the new state and
  the actions pushed; `ElectionSm.andThen` runs two of them in sequence.
  Terms, positions, epochs and times are natural numbers.
-/
import Mathlib.Data.List.DropRight
import UltimaCluster.Config
import UltimaCluster.Commit
import UltimaCluster.Reconcile

namespace UltimaCluster

/-! ## Events and actions -/

/-- Deterministic xorshift64. -/
structure XorShift64 where
  state : UInt64
deriving DecidableEq, Inhabited

def XorShift64.new (seed : UInt64) : XorShift64 :=
  ⟨if seed = 0 then 0x9E3779B97F4A7C15 else seed⟩

def XorShift64.nextU64 (r : XorShift64) : UInt64 × XorShift64 :=
  let x := r.state
  let x := x ^^^ (x <<< 13)
  let x := x ^^^ (x >>> 7)
  let x := x ^^^ (x <<< 17)
  (x, ⟨x⟩)

/-- What `ElectionSm::new` is given. -/
structure ElectionConfig where
  id : NodeId
  config : ClusterConfig
  /-- Recovered frame-end position of `config` (0 at genesis). -/
  configPosition : ℕ
  electionTimeoutMinNs : ℕ
  electionTimeoutMaxNs : ℕ
  gossipFloorNs : ℕ
  seed : UInt64
deriving DecidableEq

/-- The inputs of `step`. -/
inductive Event where
  | tick (nowNs : ℕ)
  | durableAdvanced (durable : ℕ)
  | leaderSeen (term : ℕ)
  | report (src : NodeId) (term durable durableTerm : ℕ)
  | commitGossip (term commit : ℕ)
  | requestVote (src : NodeId) (newTerm lastTerm lastDurable : ℕ)
  | vote (src : NodeId) (term : ℕ) (granted : Bool)
  | newTermAppended (position : ℕ)
  | termMapReceived (term : ℕ) (entries : TermMap)
  | dataTermObserved (term base : ℕ)
  | truncated (epoch target : ℕ)
  | configObserved (position : ℕ) (config : ClusterConfig)
deriving DecidableEq

/-- The events that are processed while a truncation is in flight. -/
def Event.passesLatch : Event → Bool
  | .requestVote .. | .vote .. | .truncated .. => true
  | _ => false

/-- A persisted and sent vote. -/
structure VoteOut where
  term : ℕ
  votedFor : NodeId
  grantedTo : NodeId
deriving DecidableEq

/-- The outputs of `step`. -/
inductive Action where
  | persistAndSendVote (dest : NodeId) (vote : VoteOut)
  | sendVoteRejection (dest : NodeId) (term : ℕ)
  | startElection (newTerm lastTerm lastDurable : ℕ)
  | becomeLeader (term base : ℕ)
  | becomeFollower (term : ℕ) (leader : Option NodeId)
  | advanceCommit (commit : ℕ)
  | gossipCommit (commit : ℕ)
  | truncate (epoch target : ℕ) (newMap : TermMap)
  | shipTermMap (entries : TermMap)
  | persistTermMap (newMap : TermMap)
  | fatal (reason : String)
  | countWipe
  | configAdopted (position : ℕ) (config : ClusterConfig) (prevPosition : ℕ) (prev : ClusterConfig)
  | haltRemoved
  | stepDownRemoved
deriving DecidableEq

/-- The role of a node. -/
inductive Role where
  | follower
  | candidate
  | leader
deriving DecidableEq, Inhabited

/-- How a node's `commitSeen` last moved. -/
inductive CommitSource where
  | none
  | rank
  | gossip
deriving DecidableEq, Inhabited

/-! ## The state -/

/-- The state of one node's election. -/
structure ElectionSm where
  id : NodeId
  config : ClusterConfig
  configPosition : ℕ
  /-- The superseded config: exactly one level of history. -/
  prevConfig : ClusterConfig
  prevPosition : ℕ
  revertOnTruncate : Bool
  /-- Derived voting set, `config.voterIds`. -/
  members : List NodeId
  /-- Derived, `config.isVoter id`. -/
  canVote : Bool
  lastReports : List (NodeId × ℕ)
  timeoutMinNs : ℕ
  timeoutMaxNs : ℕ
  gossipFloorNs : ℕ
  rng : XorShift64
  role : Role
  currentTerm : ℕ
  votedFor : Option (ℕ × NodeId)
  termMap : TermMap
  durable : ℕ
  commitSeen : ℕ
  pendingLeaderActivity : Bool
  timeoutDeadlineNs : ℕ
  lastTickNs : ℕ
  lastGossipNs : ℕ
  votesReceived : List NodeId
  tracker : CommitTracker
  newTermPos : Option ℕ
  serving : Bool
  truncatingEpoch : Option ℕ
  truncationEpoch : ℕ
  pendingNewMap : Option TermMap
  /-- Follower commit-validation latch. -/
  awaitingReconcile : Bool
  reportsUnattested : ℕ
  commitSource : CommitSource
  commitSourceTerm : ℕ
  /-- Validated frontier. -/
  validatedUpTo : ℕ
  unconfirmedBoundary : Bool
  deferredCommit : ℕ
  wipeOnNoCommonPrefix : Bool
  steppedDown : Bool
  selfRemoved : Bool
deriving DecidableEq, Inhabited

/-- The term of the last entry of a term map, 0 when it is empty. -/
def TermMap.lastTerm (m : TermMap) : ℕ := (m.getLast?.map Prod.fst).getD 0

/-- Lexicographic vote-freshness order: grant iff
    `(candLastTerm, candLastDurable) ≥ (ourTerm, ourDurable)`. -/
def logOkOrder (ourTerm ourDurable candLastTerm candLastDurable : ℕ) : Bool :=
  ourTerm < candLastTerm || (candLastTerm = ourTerm && ourDurable ≤ candLastDurable)

/-- The loop of `term_at`: the last entry before the first whose base is at or
    above `pos`. -/
def TermMap.termAtLoop (pos : ℕ) : ℕ → TermMap → ℕ
  | t, [] => t
  | t, (term, base) :: m => if base < pos then termAtLoop pos term m else t

/-- The term that a map attributes to the byte immediately below `pos`. -/
def TermMap.termAt (m : TermMap) (pos : ℕ) : ℕ := if pos = 0 then 0 else termAtLoop pos 0 m

namespace ElectionSm

/-- Run `f` after `r`, appending its actions. -/
def andThen (r : ElectionSm × List Action) (f : ElectionSm → ElectionSm × List Action) :
    ElectionSm × List Action :=
  ((f r.1).1, r.2 ++ (f r.1).2)

@[simp] theorem andThen_fst (r : ElectionSm × List Action)
    (f : ElectionSm → ElectionSm × List Action) : (andThen r f).1 = (f r.1).1 := rfl

@[simp] theorem andThen_snd (r : ElectionSm × List Action)
    (f : ElectionSm → ElectionSm × List Action) : (andThen r f).2 = r.2 ++ (f r.1).2 := rfl

/-- Randomize a fresh election deadline from `[min, max)` relative to `now`. -/
def armTimeout (sm : ElectionSm) (nowNs : ℕ) : ElectionSm :=
  let span := sm.timeoutMaxNs - sm.timeoutMinNs
  if span = 0 then { sm with timeoutDeadlineNs := nowNs + sm.timeoutMinNs }
  else
    let (x, rng) := sm.rng.nextU64
    { sm with rng, timeoutDeadlineNs := nowNs + sm.timeoutMinNs + x.toNat % span }

/-- The constructor; `none` where the source's assertions fail. -/
def new (cfg : ElectionConfig) (recoveredVote : Option (ℕ × NodeId)) (recoveredTermMap : TermMap)
    (durable nowNs : ℕ) : Option ElectionSm :=
  let members := cfg.config.voterIds
  let canVote := cfg.config.isVoter cfg.id
  if members.isEmpty then none
  else if canVote ≠ members.contains cfg.id then none
  else if ¬ cfg.electionTimeoutMinNs < cfg.electionTimeoutMaxNs then none
  else
    let mapTerm := recoveredTermMap.lastTerm
    let voteTerm := (recoveredVote.map Prod.fst).getD 0
    let sm : ElectionSm := {
      id := cfg.id
      config := cfg.config
      configPosition := cfg.configPosition
      prevConfig := cfg.config
      prevPosition := cfg.configPosition
      revertOnTruncate := true
      members
      canVote
      lastReports := []
      timeoutMinNs := cfg.electionTimeoutMinNs
      timeoutMaxNs := cfg.electionTimeoutMaxNs
      gossipFloorNs := cfg.gossipFloorNs
      rng := XorShift64.new cfg.seed
      role := .follower
      currentTerm := max voteTerm mapTerm
      votedFor := recoveredVote
      termMap := recoveredTermMap
      durable
      commitSeen := 0
      pendingLeaderActivity := false
      timeoutDeadlineNs := 0
      lastTickNs := nowNs
      lastGossipNs := nowNs
      votesReceived := []
      tracker := CommitTracker.new (members.length - 1) members.length
      newTermPos := none
      serving := false
      truncatingEpoch := none
      truncationEpoch := 0
      pendingNewMap := none
      awaitingReconcile := mapTerm < voteTerm
      reportsUnattested := 0
      commitSource := .none
      commitSourceTerm := 0
      validatedUpTo := durable
      unconfirmedBoundary := false
      deferredCommit := 0
      wipeOnNoCommonPrefix := true
      steppedDown := false
      selfRemoved := false }
    some (sm.armTimeout nowNs)

/-- Restore the durable record's previous config at boot. -/
def restorePrevConfig (sm : ElectionSm) (prev : ClusterConfig) (prevPosition : ℕ) : ElectionSm :=
  { sm with prevConfig := prev, prevPosition }

/-! ## Accessors -/

def termAt (sm : ElectionSm) (pos : ℕ) : ℕ := sm.termMap.termAt pos

/-- True while the adopted config's position has not yet committed. -/
def configPending (sm : ElectionSm) : Bool := sm.commitSeen < sm.configPosition

/-- The last carried durable report of `id`. -/
def lastReport (sm : ElectionSm) (id : NodeId) : Option ℕ :=
  (sm.lastReports.find? fun e => e.1 == id).map Prod.snd

def majority (sm : ElectionSm) : ℕ := sm.members.length / 2 + 1

/-- The last `maxTermMapWireEntries` entries of the term map. -/
def termMapWireTail (sm : ElectionSm) : TermMap :=
  sm.termMap.drop (sm.termMap.length - maxTermMapWireEntries)

/-- Dense tracker slot of a member (members minus self, in order). -/
def followerSlot (sm : ElectionSm) (id : NodeId) : Option ℕ :=
  (sm.members.filter (· ≠ sm.id)).findIdx? (· = id)

/-! ## Transitions -/

def haltIfRemovedFollower (sm : ElectionSm) : ElectionSm × List Action :=
  (sm, if sm.selfRemoved then [.haltRemoved] else [])

/-- A higher term was seen. -/
def adoptTerm (newTerm : ℕ) (leader : Option NodeId) (sm : ElectionSm) :
    ElectionSm × List Action :=
  let sm := { sm with
    currentTerm := newTerm
    role := .follower
    serving := false
    awaitingReconcile := true
    newTermPos := none
    votesReceived := []
    votedFor := none }
  andThen (sm, [.becomeFollower newTerm leader]) haltIfRemovedFollower

/-- A leader or candidate gives up. -/
def stepDownToFollower (sm : ElectionSm) : ElectionSm × List Action :=
  let sm := { sm with role := .follower, serving := false, newTermPos := none, votesReceived := [] }
  andThen (sm, [.becomeFollower sm.currentTerm none]) haltIfRemovedFollower

/-- Advance `commitSeen` toward the highest gossiped position, bounded by the
    latch and by the validated frontier. -/
def advanceGossipCommit (sm : ElectionSm) : ElectionSm × List Action :=
  if sm.awaitingReconcile ∨ sm.role = .leader then (sm, [])
  else
    let target := min sm.deferredCommit sm.validatedUpTo
    if sm.commitSeen < target then
      ({ sm with commitSeen := target, commitSource := .gossip }, [.advanceCommit target])
    else (sm, [])

/-- Release the commit-validation latch. -/
def finishValidation (sm : ElectionSm) : ElectionSm × List Action :=
  if sm.awaitingReconcile then advanceGossipCommit { sm with awaitingReconcile := false }
  else (sm, [])

/-- Open the term as leader: drop trailing entries whose base is our durable,
    then push `(currentTerm, durable)`. -/
def becomeLeader (sm : ElectionSm) : ElectionSm × List Action :=
  let sm := { sm with
    role := .leader
    serving := false
    newTermPos := none
    awaitingReconcile := false
    deferredCommit := 0
    lastGossipNs := sm.lastTickNs
    termMap := sm.termMap.rdropWhile (fun e => e.2 == sm.durable) ++ [(sm.currentTerm, sm.durable)]
    tracker := sm.tracker.resetReports
    lastReports := [] }
  (sm, [.becomeLeader sm.currentTerm sm.durable, .shipTermMap sm.termMapWireTail])

/-- Stand for the next term. -/
def startElection (nowNs : ℕ) (sm : ElectionSm) : ElectionSm × List Action :=
  let sm := { sm with
    currentTerm := sm.currentTerm + 1
    role := .candidate
    serving := false
    newTermPos := none
    votedFor := some (sm.currentTerm + 1, sm.id)
    votesReceived := [sm.id] }
  let out : List Action := [
    .persistAndSendVote sm.id ⟨sm.currentTerm, sm.id, sm.id⟩,
    .startElection sm.currentTerm sm.termMap.lastTerm sm.durable]
  let sm := { sm.armTimeout nowNs with pendingLeaderActivity := false }
  andThen (sm, out) fun sm =>
    if sm.majority ≤ sm.votesReceived.length then becomeLeader sm else (sm, [])

/-- Vote, and store the vote. -/
def grantVote (dest : NodeId) (sm : ElectionSm) : ElectionSm × List Action :=
  ({ sm with votedFor := some (sm.currentTerm, dest), pendingLeaderActivity := true },
    [.persistAndSendVote dest ⟨sm.currentTerm, dest, dest⟩])

/-- The candidate's log is no older. -/
def logOk (sm : ElectionSm) (lastTerm lastDurable : ℕ) : Bool :=
  logOkOrder sm.termMap.lastTerm sm.durable lastTerm lastDurable

/-- A candidate asks for our vote. -/
def handleRequestVote (src : NodeId) (lastTerm lastDurable : ℕ) (sm : ElectionSm) :
    ElectionSm × List Action :=
  let freshVote :=
    if sm.logOk lastTerm lastDurable then grantVote src sm
    else (sm, [.sendVoteRejection src sm.currentTerm])
  match sm.votedFor with
  | some (vt, vid) =>
    if vt = sm.currentTerm then
      -- an idempotent re-grant to the same candidate, else a rejection
      if vid = src then grantVote src sm else (sm, [.sendVoteRejection src sm.currentTerm])
    else freshVote
  | none => freshVote

/-- Refresh every structure derived from `config`. -/
def rebuildMembership (carryReports : Bool) (sm : ElectionSm) : ElectionSm :=
  let members := sm.config.voterIds
  let canVote := sm.config.isVoter sm.id
  let nFollowers := if canVote then members.length - 1 else members.length
  let sm := { sm with
    members
    canVote
    votesReceived := sm.votesReceived.filter fun v => members.contains v || v == sm.id
    tracker := CommitTracker.new nFollowers (nFollowers + 1)
    lastReports := sm.lastReports.filter fun e => sm.config.contains e.1 && e.1 != sm.id }
  if carryReports then
    { sm with tracker := sm.lastReports.foldl (fun t e =>
        match sm.followerSlot e.1 with
        | some slot => t.onDurable slot e.2
        | none => t) sm.tracker }
  else sm

/-- A config takes effect. -/
def adoptConfig (position : ℕ) (cfg : ClusterConfig) (sm : ElectionSm) :
    ElectionSm × List Action :=
  let sm := rebuildMembership true { sm with
    prevConfig := sm.config
    prevPosition := sm.configPosition
    config := cfg
    configPosition := position }
  let out := [Action.configAdopted position sm.config sm.prevPosition sm.prevConfig]
  -- a follower halts on its own tombstone; a leader serves until it commits
  if sm.config.tombstones.contains sm.id then
    ({ sm with selfRemoved := true }, out ++ if sm.role = .leader then [] else [.haltRemoved])
  else (sm, out)

/-- Rank the quorum and emit the advance, clamped to the NewTerm position. -/
def rankLeader (nowNs : ℕ) (sm : ElectionSm) : ElectionSm × List Action :=
  let (tracker, ranked) := sm.tracker.advance sm.durable
  let sm := { sm with tracker }
  match ranked, sm.newTermPos with
  | some c, some pos =>
    if sm.commitSeen < c ∧ pos ≤ c then
      let sm := { sm with
        commitSeen := c
        commitSource := .rank
        commitSourceTerm := sm.currentTerm
        lastGossipNs := nowNs
        serving := true }
      let out := [Action.advanceCommit c, .gossipCommit c, .shipTermMap sm.termMapWireTail]
      if !sm.steppedDown && sm.config.tombstones.contains sm.id
          && decide (sm.configPosition ≤ sm.commitSeen) then
        ({ sm with steppedDown := true }, out ++ [.stepDownRemoved])
      else if !sm.steppedDown && sm.config.contains sm.id && !sm.config.isVoter sm.id
          && decide (sm.configPosition ≤ sm.commitSeen) then
        ({ sm with steppedDown := true, role := .follower, serving := false },
          out ++ [.becomeFollower sm.currentTerm none])
      else (sm, out)
    else (sm, [])
  | _, _ => (sm, [])

/-- The tick of a follower or a candidate. -/
def onIdleTick (nowNs : ℕ) (sm : ElectionSm) : ElectionSm × List Action :=
  if sm.pendingLeaderActivity then
    ({ sm with pendingLeaderActivity := false }.armTimeout nowNs, [])
  else if sm.timeoutDeadlineNs ≤ nowNs then
    if sm.canVote then startElection nowNs sm else (sm.armTimeout nowNs, [])
  else (sm, [])

/-- The clock has moved. -/
def onTick (nowNs : ℕ) (sm : ElectionSm) : ElectionSm × List Action :=
  let sm := { sm with lastTickNs := nowNs }
  match sm.role with
  | .leader =>
    andThen (rankLeader nowNs sm) fun sm =>
      if sm.gossipFloorNs ≤ nowNs - sm.lastGossipNs then
        ({ sm with lastGossipNs := nowNs },
          [.gossipCommit sm.commitSeen, .shipTermMap sm.termMapWireTail])
      else (sm, [])
  | .follower | .candidate => onIdleTick nowNs sm

/-- Issue a truncation to `target`: allocate its epoch and latch the data plane. -/
def issueTruncate (target : ℕ) (newMap : TermMap) (sm : ElectionSm) : ElectionSm × List Action :=
  let epoch := sm.truncationEpoch + 1
  ({ sm with truncationEpoch := epoch, truncatingEpoch := some epoch, pendingNewMap := some newMap },
    [.truncate epoch target newMap])

def noCommonPrefixReason : String :=
  "term-map reconciliation found no common prefix (snapshot install required)"

/-- Reconcile against a leader-shipped map. -/
def reconcileTermMap (entries : TermMap) (sm : ElectionSm) : ElectionSm × List Action :=
  match reconcile sm.termMap sm.durable entries with
  | .noCommonPrefix =>
    if sm.wipeOnNoCommonPrefix then andThen (sm, [.countWipe]) (issueTruncate 0 [])
    else (sm, [.fatal noCommonPrefixReason])
  | .ok o =>
    if o.validUpTo < sm.durable then
      andThen (issueTruncate o.validUpTo o.newMap sm) fun sm =>
        ({ sm with validatedUpTo := o.validUpTo, unconfirmedBoundary := false }, [])
    else
      andThen (andThen (advanceGossipCommit
          { sm with validatedUpTo := o.validUpTo, unconfirmedBoundary := false }) finishValidation)
        fun sm =>
          if o.newMap = sm.termMap then (sm, [])
          else ({ sm with termMap := o.newMap }, [.persistTermMap o.newMap])

/-! ## The step function -/

/-- The archive has come further. -/
def onDurableAdvanced (durable : ℕ) (sm : ElectionSm) : ElectionSm :=
  let prev := sm.durable
  let sm := { sm with durable := max sm.durable durable }
  let frontierIsCurrentTerm := sm.termMap.getLast?.any fun e => e.1 == sm.currentTerm
  if !sm.awaitingReconcile && !sm.unconfirmedBoundary && frontierIsCurrentTerm
      && decide (prev ≤ sm.validatedUpTo) then
    { sm with validatedUpTo := sm.durable }
  else sm

/-- Update the carried report of `src` in place, or push it. -/
def upsertReport (src : NodeId) (durable : ℕ) : List (NodeId × ℕ) → List (NodeId × ℕ)
  | [] => [(src, durable)]
  | (id, d) :: reports =>
    if id = src then (id, durable) :: reports else (id, d) :: upsertReport src durable reports

/-- A current-term report. -/
def onReport (src : NodeId) (durable durableTerm : ℕ) (sm : ElectionSm) :
    ElectionSm × List Action :=
  if 0 < durable ∧ durableTerm ≠ sm.termAt durable then
    ({ sm with reportsUnattested := sm.reportsUnattested + 1 }, [])
  else
    let sm := if sm.config.contains src && src != sm.id then
      { sm with lastReports := upsertReport src durable sm.lastReports } else sm
    match sm.role, sm.followerSlot src with
    | .leader, some slot =>
      rankLeader sm.lastTickNs { sm with tracker := sm.tracker.onDurable slot durable }
    | _, _ => (sm, [])

/-- A gossiped commit of the current term. -/
def onCommitGossip (term commit : ℕ) (sm : ElectionSm) : ElectionSm × List Action :=
  let sm := { sm with pendingLeaderActivity := true }
  andThen (if sm.role = .candidate then stepDownToFollower sm else (sm, [])) fun sm =>
    if sm.role ≠ .leader ∧ sm.commitSeen < commit then
      advanceGossipCommit
        { sm with deferredCommit := max sm.deferredCommit commit, commitSourceTerm := term }
    else (sm, [])

/-- A vote for us, or a refusal. -/
def onVote (src : NodeId) (granted : Bool) (sm : ElectionSm) : ElectionSm × List Action :=
  if ¬ sm.members.contains src then (sm, [])
  else if granted ∧ sm.role = .candidate then
    let sm := if sm.votesReceived.contains src then sm
      else { sm with votesReceived := sm.votesReceived ++ [src] }
    if sm.majority ≤ sm.votesReceived.length then becomeLeader sm else (sm, [])
  else (sm, [])

/-- A frame of a new term. -/
def onDataTermObserved (term base : ℕ) (sm : ElectionSm) : ElectionSm × List Action :=
  if sm.termMap.lastTerm < term then
    let sm := { sm with
      termMap := sm.termMap ++ [(term, base)]
      validatedUpTo := min sm.validatedUpTo base
      unconfirmedBoundary := true }
    (sm, [.persistTermMap sm.termMap])
  else (sm, [])

/-- The config revert of a matching truncation ack. -/
def revertConfig (target : ℕ) (sm : ElectionSm) : ElectionSm × List Action :=
  if target < sm.configPosition ∧ sm.revertOnTruncate then
    let sm :=
      if target = 0 then
        -- wipe-and-rejoin keeps the current config by fiat
        { sm with configPosition := 0, prevConfig := sm.config, prevPosition := 0 }
      else { sm with config := sm.prevConfig, configPosition := sm.prevPosition }
    let sm := rebuildMembership false sm
    (sm, [.configAdopted sm.configPosition sm.config sm.prevPosition sm.prevConfig])
  else (sm, [])

/-- The archive has cut. -/
def onTruncated (epoch target : ℕ) (sm : ElectionSm) : ElectionSm × List Action :=
  -- physical truncation is the truth about durability, whatever the epoch
  let sm := { sm with durable := min sm.durable target }
  if sm.truncatingEpoch ≠ some epoch then (sm, [])
  else
    let sm := { sm with
      termMap := sm.pendingNewMap.getD sm.termMap
      pendingNewMap := none
      truncatingEpoch := none }
    andThen (finishValidation sm) (revertConfig target)

/-- Adopt a strictly higher term before going on. -/
def adoptIfHigher (term : ℕ) (sm : ElectionSm) : ElectionSm × List Action :=
  if sm.currentTerm < term then adoptTerm term none sm else (sm, [])

/-- The body of `step` below the truncating latch. -/
def stepBody (ev : Event) (sm : ElectionSm) : ElectionSm × List Action :=
  match ev with
  | .tick nowNs => onTick nowNs sm
  | .durableAdvanced durable => (onDurableAdvanced durable sm, [])
  | .newTermAppended position =>
    if sm.role = .leader then
      ({ sm with
          newTermPos := some position
          serving := sm.serving || decide (position ≤ sm.commitSeen) }, [])
    else (sm, [])
  | .leaderSeen term =>
    if term < sm.currentTerm then (sm, [])
    else andThen (adoptIfHigher term sm) fun sm =>
      let sm := { sm with pendingLeaderActivity := true }
      if sm.role = .candidate then stepDownToFollower sm else (sm, [])
  | .report src term durable durableTerm =>
    if term < sm.currentTerm then (sm, [])
    else if sm.currentTerm < term then adoptTerm term none sm
    else onReport src durable durableTerm sm
  | .commitGossip term commit =>
    if term < sm.currentTerm then (sm, [])
    else andThen (adoptIfHigher term sm) (onCommitGossip term commit)
  | .requestVote src newTerm lastTerm lastDurable =>
    if ¬ sm.members.contains src then (sm, [])
    else if ¬ sm.canVote then adoptIfHigher newTerm sm
    else if newTerm < sm.currentTerm then (sm, [.sendVoteRejection src sm.currentTerm])
    else andThen (adoptIfHigher newTerm sm) (handleRequestVote src lastTerm lastDurable)
  | .vote src term granted =>
    if term < sm.currentTerm then (sm, [])
    else if sm.currentTerm < term then adoptTerm term none sm
    else onVote src granted sm
  | .termMapReceived term entries =>
    if term < sm.currentTerm then (sm, [])
    else andThen (adoptIfHigher term sm) (reconcileTermMap entries)
  | .dataTermObserved term base => onDataTermObserved term base sm
  | .truncated epoch target => onTruncated epoch target sm
  | .configObserved position config =>
    if config.version ≤ sm.config.version then (sm, []) else adoptConfig position config sm

/-- One event.  While a truncation is in flight, data-plane events are dropped. -/
def step (sm : ElectionSm) (ev : Event) : ElectionSm × List Action :=
  if sm.truncatingEpoch.isSome && !ev.passesLatch then (sm, [])
  else stepBody ev sm

/-! ## Calls outside the event stream -/

/-- Adopt the leader's term-map lineage on installing a snapshot. -/
def adoptSnapshotLineage (lineage : TermMap) (sm : ElectionSm) : ElectionSm :=
  if lineage.isEmpty then sm
  else { sm with termMap := lineage, currentTerm := max sm.currentTerm lineage.lastTerm }

/-- Config-by-fiat on a snapshot install. -/
def adoptSnapshotConfig (position : ℕ) (config : ClusterConfig) (sm : ElectionSm) : ElectionSm :=
  rebuildMembership false { sm with
    config
    prevConfig := config
    configPosition := position
    prevPosition := position }

/-- Leader-only membership proposal; `slack` is the catch-up gap a learner may
    have and still be promoted. -/
def proposeConfig (sm : ElectionSm) (op : ConfigOp) (slack : ℕ) :
    Except ProposeError ClusterConfig :=
  if sm.role ≠ .leader then .error .notLeader
  else if !sm.serving then .error .notServing
  else if sm.configPending then .error .changePending
  else if op = .demoteVoter sm.id then .error .selfDemote
  else
    match op with
    | .promoteLearner id =>
      let reported := (sm.lastReport id).getD 0
      let target := sm.commitSeen - slack
      if reported < target then .error (.notCaughtUp (target - reported)) else sm.config.apply op
    | _ => sm.config.apply op

end ElectionSm

end UltimaCluster
