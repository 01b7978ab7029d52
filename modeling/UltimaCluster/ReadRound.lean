/-
  The read barrier of one node: probe rounds and the reads that wait for them.

  A linearizable read waits for a quorum of acks to a nonce'd probe
  (`AwaitQuorum`), then for its service to catch up (`AwaitApplied`).  One probe
  round is in flight at a time; it certifies the reads that were waiting when it
  was issued.  The functions are those of `uc_node/src/node.rs` and
  `uc_node/src/read_round.rs`; each returns what it sends.  Some fields record
  for the proofs what the node does not keep: when a read was admitted and in
  which term, when a round was issued, when the process started.
-/
import UltimaCluster.Cluster

namespace UltimaCluster

def probeRetransmitNs : ℕ := 2000000

def queryDrainPerCycle : ℕ := 64

def readBarrierTimeoutNs : ℕ := 1000000000

/-! ## Rounds -/

/-- The one probe round in flight. -/
structure ProbeRound where
  seq : ℕ
  nonce : ℕ
  term : ℕ
  commitAtIssue : ℕ
  ackers : List NodeId
  quorum : ℕ
  lastSendNs : ℕ
  issuedAt : ℕ
deriving DecidableEq

namespace ProbeRound

def new (seq nonce quorum : ℕ) (selfId : NodeId) (term commitAtIssue nowNs issuedAt : ℕ) :
    ProbeRound :=
  { seq, nonce, term, commitAtIssue, ackers := [selfId], quorum, lastSendNs := nowNs, issuedAt }

/-- Count a distinct acker; whether the quorum is reached. -/
def recordAck (src : NodeId) (round : ProbeRound) : ProbeRound × Bool :=
  let round := if round.ackers.contains src then round
    else { round with ackers := round.ackers ++ [src] }
  (round, decide (round.quorum ≤ round.ackers.length))

/-- The ordering rule: a read admitted while the round was in flight has a
    larger number. -/
def certifies (round : ProbeRound) (readRoundSeq : ℕ) : Bool := decide (readRoundSeq ≤ round.seq)

def shouldRetransmit (nowNs : ℕ) (round : ProbeRound) : Bool :=
  decide (probeRetransmitNs ≤ nowNs - round.lastSendNs)

def markSent (nowNs : ℕ) (round : ProbeRound) : ProbeRound := { round with lastSendNs := nowNs }

end ProbeRound

/-! ## Reads -/

/-- What a read waits for. -/
inductive ReadPhase where
  | awaitQuorum
  | awaitApplied
deriving DecidableEq

/-- A read that is not served yet. -/
structure PendingRead where
  clientId : ℕ
  localSeq : ℕ
  serviceId : UInt8
  query : List UInt8
  roundSeq : ℕ
  commitAt : ℕ
  deadlineNs : ℕ
  phase : ReadPhase
  term : ℕ
  admittedAt : ℕ
deriving DecidableEq

/-- A record of the query ring, with the clock and the commit counter as the
    node finds them when it takes the record. -/
structure QueryRecord where
  clientId : ℕ
  localSeq : ℕ
  minPosition : Bool
  linearizable : Bool
  payload : List UInt8
  commit : ℕ
  nowNs : ℕ

/-- What the node finds at a service: its slot, and whether its ring has room. -/
structure ServiceSlot where
  epoch : ℕ
  applied : ℕ
  room : Bool

/-- What a reader asks for. -/
inductive ReadAction where
  | sendReadProbe (nonce term : ℕ) (targets : List NodeId)
  /-- The read passes from `AwaitQuorum` to `AwaitApplied`. -/
  | certified (read : PendingRead)
  | sendRetry (clientId localSeq : ℕ)
  | sendNotLeader (clientId localSeq : ℕ)
  | sendBadService (clientId localSeq : ℕ) (serviceId : UInt8)
  | forwardSvcQuery (serviceId : UInt8) (clientId localSeq expectedEpoch : ℕ) (query : List UInt8)
deriving DecidableEq

/-- Where a node is in its duty cycle: it drains the network, then its queries,
    advances the reads and feeds the tick.  A halted node stops after its pass. -/
inductive Pass where
  | drain
  | advance
  | tick
  | parked
deriving DecidableEq

/-! ## The node's part -/

/-- The read barrier's part of a running node. -/
structure Reader where
  id : NodeId
  /-- The ids of `id_to_addr`. -/
  known : List NodeId
  /-- The voters other than the node itself. -/
  peers : List NodeId
  pendingReads : List PendingRead
  currentRound : Option ProbeRound
  nextRoundSeq : ℕ
  nextNonce : ℕ
  jumboGateOpen : Bool
  haltRemoved : Bool
  pass : Pass
  startedAt : ℕ

namespace Reader

/-- The ids of `derive_peer_maps`: every member, and the voters but `id`. -/
def derivePeerMaps (config : ClusterConfig) (id : NodeId) : List NodeId × List NodeId :=
  (config.voterIds ++ config.learnerIds, config.voterIds.filter (· != id))

/-- A process starts: nothing is waiting, and the counters start over. -/
def start (id : NodeId) (config : ClusterConfig) (startedAt : ℕ) : Reader :=
  { id, known := (derivePeerMaps config id).1, peers := (derivePeerMaps config id).2
    pendingReads := [], currentRound := none, nextRoundSeq := 1, nextNonce := 0
    jumboGateOpen := true, haltRemoved := false, pass := .drain, startedAt }

/-- A voter-set change voids the round; the reads wait for the next one. -/
def rebuildPeerMaps (config : ClusterConfig) (rd : Reader) : Reader :=
  { rd with
    known := (derivePeerMaps config rd.id).1, peers := (derivePeerMaps config rd.id).2
    currentRound := none }

/-- The fail-stop park; every read in flight is answered with a retry. -/
def halt (rd : Reader) : Reader :=
  { rd with haltRemoved := true, currentRound := none, pendingReads := [] }

/-- `exec`, as far as it touches the read barrier. -/
def obey (rd : Reader) : Action → Reader
  | .configAdopted _ config _ _ => rd.rebuildPeerMaps config
  | .haltRemoved | .stepDownRemoved => rd.halt
  | _ => rd

/-- Reads are taken. -/
def canServe (sm : ElectionSm) (rd : Reader) : Bool :=
  rd.jumboGateOpen && sm.serving && !rd.haltRemoved

/-- `peers.len().div_ceil(2) + 1`, and `n / 2 + 1` for `n = peers.len() + 1`. -/
def quorum (rd : Reader) : ℕ := (rd.peers.length + 1) / 2 + 1

/-- Let the waiting reads that `sel` picks pass to `AwaitApplied`. -/
def release (sel : PendingRead → Bool) (rd : Reader) : Reader × List ReadAction :=
  let picked := fun r : PendingRead => r.phase == .awaitQuorum && sel r
  ({ rd with pendingReads := rd.pendingReads.map fun r =>
      if picked r then { r with phase := .awaitApplied } else r },
    (rd.pendingReads.filter picked).map .certified)

/-- Issue a round if a read waits for one and none is in flight. -/
def maybeIssueRound (sm : ElectionSm) (now commit nowNs : ℕ) (rd : Reader) :
    Reader × List ReadAction :=
  if rd.currentRound.isSome then (rd, [])
  else if ¬ rd.pendingReads.any (·.phase == .awaitQuorum) then (rd, [])
  else if rd.quorum ≤ 1 then
    -- a sole voter's majority is itself alone
    rd.release fun _ => true
  else
    let round := ProbeRound.new rd.nextRoundSeq rd.nextNonce rd.quorum rd.id sm.currentTerm commit
      nowNs now
    ({ rd with
        nextRoundSeq := rd.nextRoundSeq + 1, nextNonce := rd.nextNonce + 1
        currentRound := some round },
      [.sendReadProbe rd.nextNonce sm.currentTerm rd.peers])

/-- Whether a probe is answered: a stale leader's probe dies here. -/
def onReadProbe (sm : ElectionSm) (src : NodeId) (term : ℕ) (rd : Reader) : Bool :=
  rd.known.contains src && term == sm.currentTerm

/-- Count an ack; the quorum consumes the round.  The ack's term is not looked
    at. -/
def onReadProbeAck (nonce : ℕ) (src : NodeId) (rd : Reader) : Reader × List ReadAction :=
  if ¬ rd.peers.contains src then (rd, [])
  else match rd.currentRound with
    | none => (rd, [])
    | some round =>
      if round.nonce ≠ nonce then (rd, [])
      else
        let r := round.recordAck src
        if r.2 then release (fun read => r.1.certifies read.roundSeq) { rd with currentRound := none }
        else ({ rd with currentRound := some r.1 }, [])

/-- One record of the query ring; min-position reads are parked elsewhere. -/
def takeRecord (sm : ElectionSm) (hasServiceRing : UInt8 → Bool) (now : ℕ) (q : QueryRecord)
    (rd : Reader) : Reader × List ReadAction :=
  if q.minPosition then (rd, [])
  else match q.payload with
    | [] => (rd, [])
    | serviceId :: query =>
      if ¬ hasServiceRing serviceId then (rd, [.sendBadService q.clientId q.localSeq serviceId])
      else if ¬ q.linearizable then (rd, [.forwardSvcQuery serviceId q.clientId q.localSeq 0 query])
      else if ¬ rd.canServe sm then (rd, [.sendNotLeader q.clientId q.localSeq])
      else
        let read : PendingRead := {
          clientId := q.clientId
          localSeq := q.localSeq
          serviceId, query
          roundSeq := rd.nextRoundSeq
          commitAt := q.commit
          deadlineNs := q.nowNs + readBarrierTimeoutNs
          phase := if rd.quorum ≤ 1 then .awaitApplied else .awaitQuorum
          term := sm.currentTerm
          admittedAt := now }
        ({ rd with pendingReads := rd.pendingReads ++ [read] }, [])

/-- A batch of queries. -/
def admitAll (sm : ElectionSm) (hasServiceRing : UInt8 → Bool) (now : ℕ) :
    List QueryRecord → Reader → Reader × List ReadAction
  | [], rd => (rd, [])
  | q :: qs, rd =>
    let r := rd.takeRecord sm hasServiceRing now q
    let r' := admitAll sm hasServiceRing now qs r.1
    (r'.1, r.2 ++ r'.2)

/-- Drain the query ring, with one round for everything admitted. -/
def drainQueryRing (sm : ElectionSm) (gate : Bool) (hasServiceRing : UInt8 → Bool)
    (qs : List QueryRecord) (now commit nowNs : ℕ) (rd : Reader) : Reader × List ReadAction :=
  let r := admitAll sm hasServiceRing now (qs.take queryDrainPerCycle)
    { rd with jumboGateOpen := gate, pass := .advance }
  let r' := r.1.maybeIssueRound sm now commit nowNs
  (r'.1, r.2 ++ r'.2)

/-- The reads that stay; the order in which `swap_remove` leaves them does not
    matter. -/
def sweep (canServe : Bool) (slot : PendingRead → ServiceSlot) (nowNs : ℕ) :
    List PendingRead → List PendingRead × List ReadAction
  | [] => ([], [])
  | r :: rs =>
    let rest := sweep canServe slot nowNs rs
    if r.deadlineNs ≤ nowNs ∨ ¬ canServe then
      (rest.1, .sendRetry r.clientId r.localSeq :: rest.2)
    -- epoch 0 is the sentinel for an unattached service
    else if r.phase = .awaitApplied ∧ 1 ≤ (slot r).epoch ∧ r.commitAt ≤ (slot r).applied ∧
        (slot r).room then
      (rest.1, .forwardSvcQuery r.serviceId r.clientId r.localSeq (slot r).epoch r.query :: rest.2)
    else (r :: rest.1, rest.2)

/-- Re-send the probe of a stuck round, with the same number and nonce. -/
def retransmit (sm : ElectionSm) (nowNs : ℕ) (rd : Reader) : Reader × List ReadAction :=
  match rd.currentRound with
  | none => (rd, [])
  | some round =>
    if round.shouldRetransmit nowNs then
      ({ rd with currentRound := some (round.markSent nowNs) },
        [.sendReadProbe round.nonce sm.currentTerm rd.peers])
    else (rd, [])

/-- Serve, retry or give up. -/
def advancePendingReads (sm : ElectionSm) (slot : PendingRead → ServiceSlot)
    (now commit nowNs : ℕ) (rd : Reader) : Reader × List ReadAction :=
  if rd.pendingReads.isEmpty then ({ rd with currentRound := none, pass := .tick }, [])
  else
    let canServe := rd.canServe sm
    let swept := sweep canServe slot nowNs rd.pendingReads
    let r := retransmit sm nowNs { rd with
      -- a round never survives lost serving or a term change
      currentRound := rd.currentRound.filter fun round => canServe && round.term == sm.currentTerm
      pendingReads := swept.1, pass := .tick }
    let r' := r.1.maybeIssueRound sm now commit nowNs
    (r'.1, swept.2 ++ r.2 ++ r'.2)

/-- The pass ends with the tick. -/
def endPass (rd : Reader) : Reader :=
  { rd with pass := if rd.haltRemoved then .parked else .drain }

end Reader

end UltimaCluster
