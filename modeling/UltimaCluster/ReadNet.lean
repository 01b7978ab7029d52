/-
  A cluster that serves linearizable reads: the read barrier of every node over
  the election state machines, and the probes and acks between them.

  Probes and acks are never taken back, so one may arrive late, twice, out of
  order or never.  The clock counts the steps; what is sent or admitted by a
  step is stamped with the number of the state that the step leads to.
-/
import UltimaCluster.ReadRound

namespace UltimaCluster

/-- A round's probe. -/
structure Probe where
  nonce : ℕ
  src : NodeId
  term : ℕ
  targets : List NodeId
  sentAt : ℕ
deriving DecidableEq

/-- An ack, with the stamp of the probe that it answers. -/
structure Ack where
  nonce : ℕ
  src : NodeId
  dest : NodeId
  term : ℕ
  sentAt : ℕ
  probedAt : ℕ
deriving DecidableEq

/-- A read that passed to `AwaitApplied`, with the voters of that moment, the
    leader included. -/
structure Certificate where
  leader : NodeId
  voters : List NodeId
  read : PendingRead
  certifiedAt : ℕ
deriving DecidableEq

/-- The cluster with its readers. -/
structure ReadCluster where
  cluster : Cluster
  readers : NodeId → Reader
  /-- Every probe sent so far. -/
  probes : List Probe
  /-- Every ack sent so far. -/
  acks : List Ack
  certified : List Certificate
  clock : ℕ

/-- A step of the cluster or of a reader. -/
inductive ReadStep where
  /-- A step of the cluster below. -/
  | cluster (st : Step)
  | drainQueryRing (n : NodeId) (gate : Bool) (hasServiceRing : UInt8 → Bool)
      (qs : List QueryRecord) (commit nowNs : ℕ)
  | advancePendingReads (n : NodeId) (slot : PendingRead → ServiceSlot) (commit nowNs : ℕ)
  /-- A probe arrives at `n`. -/
  | readProbe (n : NodeId) (p : Probe)
  /-- An ack arrives at the node that probed. -/
  | readProbeAck (a : Ack)

/-! ## One node -/

namespace Reader

/-- The actions of one event are carried out; the tick ends the pass. -/
def feed (sm : ElectionSm) (ev : Event) (rd : Reader) : Reader :=
  let rd := (sm.step ev).2.foldl obey rd
  match ev with
  | .tick _ => rd.endPass
  | _ => rd

end Reader

namespace ReadCluster

/-- A node's election state machine. -/
def sm (w : ReadCluster) (n : NodeId) : ElectionSm := (w.cluster.nodes n).sm

/-- The event that a step of the cluster feeds to a state machine. -/
def fed (c : Cluster) : Step → Option (NodeId × Event)
  | .event n ev => some (n, ev)
  | .propose n op slack position =>
    match (c.nodes n).sm.proposeConfig op slack with
    | .ok config => some (n, .configObserved position config)
    | .error _ => none
  | _ => none

/-- An event is fed at its place in the duty cycle. -/
def InPass (pass : Pass) : Event → Prop
  | .tick _ => pass = .tick
  | _ => pass = .drain

instance (pass : Pass) : (ev : Event) → Decidable (InPass pass ev)
  | .tick _ => inferInstanceAs (Decidable (_ = _))
  | .leaderSeen _ | .durableAdvanced _ | .newTermAppended _ | .dataTermObserved _ _
  | .truncated _ _ | .configObserved _ _ | .report _ _ _ _ | .commitGossip _ _
  | .requestVote _ _ _ _ | .vote _ _ _ | .termMapReceived _ _ =>
    inferInstanceAs (Decidable (pass = .drain))

/-- What can happen next. -/
def Possible (w : ReadCluster) : ReadStep → Prop
  | .cluster st => w.cluster.Possible st ∧
      ∀ e ∈ fed w.cluster st, InPass (w.readers e.1).pass e.2
  | .drainQueryRing n _ _ _ _ _ => (w.readers n).pass = .drain
  | .advancePendingReads n _ _ _ => (w.readers n).pass = .advance
  | .readProbe n p => (w.readers n).pass = .drain ∧ p ∈ w.probes ∧ n ∈ p.targets
  | .readProbeAck a => (w.readers a.dest).pass = .drain ∧ a ∈ w.acks

instance (w : ReadCluster) : (st : ReadStep) → Decidable (w.Possible st)
  | .cluster _ => inferInstanceAs (Decidable (_ ∧ _))
  | .drainQueryRing _ _ _ _ _ _ => inferInstanceAs (Decidable (_ = _))
  | .advancePendingReads _ _ _ _ => inferInstanceAs (Decidable (_ = _))
  | .readProbe _ _ => inferInstanceAs (Decidable (_ ∧ _ ∧ _))
  | .readProbeAck _ => inferInstanceAs (Decidable (_ ∧ _))

def setReader (w : ReadCluster) (n : NodeId) (rd : Reader) : NodeId → Reader :=
  fun m => if m = n then rd else w.readers m

def probesOf (n : NodeId) (now : ℕ) (out : List ReadAction) : List Probe :=
  out.filterMap fun a => match a with
    | .sendReadProbe nonce term targets => some ⟨nonce, n, term, targets, now⟩
    | _ => none

def certificatesOf (n : NodeId) (config : ClusterConfig) (now : ℕ) (out : List ReadAction) :
    List Certificate :=
  out.filterMap fun a => match a with
    | .certified read => some ⟨n, n :: config.voterIds.filter (· != n), read, now⟩
    | _ => none

/-- A function of the read barrier ran at `n`: `r` is what it returns. -/
def perform (w : ReadCluster) (n : NodeId) (r : Reader × List ReadAction) : ReadCluster :=
  { w with
    readers := w.setReader n r.1
    probes := probesOf n (w.clock + 1) r.2 ++ w.probes
    certified := certificatesOf n (w.sm n).config (w.clock + 1) r.2 ++ w.certified
    clock := w.clock + 1 }

/-- One step of the cluster. -/
def exec (w : ReadCluster) : ReadStep → ReadCluster
  | .cluster (.restart n map durable nowNs seed) =>
    let c := w.cluster.exec (.restart n map durable nowNs seed)
    { w with
      cluster := c
      readers := w.setReader n (.start n (c.nodes n).sm.config (w.clock + 1))
      clock := w.clock + 1 }
  | .cluster st =>
    { w with
      cluster := w.cluster.exec st
      readers := match fed w.cluster st with
        | some (n, ev) => w.setReader n ((w.readers n).feed (w.sm n) ev)
        | none => w.readers
      clock := w.clock + 1 }
  | .drainQueryRing n gate hasServiceRing qs commit nowNs =>
    w.perform n ((w.readers n).drainQueryRing (w.sm n) gate hasServiceRing qs (w.clock + 1) commit
      nowNs)
  | .advancePendingReads n slot commit nowNs =>
    w.perform n ((w.readers n).advancePendingReads (w.sm n) slot (w.clock + 1) commit nowNs)
  | .readProbe n p =>
    { w with
      acks := if (w.readers n).onReadProbe (w.sm n) p.src p.term then
          ⟨p.nonce, n, p.src, (w.sm n).currentTerm, w.clock + 1, p.sentAt⟩ :: w.acks
        else w.acks
      clock := w.clock + 1 }
  | .readProbeAck a => w.perform a.dest ((w.readers a.dest).onReadProbeAck a.nonce a.src)

/-- The state after a sequence of steps. -/
def run (w : ReadCluster) (sts : List ReadStep) : ReadCluster := sts.foldl exec w

/-- Every step is possible where it is taken, and meets `C` there. -/
def Runs (C : ReadCluster → ReadStep → Prop) (w : ReadCluster) (sts : List ReadStep) : Prop :=
  Trace.Admits exec (fun w st => w.Possible st ∧ C w st) w sts

instance (C : ReadCluster → ReadStep → Prop) [∀ w st, Decidable (C w st)] (w : ReadCluster)
    (sts : List ReadStep) : Decidable (Runs C w sts) :=
  inferInstanceAs (Decidable (Trace.Admits _ _ _ _))

/-- A fresh cluster in which no read has been asked for. -/
structure Genesis (genesis : ClusterConfig) (w : ReadCluster) : Prop where
  cluster : w.cluster.Genesis genesis
  readers : ∀ n, w.readers n = .start n genesis 0
  probes : w.probes = []
  acks : w.acks = []
  certified : w.certified = []
  clock : w.clock = 0

end ReadCluster

end UltimaCluster
