/-
  A cluster: election state machines with what they keep on disk, and a
  network that delivers what was sent late, twice, out of order or never.

  A step hands one event to one node and carries out its actions as `exec` of
  `uc_node/src/node.rs` does: votes, term maps and config records are stored,
  datagrams are sent.  Messages are never taken back, so a delivery may happen
  at any later time and any number of times.  Purge and snapshots are not part
  of this model.
-/
import UltimaCluster.ConfigRecord
import UltimaCluster.Effects

namespace UltimaCluster

/-- One node: the running state machine, and the state directory. -/
structure Node where
  sm : ElectionSm
  vote : Option (ℕ × NodeId)
  map : TermMap
  record : ConfigRecord

/-- An election won, with the voters that the winner counted over and the map
    that it opened its term with. -/
structure Reign where
  term : ℕ
  leader : NodeId
  voters : List NodeId
  base : ℕ
  map : TermMap
deriving DecidableEq

/-- A membership change that the leader of `term` proposed, and the config it had adopted. -/
structure Change where
  term : ℕ
  base : ClusterConfig
  next : ClusterConfig
deriving DecidableEq

/-- What the receiver agent of `src` told the leader. -/
structure Report where
  src : NodeId
  term : ℕ
  durable : ℕ
  durableTerm : ℕ
deriving DecidableEq

/-- An action of `node`, carried out in `term`. -/
structure Emission where
  node : NodeId
  term : ℕ
  action : Action
deriving DecidableEq

/-- The nodes and all they have sent. -/
structure Cluster where
  nodes : NodeId → Node
  /-- Every action carried out so far. -/
  emitted : List Emission
  /-- Every durable report sent so far. -/
  reports : List Report
  /-- The membership frames appended so far, with their positions. -/
  frames : List (ℕ × ClusterConfig)
  /-- The changes that these frames carry, the newest first. -/
  changes : List Change
  /-- The elections won so far, the newest first. -/
  reigns : List Reign

/-! ## One node -/

namespace Node

/-- `exec`, as far as it writes the state directory. -/
def store (n : Node) : Action → Node
  | .persistAndSendVote _ vote => { n with vote := some (vote.term, vote.votedFor) }
  | .becomeLeader _ _ => { n with map := n.sm.termMap }
  | .persistTermMap newMap => { n with map := newMap }
  -- the map and the record are reverted before the cut is commanded
  | .truncate _ target newMap => { n with map := newMap, record := n.record.revert target }
  | .configAdopted position config prevPosition prev =>
    { n with record := ⟨position, config, prevPosition, prev⟩ }
  | _ => n

/-- An event, and its actions. -/
def feed (n : Node) (ev : Event) : Node :=
  (n.sm.step ev).2.foldl store { n with sm := (n.sm.step ev).1 }

theorem foldl_store_sm (n : Node) (out : List Action) : (out.foldl store n).sm = n.sm := by
  induction out generalizing n with
  | nil => rfl
  | cons a out ih =>
    rw [List.foldl_cons, ih]
    cases a <;> rfl

@[simp] theorem feed_sm (n : Node) (ev : Event) : (n.feed ev).sm = (n.sm.step ev).1 :=
  foldl_store_sm _ _

/-- Boot from the state directory, with the map re-derived from the journal. -/
def boot (n : Node) (map : TermMap) (durable nowNs : ℕ) (seed : UInt64) : Node :=
  if n.record.config.tombstones.contains n.sm.id then n
  else
    let cfg : ElectionConfig := {
      id := n.sm.id
      config := n.record.config
      configPosition := n.record.position
      electionTimeoutMinNs := n.sm.timeoutMinNs
      electionTimeoutMaxNs := n.sm.timeoutMaxNs
      gossipFloorNs := n.sm.gossipFloorNs
      seed }
    match ElectionSm.new cfg n.vote map durable nowNs with
    | some sm => { n with sm := sm.restorePrevConfig n.record.prev n.record.prevPosition, map }
    | none => n

end Node

/-! ## The cluster -/

/-- A step of the cluster. -/
inductive Step where
  /-- One event at one node. -/
  | event (n : NodeId) (ev : Event)
  /-- The receiver agent reports `durable`, with the term of the byte below. -/
  | report (n : NodeId) (durable : ℕ)
  /-- A membership change is proposed, its frame appended up to `position`, and
      adopted at append. -/
  | propose (n : NodeId) (op : ConfigOp) (slack position : ℕ)
  | restart (n : NodeId) (map : TermMap) (durable nowNs : ℕ) (seed : UInt64)

namespace Cluster

/-- Whether `ev` can reach `n`: a datagram was sent to it, a membership frame
    was appended; the events of the node's own agents come at any time. -/
def Deliverable (c : Cluster) (n : NodeId) : Event → Prop
  | .requestVote src newTerm lastTerm lastDurable => src ≠ n ∧
      ∃ e ∈ c.emitted, e.node = src ∧ e.action = .startElection newTerm lastTerm lastDurable
  | .vote src term true => src ≠ n ∧
      ∃ e ∈ c.emitted, e.node = src ∧ e.action = .persistAndSendVote n ⟨term, n, n⟩
  | .vote src term false => src ≠ n ∧
      ∃ e ∈ c.emitted, e.node = src ∧ e.action = .sendVoteRejection n term
  | .commitGossip term commit =>
      ∃ e ∈ c.emitted, e.node ≠ n ∧ e.term = term ∧ e.action = .gossipCommit commit
  | .termMapReceived term entries =>
      ∃ e ∈ c.emitted, e.node ≠ n ∧ e.term = term ∧ e.action = .shipTermMap entries
  | .leaderSeen term => ∃ r ∈ c.reigns, r.leader ≠ n ∧ r.term = term
  | .report src term durable durableTerm => src ≠ n ∧ ⟨src, term, durable, durableTerm⟩ ∈ c.reports
  | .configObserved position config => (position, config) ∈ c.frames
  | _ => True

instance (c : Cluster) (n : NodeId) : (ev : Event) → Decidable (c.Deliverable n ev)
  | .requestVote _ _ _ _ => inferInstanceAs (Decidable (_ ∧ _))
  | .vote _ _ true => inferInstanceAs (Decidable (_ ∧ _))
  | .vote _ _ false => inferInstanceAs (Decidable (_ ∧ _))
  | .commitGossip _ _ => inferInstanceAs (Decidable (∃ e ∈ c.emitted, _))
  | .termMapReceived _ _ => inferInstanceAs (Decidable (∃ e ∈ c.emitted, _))
  | .leaderSeen _ => inferInstanceAs (Decidable (∃ r ∈ c.reigns, _))
  | .report _ _ _ _ => inferInstanceAs (Decidable (_ ∧ _))
  | .configObserved _ _ => inferInstanceAs (Decidable (_ ∈ c.frames))
  | .tick _ | .durableAdvanced _ | .newTermAppended _ | .dataTermObserved _ _ | .truncated _ _ =>
    .isTrue trivial

/-- What the network can deliver. -/
def Possible (c : Cluster) : Step → Prop
  | .event n ev => c.Deliverable n ev
  | .report n durable => durable ≤ min (c.nodes n).sm.validatedUpTo (c.nodes n).sm.durable
  | .propose n op slack _ => ((c.nodes n).sm.proposeConfig op slack).isOk
  -- re-derivation only adds to the stored map
  | .restart n map _ _ _ => (c.nodes n).map <+: map

instance (c : Cluster) : (st : Step) → Decidable (c.Possible st)
  | .event n ev => inferInstanceAs (Decidable (c.Deliverable n ev))
  | .report _ _ => inferInstanceAs (Decidable (_ ≤ _))
  | .propose _ _ _ _ => inferInstanceAs (Decidable (_ = true))
  | .restart _ _ _ _ _ => inferInstanceAs (Decidable (_ <+: _))

/-- The elections that a step of `n` won, `sm` being the state it ends in. -/
def reignsOf (n : NodeId) (sm : ElectionSm) (out : List Action) : List Reign :=
  out.filterMap fun a => match a with
    | .becomeLeader term base => some ⟨term, n, sm.members, base, sm.termMap⟩
    | _ => none

def setNode (c : Cluster) (n : NodeId) (node : Node) : NodeId → Node :=
  fun m => if m = n then node else c.nodes m

/-- Feed `ev` to `n` and carry out its actions. -/
def feed (c : Cluster) (n : NodeId) (ev : Event) : Cluster :=
  let r := (c.nodes n).sm.step ev
  { c with
    nodes := c.setNode n ((c.nodes n).feed ev)
    emitted := r.2.map (fun a => ⟨n, r.1.currentTerm, a⟩) ++ c.emitted
    reigns := reignsOf n r.1 r.2 ++ c.reigns }

/-- One step of the cluster. -/
def exec (c : Cluster) : Step → Cluster
  | .event n ev => c.feed n ev
  | .report n durable =>
    let sm := (c.nodes n).sm
    { c with reports := ⟨n, sm.currentTerm, durable, sm.termAt durable⟩ :: c.reports }
  | .propose n op slack position =>
    match (c.nodes n).sm.proposeConfig op slack with
    | .ok config =>
      let sm := (c.nodes n).sm
      feed { c with
          frames := (position, config) :: c.frames
          changes := ⟨sm.currentTerm, sm.config, config⟩ :: c.changes }
        n (.configObserved position config)
    | .error _ => c
  | .restart n map durable nowNs seed =>
    { c with nodes := c.setNode n ((c.nodes n).boot map durable nowNs seed) }

/-! ## What a step leaves -/

@[simp] theorem feed_nodes_self (c : Cluster) (n : NodeId) (ev : Event) :
    (c.feed n ev).nodes n = (c.nodes n).feed ev := if_pos rfl

theorem feed_nodes_ne (c : Cluster) {n m : NodeId} (h : m ≠ n) (ev : Event) :
    (c.feed n ev).nodes m = c.nodes m := if_neg h

/-! ## Runs -/

/-- The state after a sequence of steps. -/
def run (c : Cluster) : List Step → Cluster
  | [] => c
  | st :: sts => run (c.exec st) sts

@[simp] theorem run_nil (c : Cluster) : c.run [] = c := rfl

@[simp] theorem run_cons (c : Cluster) (st : Step) (sts : List Step) :
    c.run (st :: sts) = (c.exec st).run sts := rfl

@[simp] theorem run_append (c : Cluster) (sts sts' : List Step) :
    c.run (sts ++ sts') = (c.run sts).run sts' := by
  induction sts generalizing c with
  | nil => rfl
  | cons st sts ih => exact ih _

/-- Every step is possible where it is taken, and meets `C` there. -/
def Runs (C : Cluster → Step → Prop) (c : Cluster) : List Step → Prop
  | [] => True
  | st :: sts => c.Possible st ∧ C c st ∧ Runs C (c.exec st) sts

instance instDecidableRuns (C : Cluster → Step → Prop) [∀ c st, Decidable (C c st)] :
    (c : Cluster) → (sts : List Step) → Decidable (Runs C c sts)
  | _, [] => .isTrue trivial
  | c, st :: sts =>
    have := instDecidableRuns C (c.exec st) sts
    inferInstanceAs (Decidable (_ ∧ _ ∧ _))

variable {C : Cluster → Step → Prop} {sts sts' : List Step}

theorem Runs.append {c : Cluster} :
    Runs C c (sts ++ sts') ↔ Runs C c sts ∧ Runs C (c.run sts) sts' := by
  induction sts generalizing c with
  | nil => simp [Runs]
  | cons st sts ih =>
    simp only [List.cons_append, Runs, run_cons, ih, and_assoc]

theorem Runs.invariant {P : Cluster → Prop} {c : Cluster} (h0 : P c)
    (hstep : ∀ c st, P c → c.Possible st → C c st → P (c.exec st)) (h : Runs C c sts) :
    P (c.run sts) := by
  induction sts generalizing c with
  | nil => exact h0
  | cons st sts ih =>
    obtain ⟨hp, hC, hrest⟩ := h
    exact ih (hstep c st h0 hp hC) hrest

/-- A fresh cluster: every node has booted from an empty state directory with
    the genesis config. -/
structure Genesis (genesis : ClusterConfig) (c : Cluster) : Prop where
  booted : ∀ n, ∃ cfg nowNs, cfg.id = n ∧ cfg.config = genesis ∧ cfg.configPosition = 0 ∧
    ElectionSm.new cfg none [] 0 nowNs = some (c.nodes n).sm
  vote : ∀ n, (c.nodes n).vote = none
  map : ∀ n, (c.nodes n).map = []
  record : ∀ n, (c.nodes n).record = .seed genesis
  emitted : c.emitted = []
  reports : c.reports = []
  frames : c.frames = []
  changes : c.changes = []
  reigns : c.reigns = []

end Cluster

end UltimaCluster
