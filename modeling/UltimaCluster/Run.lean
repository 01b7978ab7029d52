/-
  Runs of one election state machine: a boot state, then any sequence of
  inputs.  An input is an event, or one of the two calls a snapshot install
  makes outside the event stream.
-/
import Mathlib.Order.MinMax
import UltimaCluster.Effects

namespace UltimaCluster

/-- An event, or a snapshot's install. -/
inductive Input where
  | event (ev : Event)
  | snapshotLineage (lineage : TermMap)
  | snapshotConfig (position : ℕ) (config : ClusterConfig)
deriving DecidableEq

namespace ElectionSm

/-- One input. -/
def exec (sm : ElectionSm) : Input → ElectionSm × List Action
  | .event ev => sm.step ev
  | .snapshotLineage lineage => (adoptSnapshotLineage lineage sm, [])
  | .snapshotConfig position config => (adoptSnapshotConfig position config sm, [])

/-- A boot state: built from any recovered vote, map and durable, the record's
    previous config restored or not. -/
inductive Boot : ElectionSm → Prop
  | fresh {cfg vote map durable nowNs sm} :
      new cfg vote map durable nowNs = some sm → Boot sm
  | restored {cfg vote map durable nowNs sm} (prev : ClusterConfig) (prevPosition : ℕ) :
      new cfg vote map durable nowNs = some sm → Boot (sm.restorePrevConfig prev prevPosition)

/-- What a boot state looks like, whatever was recovered. -/
structure BootState (sm : ElectionSm) : Prop where
  role : sm.role = .follower
  validated : sm.validatedUpTo = sm.durable
  notTruncating : sm.truncatingEpoch = none
  noPendingMap : sm.pendingNewMap = none
  noNewTerm : sm.newTermPos = none
  commitSeen : sm.commitSeen = 0
  deferred : sm.deferredCommit = 0
  members : sm.members = sm.config.voterIds
  canVote : sm.canVote = sm.config.isVoter sm.id
  tracker : sm.tracker = CommitTracker.new (sm.members.length - 1) sm.members.length
  noReports : sm.lastReports = []
  mapTerm : sm.termMap.lastTerm ≤ sm.currentTerm
  /-- A term known from the recovered vote only is entered with the latch armed. -/
  latch : sm.termMap.lastTerm < sm.currentTerm → sm.awaitingReconcile

variable {sm : ElectionSm}

theorem new_bootState {cfg : ElectionConfig} {vote : Option (ℕ × NodeId)} {map : TermMap}
    {durable nowNs : ℕ} (h : new cfg vote map durable nowNs = some sm) : BootState sm := by
  unfold new at h
  dsimp only at h
  split_ifs at h
  cases h
  obtain ⟨r, d, hf⟩ := armTimeout_frame _ nowNs
  rw [hf]
  refine ⟨rfl, rfl, rfl, rfl, rfl, rfl, rfl, rfl, rfl, rfl, rfl, le_max_right _ _, ?_⟩
  intro hlt
  refine decide_eq_true ?_
  exact (lt_max_iff.mp hlt).resolve_right (lt_irrefl _)

theorem Boot.state (h : Boot sm) : BootState sm := by
  cases h with
  | fresh h => exact new_bootState h
  | restored prev prevPosition h =>
    obtain ⟨h1, h2, h3, h4, h5, h6, h7, h8, h9, h10, h11, h12, h13⟩ := new_bootState h
    exact ⟨h1, h2, h3, h4, h5, h6, h7, h8, h9, h10, h11, h12, h13⟩

/-- The state after a sequence of inputs. -/
def run (sm : ElectionSm) (is : List Input) : ElectionSm := is.foldl (fun s i => (s.exec i).1) sm

@[simp] theorem run_nil (sm : ElectionSm) : sm.run [] = sm := rfl

@[simp] theorem run_cons (sm : ElectionSm) (i : Input) (is : List Input) :
    sm.run (i :: is) = (sm.exec i).1.run is := rfl

@[simp] theorem run_append (sm : ElectionSm) (is js : List Input) :
    sm.run (is ++ js) = (sm.run is).run js := by
  simp [run, List.foldl_append]

/-- The actions of a run, in order. -/
def outputs (sm : ElectionSm) : List Input → List Action
  | [] => []
  | i :: is => (sm.exec i).2 ++ outputs (sm.exec i).1 is

@[simp] theorem outputs_append (sm : ElectionSm) (is js : List Input) :
    sm.outputs (is ++ js) = sm.outputs is ++ (sm.run is).outputs js := by
  induction is generalizing sm with
  | nil => rfl
  | cons i is ih => simp [outputs, ih]

/-- Every step of the run meets the condition `C` in the state it is taken in. -/
def StepsMeet (C : ElectionSm → Input → Prop) (sm : ElectionSm) (is : List Input) : Prop :=
  ∀ before i after, is = before ++ i :: after → C (sm.run before) i

@[simp] theorem stepsMeet_nil (C : ElectionSm → Input → Prop) (sm : ElectionSm) :
    StepsMeet C sm [] := by
  intro before i after h
  simp at h

variable {C : ElectionSm → Input → Prop} {i : Input} {is : List Input}

theorem stepsMeet_cons : StepsMeet C sm (i :: is) ↔ C sm i ∧ StepsMeet C (sm.exec i).1 is := by
  constructor
  · intro h
    refine ⟨h [] i is rfl, ?_⟩
    rintro before j after rfl
    exact h (i :: before) j after rfl
  · rintro ⟨hi, his⟩ before j after h
    cases before with
    | nil => cases h; exact hi
    | cons k before => cases h; exact his before j after rfl

theorem StepsMeet.init (h : StepsMeet C sm (is ++ [i])) : StepsMeet C sm is := by
  rintro before j after rfl
  exact h before j (after ++ [i]) (by simp)

theorem StepsMeet.last (h : StepsMeet C sm (is ++ [i])) : C (sm.run is) i :=
  h is i [] rfl

theorem stepsMeet_concat : StepsMeet C sm (is ++ [i]) ↔ StepsMeet C sm is ∧ C (sm.run is) i := by
  constructor
  · intro h
    exact ⟨h.init, h.last⟩
  · induction is generalizing sm with
    | nil =>
      rintro ⟨-, hi⟩
      exact stepsMeet_cons.mpr ⟨hi, stepsMeet_nil C _⟩
    | cons j is ih =>
      rintro ⟨his, hi⟩
      obtain ⟨hj, his⟩ := stepsMeet_cons.mp his
      exact stepsMeet_cons.mpr ⟨hj, ih ⟨his, hi⟩⟩

/-- The invariant rule: what every step under `C` preserves holds after every
    run whose steps meet `C`. -/
theorem run_invariant {P : ElectionSm → Prop} (h0 : P sm)
    (hstep : ∀ s i, P s → C s i → P (s.exec i).1) (is : List Input) (hC : StepsMeet C sm is) :
    P (sm.run is) := by
  induction is using List.reverseRecOn with
  | nil => exact h0
  | append_singleton is i ih =>
    rw [run_append]
    exact hstep _ _ (ih hC.init) hC.last

/-- The window that a leader of term `first + 63` ships whose 64 last terms
    begin at `base` and are 64 bytes long each. -/
def slidWindow (first base : ℕ) : TermMap :=
  (List.range maxTermMapWireEntries).map fun i => (first + i, base + 64 * i)

/-- The boot of node `id` of a genesis cluster, with what it recovered. -/
def genesisNode (id : NodeId) (voters : List NodeId) (vote : Option (ℕ × NodeId))
    (map : TermMap) (durable : ℕ) : ElectionSm :=
  (new
    { id, config := .genesis (voters.map fun v => (v, 0, v)) [], configPosition := 0
      electionTimeoutMinNs := 10, electionTimeoutMaxNs := 20, gossipFloorNs := 5, seed := 1 }
    vote map durable 0).getD default

theorem genesisNode_new (id v : NodeId) (voters : List NodeId) (vote : Option (ℕ × NodeId))
    (map : TermMap) (durable : ℕ) : new
    { id, config := .genesis ((v :: voters).map fun v => (v, 0, v)) [], configPosition := 0
      electionTimeoutMinNs := 10, electionTimeoutMaxNs := 20, gossipFloorNs := 5, seed := 1 }
    vote map durable 0 = some (genesisNode id (v :: voters) vote map durable) := by
  unfold genesisNode new
  dsimp only
  rw [if_neg (by simp [ClusterConfig.genesis, ClusterConfig.voterIds]),
    if_neg (by simp [ClusterConfig.isVoter_eq_contains]), if_neg (by decide)]
  rfl

theorem genesisNode_boot (id v : NodeId) (voters : List NodeId) (vote : Option (ℕ × NodeId))
    (map : TermMap) (durable : ℕ) : Boot (genesisNode id (v :: voters) vote map durable) :=
  .fresh (genesisNode_new id v voters vote map durable)

end ElectionSm

end UltimaCluster
