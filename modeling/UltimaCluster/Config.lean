/-
  Cluster membership (`uc_consensus/src/config.rs`): `ClusterConfig` and the
  pure single-server transition `ClusterConfig.apply`, which every
  membership-change path shares.

  Node ids, addresses and versions are natural numbers; a `Vec` is a list.
-/
import Mathlib.Data.List.Nodup

namespace UltimaCluster

/-- A node, as the wire names it. -/
abbrev NodeId := ℕ

/-- `(ipv4, port)`. -/
abbrev Addr := ℕ × ℕ

/-- The cap on voters + learners (tombstones excluded). -/
def maxMembers : ℕ := 8

/-- A membership, with its version. -/
structure ClusterConfig where
  version : ℕ
  voters : List (NodeId × Addr)
  learners : List (NodeId × Addr)
  /-- An id that was ever removed can never rejoin under the same id. -/
  tombstones : List NodeId
deriving DecidableEq, Inhabited

/-- A change of one member. -/
inductive ConfigOp where
  | addLearner (id : NodeId) (addr : Addr)
  | promoteLearner (id : NodeId)
  | demoteVoter (id : NodeId)
  | removeLearner (id : NodeId)
  | removeVoter (id : NodeId)
deriving DecidableEq

/-- Why a change is refused. -/
inductive ProposeError where
  | notLeader
  | notServing
  | changePending
  | tombstoned
  | alreadyPresent
  | notFound
  | wrongRole
  | zeroVoters
  | tooManyMembers
  | notCaughtUp (gap : ℕ)
  | selfDemote
deriving DecidableEq

/-- The id a `ConfigOp` targets. -/
def ConfigOp.opId : ConfigOp → NodeId
  | addLearner id _ | promoteLearner id | demoteVoter id | removeLearner id | removeVoter id => id

namespace ClusterConfig

def genesis (voters learners : List (NodeId × Addr)) : ClusterConfig :=
  { version := 0, voters, learners, tombstones := [] }

def voterIds (c : ClusterConfig) : List NodeId := c.voters.map Prod.fst

def learnerIds (c : ClusterConfig) : List NodeId := c.learners.map Prod.fst

def isVoter (c : ClusterConfig) (id : NodeId) : Bool := c.voters.any fun e => e.1 == id

def isLearner (c : ClusterConfig) (id : NodeId) : Bool := c.learners.any fun e => e.1 == id

/-- Voter or learner (a tombstone is not present). -/
def contains (c : ClusterConfig) (id : NodeId) : Bool := c.isVoter id || c.isLearner id

theorem isVoter_iff (c : ClusterConfig) (id : NodeId) :
    c.isVoter id ↔ id ∈ c.voterIds := by
  simp [isVoter, voterIds]

theorem isVoter_eq_contains (c : ClusterConfig) (id : NodeId) :
    c.isVoter id = c.voterIds.contains id := by
  rw [Bool.eq_iff_iff, isVoter_iff, List.contains_iff_mem]

/-- The single-server transition.  Preconditions in the order of the source:
    tombstone, presence/role, zero voters, member cap. -/
def apply (c : ClusterConfig) (op : ConfigOp) : Except ProposeError ClusterConfig :=
  if c.tombstones.contains op.opId then .error .tombstoned else
  match op with
  | .addLearner id addr =>
    if c.contains id then .error .alreadyPresent
    else if maxMembers ≤ c.voters.length + c.learners.length then .error .tooManyMembers
    else .ok { c with learners := c.learners ++ [(id, addr)], version := c.version + 1 }
  | .promoteLearner id =>
    match c.learners.find? fun e => e.1 == id with
    | some (_, addr) => .ok { c with
        learners := c.learners.eraseP fun e => e.1 == id
        voters := c.voters ++ [(id, addr)]
        version := c.version + 1 }
    | none => if c.isVoter id then .error .wrongRole else .error .notFound
  | .demoteVoter id =>
    match c.voters.find? fun e => e.1 == id with
    | some (_, addr) =>
      if c.voters.length ≤ 1 then .error .zeroVoters
      else .ok { c with
        voters := c.voters.eraseP fun e => e.1 == id
        learners := c.learners ++ [(id, addr)]
        version := c.version + 1 }
    | none => if c.isLearner id then .error .wrongRole else .error .notFound
  | .removeLearner id =>
    match c.learners.find? fun e => e.1 == id with
    | some _ => .ok { c with
        learners := c.learners.eraseP fun e => e.1 == id
        tombstones := c.tombstones ++ [id]
        version := c.version + 1 }
    | none => if c.isVoter id then .error .wrongRole else .error .notFound
  | .removeVoter id =>
    match c.voters.find? fun e => e.1 == id with
    | some _ =>
      if c.voters.length ≤ 1 then .error .zeroVoters
      else .ok { c with
        voters := c.voters.eraseP fun e => e.1 == id
        tombstones := c.tombstones ++ [id]
        version := c.version + 1 }
    | none => if c.isLearner id then .error .wrongRole else .error .notFound

/-- What an accepted operation has checked and what it does. -/
inductive Applied (c : ClusterConfig) : ConfigOp → ClusterConfig → Prop
  | addLearner {id addr} : id ∉ c.tombstones → c.contains id = false →
      c.voters.length + c.learners.length < maxMembers →
      Applied c (.addLearner id addr)
        { c with learners := c.learners ++ [(id, addr)], version := c.version + 1 }
  | promoteLearner {id e} : id ∉ c.tombstones → c.learners.find? (·.1 == id) = some e →
      Applied c (.promoteLearner id)
        { c with learners := c.learners.eraseP (·.1 == id), voters := c.voters ++ [(id, e.2)],
                 version := c.version + 1 }
  | demoteVoter {id e} : id ∉ c.tombstones → c.voters.find? (·.1 == id) = some e →
      1 < c.voters.length →
      Applied c (.demoteVoter id)
        { c with voters := c.voters.eraseP (·.1 == id), learners := c.learners ++ [(id, e.2)],
                 version := c.version + 1 }
  | removeLearner {id e} : id ∉ c.tombstones → c.learners.find? (·.1 == id) = some e →
      Applied c (.removeLearner id)
        { c with learners := c.learners.eraseP (·.1 == id), tombstones := c.tombstones ++ [id],
                 version := c.version + 1 }
  | removeVoter {id e} : id ∉ c.tombstones → c.voters.find? (·.1 == id) = some e →
      1 < c.voters.length →
      Applied c (.removeVoter id)
        { c with voters := c.voters.eraseP (·.1 == id), tombstones := c.tombstones ++ [id],
                 version := c.version + 1 }

theorem apply_applied {c c' : ClusterConfig} {op : ConfigOp} (h : c.apply op = .ok c') :
    c.Applied op c' := by
  unfold apply at h
  split at h
  · cases h
  rename_i ht
  rw [List.contains_iff_mem] at ht
  cases op with
  | addLearner id addr =>
    dsimp only at h
    split_ifs at h with hc hm
    cases h
    exact .addLearner ht (by simpa using hc) (by omega)
  | promoteLearner id =>
    dsimp only at h
    split at h
    · rename_i e addr hfind
      cases h
      exact .promoteLearner (e := (e, addr)) ht hfind
    · split_ifs at h
  | demoteVoter id =>
    dsimp only at h
    split at h
    · rename_i e addr hfind
      split_ifs at h
      cases h
      exact .demoteVoter (e := (e, addr)) ht hfind (by omega)
    · split_ifs at h
  | removeLearner id =>
    dsimp only at h
    split at h
    · rename_i e hfind
      cases h
      exact .removeLearner ht hfind
    · split_ifs at h
  | removeVoter id =>
    dsimp only at h
    split at h
    · rename_i e hfind
      split_ifs at h
      cases h
      exact .removeVoter ht hfind (by omega)
    · split_ifs at h

end ClusterConfig

end UltimaCluster
