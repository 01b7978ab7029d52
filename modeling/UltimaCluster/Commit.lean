/-
  Quorum commit ranking (`uc_consensus/src/commit.rs`): the commit position is
  the quorum-th highest of the leader's own durable and the reported follower
  durables, bounded by the leader's own durable, and monotonic.
-/
import Mathlib.Data.List.Sort

namespace UltimaCluster

/-- The leader's count of durable reports. -/
structure CommitTracker where
  /-- The latest reported durable per follower slot (not a high-water mark). -/
  reported : List ℕ
  quorum : ℕ
  commit : ℕ
deriving DecidableEq, Inhabited

namespace CommitTracker

/-- The two assertions of the constructor (`nFollowers < clusterSize`, and
    enough tracked followers to reach a quorum) hold at both call sites of
    `ElectionSm`, where `clusterSize = nFollowers + 1`. -/
def new (nFollowers clusterSize : ℕ) : CommitTracker :=
  { reported := List.replicate nFollowers 0, quorum := clusterSize / 2 + 1, commit := 0 }

/-- Record a follower's reported durable, as given. -/
def onDurable (t : CommitTracker) (followerIdx durable : ℕ) : CommitTracker :=
  { t with reported := t.reported.set followerIdx durable }

/-- Clear the reports on a term transition; `commit` stays. -/
def resetReports (t : CommitTracker) : CommitTracker :=
  { t with reported := t.reported.map fun _ => 0 }

/-- The ranking: sort `{own} ∪ reported` in descending order, take the
    quorum-th entry, bound it by `own`. -/
def ranked (t : CommitTracker) (ownDurable : ℕ) : ℕ :=
  min (((ownDurable :: t.reported).insertionSort (· ≥ ·)).getD (t.quorum - 1) 0) ownDurable

/-- Rank the quorum; `some` iff the tracker's commit advanced. -/
def advance (t : CommitTracker) (ownDurable : ℕ) : CommitTracker × Option ℕ :=
  if t.commit < t.ranked ownDurable then
    ({ t with commit := t.ranked ownDurable }, some (t.ranked ownDurable))
  else (t, none)

end CommitTracker

end UltimaCluster
