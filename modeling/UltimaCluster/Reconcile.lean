/-
  Term-map reconciliation (`uc_consensus/src/reconcile.rs`): a follower compares
  its own term map, bounded by its durable, against the leader's shipped window
  and decides how far its log is still valid.

  A term map is an ascending list of `(term, base)`: the bytes of `term` begin
  at the position `base`.
-/
import Mathlib.Data.List.Basic

namespace UltimaCluster

/-- Terms, with the base of each. -/
abbrev TermMap := List (ℕ × ℕ)

/-- Cap on the number of entries shipped on the wire. -/
def maxTermMapWireEntries : ℕ := 64

/-- How far the logs agree. -/
structure Outcome where
  /-- The position up to which the local log is still valid. -/
  validUpTo : ℕ
  /-- The surviving entries of the follower's own map. -/
  newMap : TermMap
deriving DecidableEq

/-- What `reconcile` answers. -/
inductive Reconcile where
  | ok (o : Outcome)
  | noCommonPrefix
deriving DecidableEq

/-- The loop that counts the longest common run of two maps. -/
def commonRun : TermMap → TermMap → ℕ
  | e :: own, l :: leader => if e = l then commonRun own leader + 1 else 0
  | _, _ => 0

/-- The window's first entry is not in our map: either the window begins
    beyond our whole byte range, or we cut at its base (and at our first entry
    that claims a term at or above the window's first). -/
def reconcileUnaligned (own : TermMap) (ownDurable : ℕ) (first : ℕ × ℕ) : Reconcile :=
  if own ≠ [] ∧ ownDurable < first.2 then .noCommonPrefix
  else if own = [] then .ok { validUpTo := ownDurable, newMap := [] }
  else
    let cut := min ownDurable first.2
    let cut := match own.find? fun e => first.1 ≤ e.1 with
      | some (_, base) => min cut base
      | none => cut
    .ok { validUpTo := cut, newMap := own.filter fun e => e.2 < cut }

/-- The window's first entry is our entry `j`: walk the common run and clamp at
    the first divergence on either side. -/
def reconcileAligned (own : TermMap) (ownDurable : ℕ) (leader : TermMap) (j : ℕ) : Outcome :=
  let k := commonRun (own.drop j) leader
  let validUpTo := ownDurable
  let validUpTo := match own[j + k]? with
    | some (_, base) => min validUpTo base
    | none => validUpTo
  let validUpTo := match leader[k]? with
    | some (_, base) => if base < ownDurable then min validUpTo base else validUpTo
    | none => validUpTo
  { validUpTo, newMap := own.take (j + k) ++ (own.drop (j + k)).filter fun e => e.2 < validUpTo }

/-- Compare our map `own` (bounded by `ownDurable`) against the `leader`'s. -/
def reconcile (own : TermMap) (ownDurable : ℕ) (leader : TermMap) : Reconcile :=
  match leader with
  | [] => .ok { validUpTo := ownDurable, newMap := own }
  | first :: _ =>
    match own.findIdx? fun e => e = first with
    | none => reconcileUnaligned own ownDurable first
    | some j => .ok (reconcileAligned own ownDurable leader j)

end UltimaCluster
