/-
  The linearizability checker (`uc_lincheck/src/checker.rs`): a backtracking search over the
  operations that real time allows next, with a memo of dead ends and a budget of nodes.

  `search` recurses on the operations that remain; the depth is passed as fuel, of which the
  number of operations and one more is enough (`search_follows`).  `explore` is the same search
  without a budget, and counts its nodes.  `Linearizable` is what the checker is for.
-/
import Mathlib.Algebra.GroupWithZero.Nat
import Mathlib.Data.List.Perm.Subperm

namespace UltimaCluster.Lincheck

variable {σ Op Resp : Type*}

/-- A sequential specification.  A read never changes the state. -/
structure SeqModel (σ Op Resp : Type*) where
  init : σ
  step : σ → Op → σ × Resp
  isRead : Op → Bool
  step_of_isRead : ∀ s op, isRead op = true → (step s op).1 = s

/-- One recorded operation; without an outcome it is indeterminate. -/
structure GenEntry (Op Resp : Type*) where
  op : Op
  invoke : ℕ
  ret : ℕ
  outcome : Option Resp
deriving DecidableEq

/-! ## What is checked -/

/-- `a` returned before `b` was invoked; an indeterminate operation never returns. -/
def Precedes (a b : GenEntry Op Resp) : Prop := a.outcome.isSome ∧ a.ret < b.invoke

/-- The specification answers as it was observed. -/
def Replays (M : SeqModel σ Op Resp) : σ → List (GenEntry Op Resp) → Prop
  | _, [] => True
  | s, e :: es => (∀ r ∈ e.outcome, (M.step s e.op).2 = r) ∧ Replays M (M.step s e.op).1 es

/-- Some order of all the `Ok` operations and some of the indeterminate ones respects real
    time and reproduces every observed response. -/
def Linearizable (M : SeqModel σ Op Resp) (entries : List (GenEntry Op Resp)) : Prop :=
  ∃ order some_ : List (GenEntry Op Resp),
    some_.Subperm (entries.filter (·.outcome.isNone)) ∧
    order.Perm (entries.filter (·.outcome.isSome) ++ some_) ∧
    order.Pairwise (fun a b => ¬ Precedes b a) ∧ Replays M M.init order

/-! ## The checker -/

/-- What the checker answers. -/
inductive Verdict where
  | linearizable
  | violation
  | inconclusive
deriving DecidableEq

/-- A normalized operation; `observed` is `none` for an indeterminate one. -/
structure NOp (Op Resp : Type*) where
  op : Op
  observed : Option Resp
  invoke : ℕ
  ret : ℕ
deriving DecidableEq

def u64Max : ℕ := 2 ^ 64 - 1

/-- Indeterminate reads are dropped; the other indeterminate operations never return. -/
def normalize (M : SeqModel σ Op Resp) (entries : List (GenEntry Op Resp)) : List (NOp Op Resp) :=
  entries.filterMap fun e =>
    match e.outcome with
    | none => if M.isRead e.op then none else some ⟨e.op, none, e.invoke, u64Max⟩
    | some r => some ⟨e.op, some r, e.invoke, e.ret⟩

/-- How a search ends. -/
inductive SearchResult where
  | ok
  | noLinearization
  | budgetExceeded
deriving DecidableEq

/-- The operations that remain. -/
def remainingOps (ops : List (NOp Op Resp)) (remaining : List Bool) : List (NOp Op Resp) :=
  ((ops.zip remaining).filter (·.2)).map (·.1)

def minRet (ops : List (NOp Op Resp)) : ℕ := ((ops.map NOp.ret).min?).getD u64Max

/-- The remaining sets and states that lead nowhere. -/
abbrev Visited (σ : Type*) := List (List Bool × σ)

section Search

variable [DecidableEq σ] [DecidableEq Resp] (M : SeqModel σ Op Resp) (ops : List (NOp Op Resp))

/-- The specification's response is the observed one. -/
def respOk (s : σ) (o : NOp Op Resp) : Bool := o.observed.all fun r => (M.step s o.op).2 == r

/-- The operation at `i`, if it remains and may come next. -/
def candidate (remaining : List Bool) (i : ℕ) : Option (NOp Op Resp) :=
  if remaining.getD i false then
    ops[i]?.filter fun o => decide (o.invoke ≤ minRet (remainingOps ops remaining))
  else none

/-- The loop of `search` over the candidates: an early return, or whether some branch ran
    out of budget; with the memo and the budget that are left. -/
def tryOps (child : List Bool → σ → Visited σ → ℕ → SearchResult × Visited σ × ℕ)
    (remaining : List Bool) (s : σ) :
    List ℕ → Bool → Visited σ → ℕ → Option SearchResult × Bool × Visited σ × ℕ
  | [], hit, visited, budget => (none, hit, visited, budget)
  | i :: is, hit, visited, budget =>
    match candidate ops remaining i with
    | none => tryOps child remaining s is hit visited budget
    | some o =>
      -- linearize it
      let r := if respOk M s o then child (remaining.set i false) (M.step s o.op).1 visited budget
        else (.noLinearization, visited, budget)
      if r.1 = .ok then (some .ok, hit, r.2)
      else
        -- drop it: it may never have committed
        let r' := if o.observed.isNone then child (remaining.set i false) s r.2.1 r.2.2
          else (.noLinearization, r.2)
        if r'.1 = .ok then (some .ok, hit, r'.2)
        else
          let hit := hit || r.1 == .budgetExceeded || r'.1 == .budgetExceeded
          if r'.2.2 = 0 then (some .budgetExceeded, hit, r'.2)
          else tryOps child remaining s is hit r'.2.1 r'.2.2

/-- The search of the checker. -/
def search : ℕ → List Bool → σ → Visited σ → ℕ → SearchResult × Visited σ × ℕ
  | 0, _, _, visited, budget => (.budgetExceeded, visited, budget)
  | fuel + 1, remaining, s, visited, budget =>
    if budget = 0 then (.budgetExceeded, visited, 0)
    else if !(remainingOps ops remaining).any (·.observed.isSome) then (.ok, visited, budget - 1)
    else if visited.contains (remaining, s) then (.noLinearization, visited, budget - 1)
    else
      match tryOps M ops (search fuel) remaining s (List.range ops.length) false visited (budget - 1) with
      | (some r, _, rest) => (r, rest)
      | (none, true, rest) => (.budgetExceeded, rest)
      -- only a complete exploration is kept as a dead end
      | (none, false, visited, budget) => (.noLinearization, (remaining, s) :: visited, budget)

/-- `check_model`, with how much of the budget it spent. -/
def checkModel (entries : List (GenEntry Op Resp)) (budget : ℕ) : Verdict × ℕ :=
  let ops := normalize M entries
  let r := search M ops (ops.length + 1) (List.replicate ops.length true) M.init [] budget
  let verdict := match r.1 with
    | .ok => .linearizable
    | .noLinearization => .violation
    | .budgetExceeded => .inconclusive
  (verdict, budget - r.2.2)

/-! ## The search without a budget -/

/-- The loop, with whether it succeeds and the nodes below it. -/
def exploreOps (child : List Bool → σ → Visited σ → Bool × Visited σ × ℕ) (remaining : List Bool)
    (s : σ) : List ℕ → Visited σ → Bool × Visited σ × ℕ
  | [], visited => (false, visited, 0)
  | i :: is, visited =>
    match candidate ops remaining i with
    | none => exploreOps child remaining s is visited
    | some o =>
      let r := if respOk M s o then child (remaining.set i false) (M.step s o.op).1 visited
        else (false, visited, 0)
      if r.1 then r
      else
        let r' := if o.observed.isNone then child (remaining.set i false) s r.2.1
          else (false, r.2.1, 0)
        if r'.1 then (true, r'.2.1, r.2.2 + r'.2.2)
        else
          let rest := exploreOps child remaining s is r'.2.1
          (rest.1, rest.2.1, r.2.2 + r'.2.2 + rest.2.2)

/-- The same without a budget. -/
def explore : ℕ → List Bool → σ → Visited σ → Bool × Visited σ × ℕ
  | 0, _, _, visited => (false, visited, 0)
  | fuel + 1, remaining, s, visited =>
    if !(remainingOps ops remaining).any (·.observed.isSome) then (true, visited, 1)
    else if visited.contains (remaining, s) then (false, visited, 1)
    else
      let r := exploreOps M ops (explore fuel) remaining s (List.range ops.length) visited
      (r.1, if r.1 then r.2.1 else (remaining, s) :: r.2.1, r.2.2 + 1)

/-- The nodes of the whole search. -/
def searchNodes (entries : List (GenEntry Op Resp)) : ℕ :=
  let ops := normalize M entries
  (explore M ops (ops.length + 1) (List.replicate ops.length true) M.init []).2.2

end Search

/-! ## The register -/

/-- A call on a register. -/
inductive RegOp where
  | write (v : ℕ)
  | read
  | cas (old new : ℕ)
deriving DecidableEq

/-- What a register answers. -/
inductive RegResp where
  | ack
  | value (v : Option ℕ)
  | casOk (b : Bool)
deriving DecidableEq

/-- Single CAS register; the state is the current value. -/
def registerModel : SeqModel (Option ℕ) RegOp RegResp where
  init := none
  step
    | _, .write v => (some v, .ack)
    | s, .read => (s, .value s)
    | s, .cas old new => if s = some old then (some new, .casOk true) else (s, .casOk false)
  isRead
    | .read => true
    | _ => false
  step_of_isRead
    | _, .read, _ => rfl

end UltimaCluster.Lincheck
