/-
  The apply loop of a service (`uc_service/src/apply.rs`), with its start
  (`attach` of `uc_service/src/attach.rs`) and the lag barrier
  (`uc_service/src/lag.rs`).

  A step of a row is the top of a duty cycle or one turn of its loop.  The ring,
  the journal, the store, the slot and the counters are the environment; a turn
  gives what it reads of them.  Left out: the response and the schedule rings, the
  queries, the heartbeat, what is only counted or logged, and the other resources
  that `attach` opens.
-/
import UltimaCluster.ServiceReplay

namespace UltimaCluster

open VersionGate

/-! ## The lag barrier -/

/-- How far a row may run ahead. -/
inductive LagMode where
  | off
  | lockstep
  | bounded (lag : ℕ)
deriving DecidableEq

/-- `Plan::Apply` with its target and `one_frame`; `none` is `Plan::Wait`. -/
def lagPlan (mode : LagMode) (floor cursor : ℕ) (c : Counters) : Option (ℕ × Bool) :=
  if c.head ≤ cursor then some (c.head, false)
  else
    match mode with
    | .off => some (c.head, false)
    | .bounded lag =>
      let cap := min (floor + lag) (2 ^ 64 - 1)
      if cap ≤ cursor then none else some (min c.head cap, false)
    | .lockstep => if floor < cursor then none else some (c.head, true)

/-- `LAG_WAIT_SPINS` and `LAG_WAIT_YIELDS`. -/
def lagWaitTurns : ℕ := 256 + 2048

/-- The plan of a turn: a lockstep row waits for a lower floor to rise. -/
def planned (mode : LagMode) (cursor : ℕ) (c : Counters) : List ℕ → Option (ℕ × Bool)
  | [] => none
  | floor :: floors =>
    (lagPlan mode floor cursor c).or
      (if mode = .lockstep then
        (floors.take lagWaitTurns).findSome? fun floor => lagPlan mode floor cursor c
      else none)

/-! ## The row -/

/-- The loads at the top of a cycle. -/
structure Cycle where
  counters : Counters
  learner : Bool
deriving DecidableEq

/-- `ApplyState`, the published position, and how it failed if it did. -/
structure ServiceRow (σ : Type) extends Work σ where
  cursor : ℕ
  applied : ℕ
  stalled : Option ℕ
  pin : Option (ℕ × ℕ × ℕ)
  attachRecordPos : ℕ
  lag : LagMode
  poisoned : Bool
  streak : ℕ
  /-- The cycle under way. -/
  cycle : Option Cycle
  failed : Option ServiceError

/-- `next_batch`, beyond the target: what the ring gives at the cursor. -/
inductive RingRun where
  | run (frames : List LogFrame)
  | notCommitted
  | overrun
deriving DecidableEq

/-- What a turn reads. -/
structure TurnEnv where
  /-- The floors that the barrier reads. -/
  floors : List ℕ
  read : RingRun
  looks : ℕ → List Look
  busy : ℕ → Bool
  sent : ℕ → Bool
  pass : PassEnv

/-- A step of an attached row. -/
inductive RowStep where
  /-- `try_instance_id`, whether it is the attached one, twice; the counters; the flags. -/
  | begin_ (instance₁ instance₂ : Option Bool) (counters : Counters) (learner : Bool)
  | turn (env : TurnEnv)

/-- What an attach reads. -/
structure AttachEnv where
  view : RowRead
  startSet : Option (ℕ × ℕ)
  /-- The view again, on a pinned row. -/
  reread : RowRead
  frontier : Counters
  open_ : ℕ → Option Bytes
  durable : ℕ
  lag : LagMode

namespace Service

variable {σ : Type} (S : Service σ)

/-! ## Attach -/

/-- The version gate of `attach`. -/
def attachGate : Option (ℕ × ℕ × ℕ) → Option ℕ → Except ServiceError Unit
  | some (origin, _, to_), _ =>
    if sameLine to_ S.version then .ok () else .error (.pinnedVersionMismatch origin to_ S.version)
  | none, some r => if sameLine S.version r then .ok () else .error (.versionMismatch r S.version)
  | none, none => .ok ()

/-- The start set at attach: the position if it was taken, the state machine, and
    whether the row is already past it. -/
def attachStartSet (env : AttachEnv) (pin : Option (ℕ × ℕ × ℕ)) (recordPos : ℕ) (sm : σ) :
    Except ServiceError (Option ℕ × σ × Bool) :=
  if S.restores && startSetPermitted pin env.view recordPos env.startSet then
    let resume := ((S.machine.lastApplied sm).getD 0).toNat
    let pastIt := env.startSet.any fun s => s.1 ≤ resume && sameLine s.2 S.version
    match installStartSet S.machine S.version sm env.startSet resume env.frontier.head env.open_ with
    | .error e => .error e
    | .ok none => .ok (none, sm, pastIt)
    | .ok (some (pos, sm)) => .ok (some pos, sm, pastIt)
  else .ok (none, sm, false)

/-- The artifact at the pinned origin, built on the line of `from`. -/
def pinnedInstall (env : AttachEnv) (origin from_ : ℕ) (sm : σ) : Except ServiceError σ :=
  if !S.restores then .error (.pinRequiresSnapshots origin)
  else
    match env.open_ origin with
    | none => .error (.pinnedArtifactMissing origin)
    | some file =>
      match verifySnapshotEnvelope file origin (some from_) with
      | .error e => .error (.mistaggedSnapshot origin e)
      | .ok payload =>
        match S.machine.installSnapshot sm (.ofNat origin) payload with
        | .error e => .error (.install origin e)
        | .ok (sm, installed) =>
          if installLanded origin installed (S.machine.lastApplied sm) then .ok sm
          else .error (.landed origin (S.machine.lastApplied sm) installed)

/-- The row as it is published, within the bounds of the journal. -/
def published (env : AttachEnv) (pin : Option (ℕ × ℕ × ℕ)) (recordPos : ℕ) (sm : σ)
    (startPos : Option ℕ) : Except ServiceError (ServiceRow σ) :=
  let smPos := ((S.machine.lastApplied sm).getD 0).toNat
  let startPos := startPos.getD smPos
  if env.durable < smPos then .error (.drift smPos env.durable)
  else if env.durable < startPos then .error (.drift startPos env.durable)
  else
    .ok
      { sm, events := [], built := [], cursor := startPos, applied := startPos, stalled := none, pin
        attachRecordPos := recordPos, lag := env.lag, poisoned := false, streak := 0, cycle := none
        failed := none }

/-- A service starts. -/
def attach (env : AttachEnv) (sm : σ) : Except ServiceError (ServiceRow σ) :=
  match env.view with
  | .contended => .error .pinUnreadable
  | .view pin running recordPos => do
    S.attachGate pin running
    if pin.isSome ∧ env.reread ≠ env.view then throw .pinUnreadable
    let (startSetAt, sm, pastIt) ← S.attachStartSet env pin recordPos sm
    match startSetAt, pin with
    | some pos, _ => S.published env pin recordPos sm (some pos)
    | none, some (origin, from_, _) =>
      if pastIt then S.published env pin recordPos sm none
      else
        let sm ← S.pinnedInstall env origin from_ sm
        S.published env pin recordPos sm (some origin)
    | none, none => S.published env pin recordPos sm none

/-! ## The loop -/

/-- The frames of a batch; padding is not yielded. -/
def liveFrames (e : WalkEnv) (target : ℕ) (oneFrame : Bool) :
    Work σ → ℕ → List LogFrame → Work σ × ℕ × WalkEnd
  | w, cursor, [] => (w, cursor, .done)
  | w, cursor, f :: fs =>
    if target < cursor + f.span then (w, cursor, .done)
    else if f.frameType = frameTypePadding then liveFrames e target oneFrame w (cursor + f.span) fs
    else
      match S.dispatch e true w (cursor, f) with
      | (w, .pass) =>
        if oneFrame then (w, cursor + f.span, .done)
        else liveFrames e target oneFrame w (cursor + f.span) fs
      | (w, .stop running later) => (w, cursor, .stop running cursor later)
      | (w, .pending) => (w, cursor, .pending cursor)

/-- The top of `apply_cycle`. -/
def beginCycle (row : ServiceRow σ) (instance₁ instance₂ : Option Bool) (counters : Counters)
    (learner : Bool) : ServiceRow σ :=
  let streak := if instance₁ = some false then row.streak + 1 else 0
  let row := { row with streak }
  if 2 ≤ streak then { row with failed := some .instanceChanged }
  else
    let poisoned := row.poisoned || (counters.durable < row.cursor && instance₂ = some true)
    { row with poisoned, cycle := if poisoned then none else some ⟨counters, learner⟩ }

/-- A turn whose batch has frames. -/
def liveTurn (row : ServiceRow σ) (c : Cycle) (env : TurnEnv) (target : ℕ) (oneFrame : Bool)
    (frames : List LogFrame) : ServiceRow σ :=
  let e : WalkEnv := ⟨c.learner, row.attachRecordPos, env.looks, env.busy, env.sent⟩
  match S.liveFrames e target oneFrame row.toWork row.cursor frames with
  | (w, _, .stop running pos later) =>
    { row with toWork := w, applied := pos, cycle := none, failed := some (.superseded running pos later) }
  | (w, _, .pending pos) => { row with toWork := w, cursor := pos, applied := pos, cycle := none }
  | (w, cursor, _) =>
    { row with
      toWork := w, cursor, applied := cursor
      cycle := if cursor = row.cursor then none else row.cycle }

/-- A turn that finds the ring past the cursor. -/
def replayTurn (row : ServiceRow σ) (c : Cycle) (env : TurnEnv) : ServiceRow σ :=
  let a : ReplayArgs :=
    ⟨c.learner, row.pin, max row.attachRecordPos row.cursor, row.cursor, row.stalled⟩
  match S.replayInto a env.pass row.toWork with
  | (w, .error (.superseded running pos later)) =>
    { row with toWork := w, applied := pos, cycle := none, failed := some (.superseded running pos later) }
  | (w, .error e) => { row with toWork := w, cycle := none, failed := some e }
  | (w, .ok (.awaitVersion pos)) | (w, .ok (.awaitCommit pos)) =>
    { row with toWork := w, cursor := pos, applied := pos, stalled := none, cycle := none }
  | (w, .ok (.awaitArtifact _ _)) => { row with toWork := w, cycle := none }
  | (w, .ok (.rejoin cursor)) =>
    let cursor := max cursor row.cursor
    let row' := { row with toWork := w, cursor, applied := cursor }
    if cursor ≤ row.cursor then
      if row.stalled = some cursor then { row' with cycle := none } else { row' with stalled := some cursor }
    else { row' with stalled := none }

/-- One turn of the loop. -/
def turn (row : ServiceRow σ) (env : TurnEnv) : ServiceRow σ :=
  match row.cycle with
  | none => row
  | some c =>
    match planned row.lag row.cursor c.counters env.floors with
    | none => { row with cycle := none }
    | some (target, oneFrame) =>
      if target ≤ row.cursor then { row with cycle := none }
      else
        match env.read with
        | .notCommitted => { row with cycle := none }
        | .run frames => S.liveTurn row c env target oneFrame frames
        | .overrun => S.replayTurn row c env

/-- A row that has failed does nothing. -/
def exec (row : ServiceRow σ) (step : RowStep) : ServiceRow σ :=
  if row.failed.isSome then row
  else
    match step with
    | .begin_ instance₁ instance₂ counters learner => beginCycle row instance₁ instance₂ counters learner
    | .turn env => S.turn row env

end Service

end UltimaCluster
