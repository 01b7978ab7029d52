/-
  What a service does with the frames of the log, and its journal replay
  (`uc_service/src/replay.rs`, with the reader of `uc_journal/src/journal/tail_reader.rs`
  and `on_snapshot_frame` of `uc_service/src/apply.rs`).

  A replay takes the start set, or a covering artifact where the journal begins
  above it, and walks the blocks that the reader finds.  Everything it loads or
  reads is in `PassEnv`, one field per access.  The blocks of the journal are
  given as frames; what `apply` answers and asks of the node, and what is only
  counted or logged, is left out.

  `events` and `built` are kept for the statements.
-/
import UltimaCluster.ServiceGate

namespace UltimaCluster

open VersionGate

/-- A service that runs: its state machine, its version and its row. -/
structure Service (σ : Type) where
  machine : SnapshotStateMachine σ
  version : ℕ
  row : ℕ
  /-- The hash of the identity. -/
  hash : ℕ
  /-- There is a trigger. -/
  builds : Bool
  /-- There is a store to install from. -/
  restores : Bool

/-- What reaches the machine. -/
inductive RowEvent where
  | call (f : AppFrame)
  | install (pos : ℕ)
deriving DecidableEq

/-- The state machine, the calls and installs it has taken, and the artifacts that
    were handed to the builder, with their tags. -/
structure Work (σ : Type) where
  sm : σ
  events : List RowEvent
  built : List (ℕ × Bytes)

/-- The counters of the page. -/
structure Counters where
  commit : ℕ
  durable : ℕ
deriving DecidableEq

/-- The apply frontier. -/
def Counters.head (c : Counters) : ℕ := min c.commit c.durable

/-- What a walk finds beside the frames: whether the node is a learner, up to where
    records are decided, and by position the wait for a record, whether a build is
    under way, and whether the builder takes a job. -/
structure WalkEnv where
  learner : Bool
  decidedTo : ℕ
  looks : ℕ → List Look
  busy : ℕ → Bool
  sent : ℕ → Bool

namespace Service

variable {σ : Type} (S : Service σ)

/-! ## One frame -/

/-- `on_snapshot_frame`. -/
def onSnapshotFrame (e : WalkEnv) (w : Work σ) (x : ℕ × LogFrame) : Work σ :=
  if !S.builds then w
  else if x.2.hasFlag flagSnapshotStandby && !e.learner then w
  else if e.busy x.1 then w
  else if (S.machine.lastApplied w.sm).any (.ofNat x.1 ≤ ·) then w
  else
    match S.machine.freeze w.sm with
    | .error _ => w
    | .ok (img, _) => if e.sent x.1 then { w with built := w.built ++ [(x.1 + x.2.span, img)] } else w

/-- A call, if its position is above what was applied. -/
def deliver (w : Work σ) (g : AppFrame) : Work σ :=
  if S.machine.above w.sm g then
    { w with sm := (S.machine.step w.sm g).1, events := w.events ++ [.call g] }
  else w

/-- The arms of the walk; `acts` says whether an instant here is acted on. -/
def dispatch (e : WalkEnv) (acts : Bool) (w : Work σ) (x : ℕ × LogFrame) : Work σ × Gate :=
  if x.2.frameType = frameTypeSnapshot then (if acts then S.onSnapshotFrame e w x else w, .pass)
  else if x.2.frameType = frameTypeCluster then
    (w, onClusterFrame S.row S.version e.decidedTo x.1 x.2 (e.looks x.1))
  else
    match appFrame S.hash x with
    | none => (w, .pass)
    | some g => (S.deliver w g, .pass)

end Service

/-! ## The journal -/

/-- A record: a block and its base. -/
structure Block where
  base : ℕ
  frames : List LogFrame
deriving DecidableEq

def Block.placed (b : Block) : List (ℕ × LogFrame) := Tiling.place LogFrame.span b.base b.frames

/-- What one `scan_from` finds: by the files of its listing, the first meta that a
    probe reads, and the records that the opening gives; `none` for a file that has
    vanished. -/
structure JournalScan where
  heads : List (Option ℕ)
  files : List (Option (List Block))
deriving DecidableEq

namespace JournalScan

/-- How many files are skipped, from the heads after the first: a file is, if the
    next begins at or below `start`. -/
def skipped (start : ℕ) : List (Option ℕ) → ℕ
  | some head :: heads => if head ≤ start then skipped start heads + 1 else 0
  | _ => 0

/-- `scan_from`: a vanished file is passed over. -/
def blocks (v : JournalScan) (start : ℕ) : List Block :=
  (v.files.drop (skipped start v.heads.tail)).flatMap fun f => f.getD []

/-- The frames that the walk visits, until it stops. -/
def frames (v : JournalScan) (start : ℕ) : List (ℕ × LogFrame) :=
  (v.blocks start).flatMap Block.placed

end JournalScan

/-- `first_meta`. -/
def firstMeta (heads : List (Option ℕ)) : Option ℕ := heads.findSome? id

/-! ## A pass -/

/-- How a replay ends. -/
inductive Replay where
  | rejoin (cursor : ℕ)
  | awaitArtifact (artifact target : ℕ)
  | awaitVersion (pos : ℕ)
  | awaitCommit (pos : ℕ)
deriving DecidableEq

/-- `ReplayInstant`, and `gap_above`. -/
structure ReplayArgs where
  learner : Bool
  pin : Option (ℕ × ℕ × ℕ)
  decidedTo : ℕ
  resume : ℕ
  gapAbove : Option ℕ
deriving DecidableEq

/-- What a pass loads and reads, in this order. -/
structure PassEnv where
  startSet : Option (ℕ × ℕ)
  view : RowRead
  frontier : Counters
  /-- The opening of an artifact. -/
  open_ : ℕ → Option Bytes
  heads : Except String (List (Option ℕ))
  covering : Counters
  isFile : ℕ → Bool
  /-- The artifacts that `newest` lists, for the target and without a bound. -/
  names : Except String (List ℕ)
  allNames : Except String (List ℕ)
  counters : Counters
  /-- `snapshot_pos` of the slot. -/
  held : ℕ
  scan₁ : Except String JournalScan
  scan₂ : Except String JournalScan
  looks : ℕ → List Look
  busy : ℕ → Bool
  sent : ℕ → Bool

/-- `SnapshotStore::newest`. -/
def newestName (names : List ℕ) (atMost : ℕ) : Option ℕ := (names.filter (· ≤ atMost)).max?

namespace Service

variable {σ : Type} (S : Service σ)

/-- How the walk of a pass ends. -/
inductive WalkEnd where
  | done
  | straddle (pos : ℕ)
  | stop (running pos : ℕ) (later : Bool)
  | pending (pos : ℕ)
deriving DecidableEq

/-- Pass 1: the last instant to act on. -/
def lastActionableInstant (learner : Bool) (held target : ℕ) (applied : Option UInt64)
    (xs : List (ℕ × LogFrame)) : Option ℕ :=
  ((xs.takeWhile fun x => x.1 + x.2.span ≤ target).filter fun x =>
    x.2.frameType = frameTypeSnapshot && applied.all (· < .ofNat x.1) && held < x.1 + x.2.span &&
      !(x.2.hasFlag flagSnapshotStandby && !learner)).getLast?.map Prod.fst

/-- Pass 2: every frame up to the target. -/
def scanFrames (e : WalkEnv) (target : ℕ) (freezeAt : Option ℕ) :
    Work σ → Option ℕ → List (ℕ × LogFrame) → Work σ × Option ℕ × WalkEnd
  | w, cursor, [] => (w, cursor, .done)
  | w, cursor, x :: xs =>
    if target < x.1 + x.2.span then (w, cursor, .straddle x.1)
    else
      match S.dispatch e (freezeAt = some x.1) w x with
      | (w, .pass) =>
        scanFrames e target freezeAt w (some (cursor.elim (x.1 + x.2.span) (max · (x.1 + x.2.span)))) xs
      | (w, .stop running later) => (w, cursor, .stop running x.1 later)
      | (w, .pending) => (w, cursor, .pending x.1)

/-- The jump on the start set: where the pass starts, and the cursor if it moved. -/
def startSetJump (a : ReplayArgs) (env : PassEnv) (w : Work σ) (startPos : ℕ) :
    Except ServiceError (Work σ × ℕ × Option ℕ) :=
  if S.restores && startSetPermitted a.pin env.view a.decidedTo env.startSet then
    match installStartSet S.machine S.version w.sm env.startSet (max startPos a.resume)
        env.frontier.head env.open_ with
    | .error e => .error e
    | .ok none => .ok (w, startPos, none)
    | .ok (some (pos, sm)) =>
      .ok ({ w with sm, events := w.events ++ [.install pos] }, pos, some pos)
  else .ok (w, startPos, none)

/-- Which artifact covers a gap: that of the pinned origin, or the newest. -/
def coveringArtifact (a : ReplayArgs) (env : PassEnv) (first target : ℕ) :
    Except ServiceError (Option ℕ) :=
  if !S.restores then .ok none
  else
    match a.pin.filter fun p => first ≤ p.1 && p.1 ≤ target && env.isFile p.1 with
    | some p => .ok (some p.1)
    | none =>
      match env.names with
      | .error msg => .error (.store msg)
      | .ok names => .ok (newestName names target)

/-- Install the covering artifact. -/
def installCovering (a : ReplayArgs) (env : PassEnv) (w : Work σ) (pos : ℕ) :
    Except ServiceError (Work σ × ℕ × Option ℕ) :=
  match env.open_ pos with
  | none => .error (.store "open")
  | some file =>
    let expectVersion := match a.pin with
      | some (origin, from_, _) => if origin = pos then from_ else S.version
      | none => S.version
    match verifySnapshotEnvelope file pos (some expectVersion) with
    | .error e => .error (.mistaggedSnapshot pos e)
    | .ok payload =>
      match S.machine.installSnapshot w.sm (.ofNat pos) payload with
      | .error e => .error (.install pos e)
      | .ok (sm, installed) =>
        .ok ({ w with sm, events := w.events ++ [.install installed.toNat] }, installed.toNat,
          some installed.toNat)

/-- The gap guard; `Sum.inl` is a wait for an artifact above the target. -/
def coverGap (a : ReplayArgs) (env : PassEnv) (first : ℕ) (w : Work σ) (startPos : ℕ)
    (cursor : Option ℕ) : Except ServiceError (Replay ⊕ Work σ × ℕ × Option ℕ) :=
  if first ≤ startPos then .ok (.inr (w, startPos, cursor))
  else
    let target := env.covering.head
    match S.coveringArtifact a env first target with
    | .error e => .error e
    | .ok covering =>
      match covering.filter (first ≤ ·) with
      | some pos => (S.installCovering a env w pos).map .inr
      | none =>
        if !S.restores then .error (.snapshotRequired startPos first)
        else
          match env.allNames with
          | .error msg => .error (.store msg)
          | .ok names =>
            match (newestName names (2 ^ 64 - 1)).filter fun pos => first ≤ pos && target < pos with
            | some pos => .ok (.inl (.awaitArtifact pos target))
            | none => .error (.snapshotRequired startPos first)

/-- A walk that ended below the row reports no movement. -/
def rejoinAt (resume : ℕ) : Option ℕ → ℕ
  | some c => if resume ≤ c then c else resume
  | none => resume

/-- Both passes over the journal. -/
def scanJournal (a : ReplayArgs) (env : PassEnv) (w : Work σ) (startPos : ℕ) (cursor : Option ℕ) :
    Work σ × Except ServiceError Replay :=
  let target := env.counters.head
  let freezeAt : Except String (Option ℕ) :=
    if S.builds then env.scan₁.map fun v =>
      lastActionableInstant a.learner env.held target (S.machine.lastApplied w.sm) (v.frames startPos)
    else .ok none
  match freezeAt, env.scan₂ with
  | .error msg, _ | _, .error msg => (w, .error (.journal msg))
  | .ok freezeAt, .ok v =>
    let e : WalkEnv := ⟨a.learner, a.decidedTo, env.looks, env.busy, env.sent⟩
    match S.scanFrames e target freezeAt w cursor (v.frames startPos) with
    | (w, _, .stop running pos later) => (w, .error (.superseded running pos later))
    | (w, _, .pending pos) => (w, .ok (.awaitVersion pos))
    | (w, cursor, ended) =>
      match ended with
      | .straddle pos =>
        if cursor = some pos then (w, .ok (.awaitCommit pos))
        else if pos = startPos then (w, .ok (.awaitCommit startPos))
        else (w, .ok (.rejoin (rejoinAt a.resume cursor)))
      | _ => (w, .ok (.rejoin (rejoinAt a.resume cursor)))

/-- Where the journal is taken to begin: a forced pass raises it above the row. -/
def firstAvailable (gapAbove : Option ℕ) (preJump : ℕ) (heads : List (Option ℕ)) : ℕ :=
  match gapAbove with
  | some floor => max ((firstMeta heads).getD 0) (min (max preJump floor + 1) (2 ^ 64 - 1))
  | none => (firstMeta heads).getD 0

/-- `replay_into`. -/
def replayInto (a : ReplayArgs) (env : PassEnv) (w : Work σ) : Work σ × Except ServiceError Replay :=
  let smPos := ((S.machine.lastApplied w.sm).getD 0).toNat
  let preJump := if a.gapAbove.isNone then max smPos a.resume else smPos
  match S.startSetJump a env w preJump with
  | .error e => (w, .error e)
  | .ok (w, startPos, cursor) =>
    match env.heads with
    | .error msg => (w, .error (.journal msg))
    | .ok heads =>
      match S.coverGap a env (firstAvailable a.gapAbove preJump heads) w startPos cursor with
      | .error e => (w, .error e)
      | .ok (.inl wait) => (w, .ok wait)
      | .ok (.inr (w, startPos, cursor)) => S.scanJournal a env w startPos cursor

end Service

end UltimaCluster
