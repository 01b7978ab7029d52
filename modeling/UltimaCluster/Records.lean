/-
  The records the cluster FSM holds and is changed by (`uc_protocol/src/v2`:
  `settings`, `schedule`, `upgrade`, `catalog`, `backup`).

  Integers are natural numbers; `Typed` predicates beside the codecs say which
  values the source's types have.  An array over the service rows is a function
  on `Row`.
-/
import Mathlib.Data.Fintype.Pi

namespace UltimaCluster

/-- The service rows of a node. -/
def cncMaxServices : ℕ := 8

theorem cncMaxServices_pos : 0 < cncMaxServices := by decide

/-- The row of a service. -/
abbrev Row := Fin cncMaxServices

/-- The cluster artifact's row in a snapshot report. -/
def clusterRow : ℕ := 255

def isReportRow (row : ℕ) : Bool := decide (row < cncMaxServices) || row == clusterRow

/-! ## Settings -/

/-- Which nodes take snapshots. -/
inductive Target where
  | all
  | learners
deriving DecidableEq

def fsmLagLockstep : ℕ := 2 ^ 64 - 1

/-- One max-size frame at the baseline rung. -/
def minFsmLagBytes : ℕ := 1376

def wireRaiseKeep : ℕ := 0

def wireRaiseAuto : ℕ := 1

def wireRaiseManual : ℕ := 2

/-- The level a record without levels decodes as. -/
def wireLevelFirst : ℕ := 12

/-- The highest level this binary speaks. -/
def wireMax : ℕ := 12

/-- The datagram sizes of the ladder. -/
def rungs : List ℕ := [1408, 8832, 8960]

def isRung (v : ℕ) : Bool := rungs.contains v

/-- The cluster-wide settings. -/
structure Settings where
  fsmLagBytes : ℕ
  admissionBytes : ℕ
  snapshotIntervalBytes : ℕ
  snapshotTarget : Target
  datagramMtu : ℕ
  retainSets : ℕ
  autoFetch : Bool
  backupRetainSets : ℕ
  backupRetainAgeSecs : ℕ
  purgeRequiresTiers : ℕ
  wireLevel : ℕ
  wireRaise : ℕ
deriving DecidableEq

/-- The settings of a new cluster. -/
def Settings.genesisDefault : Settings where
  fsmLagBytes := 0
  admissionBytes := 0
  snapshotIntervalBytes := 0
  snapshotTarget := .all
  datagramMtu := 0
  retainSets := 1
  autoFetch := true
  backupRetainSets := 0
  backupRetainAgeSecs := 0
  purgeRequiresTiers := 0
  wireLevel := wireMax
  wireRaise := wireRaiseAuto

/-! ## The schedule table -/

/-- When a scheduled timer fires. -/
inductive ScheduleRule where
  | every (periodNs anchorNs : ℕ)
  | dailyAt (secsOfDay : ℕ)
  | once (atNs : ℕ)
deriving DecidableEq

/-- A timer of one service. -/
structure ScheduleEntry where
  identityHash : ℕ
  timerId : ℕ
  rule : ScheduleRule
deriving DecidableEq

def maxScheduleEntries : ℕ := 32

/-- All scheduled timers. -/
structure ScheduleTable where
  entries : List ScheduleEntry
deriving DecidableEq

/-! ## Upgrade pins, running versions and snapshot reports -/

/-- At `origin` the row went from `from_` to `to_`. -/
structure UpgradePin where
  row : ℕ
  from_ : ℕ
  to_ : ℕ
  origin : ℕ
deriving DecidableEq

/-- The first version of a row. -/
structure RowGenesis where
  row : ℕ
  version : ℕ
deriving DecidableEq

/-- The version a row runs. -/
structure RowRunning where
  row : ℕ
  version : ℕ
  recordPos : ℕ
deriving DecidableEq

/-- Major and minor agree; the patch is free. -/
def sameLine (a b : ℕ) : Bool := a >>> 16 == b >>> 16

/-- The artifact hashes collected for `(row, position)`, as
    `(node, hash, size)` in ascending order of the node. -/
structure SnapshotReport where
  row : ℕ
  position : ℕ
  hashes : List (ℕ × ℕ × ℕ)
deriving DecidableEq

/-- What the reports of a row agree on. -/
structure Verdict where
  agreed : Bool
  majorityHash : Option ℕ
  minority : List ℕ
deriving DecidableEq

/-- What the hashes agree on. -/
def verdict (r : SnapshotReport) : Verdict :=
  let n := r.hashes.length
  let agreed := (r.hashes.zip r.hashes.tail).all fun w => w.1.2.1 == w.2.2.1
  let majorityHash := (r.hashes.map fun e => e.2.1).find? fun h =>
    decide (n < (r.hashes.filter fun e => e.2.1 == h).length * 2)
  let minority := match majorityHash with
    | some m => (r.hashes.filter fun e => e.2.1 != m).map Prod.fst
    | none => []
  { agreed, majorityHash, minority }

/-- The largest size reported with the majority hash. -/
def majoritySize (r : SnapshotReport) (v : Verdict) : ℕ :=
  match v.majorityHash with
  | none => 0
  | some m => ((r.hashes.filter fun e => e.2.1 == m).map fun e => e.2.2).foldl max 0

/-! ## The catalog -/

def maxCatalogSets : ℕ := 64

def maxRetainSets : ℕ := 48

/-- Which nodes a set is of. -/
inductive SetKind where
  | full
  | standby
deriving DecidableEq

/-- How far a set is. -/
inductive SetState where
  | commanded
  | complete
deriving DecidableEq

/-- What is known of a row of a set. -/
inductive RowVerdict where
  | unreported
  | agreed
  | diverged
  | noMajority
deriving DecidableEq

/-- One row of a set. -/
structure RowEntry where
  version : ℕ
  hash : ℕ
  verdict : RowVerdict
  size : ℕ
deriving DecidableEq

/-- A row nobody has reported. -/
def RowEntry.unreported : RowEntry := { version := 0, hash := 0, verdict := .unreported, size := 0 }

/-- One coordinated snapshot instant. -/
structure SetEntry where
  position : ℕ
  kind : SetKind
  timeNs : ℕ
  state : SetState
  rows : Row → RowEntry
  cluster : RowEntry
deriving DecidableEq

def SetEntry.commanded (position : ℕ) (kind : SetKind) (timeNs : ℕ) : SetEntry where
  position
  kind
  timeNs
  state := .commanded
  rows := fun _ => .unreported
  cluster := .unreported

/-- Complete, with the cluster artifact and every reported row agreed. -/
def SetEntry.isAgreed (e : SetEntry) : Bool :=
  e.state == .complete && e.cluster.verdict == .agreed &&
    (List.finRange cncMaxServices).all fun i =>
      (e.rows i).verdict == .unreported || (e.rows i).verdict == .agreed

/-! ## Backup tiers -/

def maxBackupTiers : ℕ := 4

/-- What a watermark does. -/
inductive WatermarkOp where
  | report
  | forget
deriving DecidableEq

/-- A report of a backup tier. -/
structure BackupWatermark where
  op : WatermarkOp
  tierId : ℕ
  oldestSet : ℕ
  newestSet : ℕ
  through : ℕ
  reporter : ℕ
deriving DecidableEq

/-- What is kept of a tier. -/
structure BackupTierEntry where
  tierId : ℕ
  oldestSet : ℕ
  newestSet : ℕ
  through : ℕ
  reporter : ℕ
  updatedPos : ℕ
deriving DecidableEq

end UltimaCluster
