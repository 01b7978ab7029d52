/-
  The cluster FSM (`uc_node/src/cluster_fsm.rs`): its commands, the door's and
  the replicas' validation, and `apply`, as the cluster agent drives it along
  the committed log (`uc_node/src/cluster_agent.rs`).

  The effect of an accepted command is `ClusterState.accept`; `apply` decodes,
  validates on the state alone, and runs it.
-/
import UltimaCluster.ClusterState
import UltimaCluster.Wire

namespace UltimaCluster

open Bytes

/-! ## Commands -/

/-- A decoded command. -/
inductive ClusterCommand where
  | membership (c : ClusterConfig)
  | scheduleTable (t : ScheduleTable)
  | settings (s : Settings)
  | upgradePin (p : UpgradePin)
  | snapshotReport (r : SnapshotReport)
  | rowGenesis (g : RowGenesis)
  | backupWatermark (w : BackupWatermark)
deriving DecidableEq

/-- The kind of a command. -/
inductive ClusterKind where
  | membership
  | scheduleTable
  | settings
  | upgradePin
  | snapshotReport
  | rowGenesis
  | backupWatermark
deriving DecidableEq

def ClusterKind.byte : ClusterKind → ℕ
  | membership => 1
  | scheduleTable => 2
  | settings => 3
  | upgradePin => 4
  | snapshotReport => 5
  | rowGenesis => 6
  | backupWatermark => 7

def ClusterKind.fromU8 : ℕ → Option ClusterKind
  | 1 => some membership
  | 2 => some scheduleTable
  | 3 => some settings
  | 4 => some upgradePin
  | 5 => some snapshotReport
  | 6 => some rowGenesis
  | 7 => some backupWatermark
  | _ => none

def clusterBodyPrefixLen : ℕ := 8

def clusterReserved : Bytes := [0, 0, 0, 0, 0, 0, 0]

def writeClusterPrefix (kind : ClusterKind) : Bytes := le 1 kind.byte ++ clusterReserved

def readClusterPrefix (b : Bytes) : Option (ClusterKind × Bytes) :=
  if b.length < clusterBodyPrefixLen then none
  else do
    let kind ← ClusterKind.fromU8 (at_ b 0)
    if slice b 1 clusterBodyPrefixLen ≠ clusterReserved then none
    else return (kind, b.drop clusterBodyPrefixLen)

def decodeCommand (kind : ClusterKind) (payload : Bytes) : Option ClusterCommand :=
  match kind with
  | .membership => (decodeConfig payload).map fun c => .membership c.1
  | .scheduleTable => (decodeScheduleTable payload).map .scheduleTable
  | .settings => (decodeSettings payload).map .settings
  | .upgradePin => (decodeUpgradePin payload).map .upgradePin
  | .snapshotReport => (decodeSnapshotReport payload).map .snapshotReport
  | .rowGenesis => (decodeRowGenesis payload).map .rowGenesis
  | .backupWatermark => (decodeBackupWatermark payload).map .backupWatermark

def ClusterCommand.kind : ClusterCommand → ClusterKind
  | membership _ => .membership
  | scheduleTable _ => .scheduleTable
  | settings _ => .settings
  | upgradePin _ => .upgradePin
  | snapshotReport _ => .snapshotReport
  | rowGenesis _ => .rowGenesis
  | backupWatermark _ => .backupWatermark

/-- `none` where the source panics, on a report that has no encoding. -/
def encodeCommand : ClusterCommand → Option (ClusterKind × Bytes)
  | .membership c => some (.membership, encodeConfig c 0)
  | .scheduleTable t => some (.scheduleTable, encodeScheduleTable t)
  | .settings s => some (.settings, encodeSettings s)
  | .upgradePin p => some (.upgradePin, encodeUpgradePin p)
  | .snapshotReport r => (encodeSnapshotReport r).map fun b => (.snapshotReport, b)
  | .rowGenesis g => some (.rowGenesis, encodeRowGenesis g)
  | .backupWatermark w => some (.backupWatermark, encodeBackupWatermark w)

/-- The body of the frame that carries `cmd`. -/
def ClusterCommand.body (cmd : ClusterCommand) : Bytes :=
  match encodeCommand cmd with
  | some (kind, payload) => writeClusterPrefix kind ++ payload
  | none => []

/-! ## Refusals -/

def ProposeError.reasonCode : ProposeError → ℕ
  | notLeader => 1
  | notServing => 2
  | changePending => 3
  | tombstoned => 4
  | alreadyPresent => 5
  | notFound => 6
  | wrongRole => 7
  | zeroVoters => 8
  | tooManyMembers => 9
  | notCaughtUp _ => 10
  | selfDemote => 12

/-- Why a command is refused. -/
inductive ClusterRefusal where
  | membership (e : ProposeError)
  | scheduleUnknownFsm (entry : ℕ)
  | scheduleTooLarge
  | settingsBounds (field : String)
  | pinFromMismatch
  | pinNotMonotone
  | reportStale
  | versionAlreadySet
  | tierUnknown
deriving DecidableEq

def ClusterRefusal.reasonCode : ClusterRefusal → ℕ
  | membership e => e.reasonCode
  | scheduleUnknownFsm _ => 43
  | scheduleTooLarge => 42
  | settingsBounds _ => 47
  | pinFromMismatch => 53
  | pinNotMonotone => 55
  | reportStale => 59
  | versionAlreadySet => 60
  | tierUnknown => 62

/-- The reply to bytes that are no command. -/
def undecodable : ℕ := 42

/-! ## Validation -/

/-- The bounds of a settings record, in the order they are checked. -/
def Settings.validate (s : Settings) : Except ClusterRefusal Unit :=
  if s.datagramMtu ≠ 0 ∧ isRung s.datagramMtu = false then .error (.settingsBounds "datagram_mtu")
  else if s.admissionBytes = 2 ^ 64 - 1 then .error (.settingsBounds "admission_bytes")
  else if s.snapshotIntervalBytes = 2 ^ 64 - 1 then
    .error (.settingsBounds "snapshot.interval_bytes")
  else if s.backupRetainAgeSecs = 2 ^ 64 - 1 then .error (.settingsBounds "backup_retain_age_secs")
  else if maxBackupTiers < s.purgeRequiresTiers then .error (.settingsBounds "purge_requires_tiers")
  else if wireRaiseManual < s.wireRaise then .error (.settingsBounds "wire_raise")
  else if s.fsmLagBytes ≠ 0 ∧ s.fsmLagBytes ≠ fsmLagLockstep ∧ s.fsmLagBytes < minFsmLagBytes then
    .error (.settingsBounds "fsm_lag")
  else if maxRetainSets < s.retainSets then .error (.settingsBounds "retain_sets")
  else .ok ()

namespace ClusterState

/-- What every replica checks, on the state and constants alone. -/
def validateReplicated (s : ClusterState) : ClusterCommand → Except ClusterRefusal Unit
  | .membership next =>
    if next.version ≠ s.membership.version + 1 then .error (.membership .changePending) else .ok ()
  | .scheduleTable t =>
    if maxScheduleEntries < t.entries.length then .error .scheduleTooLarge else .ok ()
  | .settings r => r.validate
  | .upgradePin p =>
    if (s.pinFor p.row).any fun cur => decide (p.origin ≤ cur.origin) then .error .pinNotMonotone
    else if (s.runningFor p.row).any fun r => !sameLine p.from_ r.version then
      .error .pinFromMismatch
    else .ok ()
  | .snapshotReport r =>
    if (s.reportFor r.row).any fun held => decide (r.position < held.position) then
      .error .reportStale
    else .ok ()
  | .rowGenesis g => if (s.runningFor g.row).isSome then .error .versionAlreadySet else .ok ()
  | .backupWatermark w =>
    if w.op = .forget ∧ (s.backupFor w.tierId).isNone then .error .tierUnknown else .ok ()

/-! ## Accepted commands -/

/-- What a settings record leaves in force: the rung and the level only rise,
    `wire_raise = 0` keeps the mode, `retain_sets = 0` is read as 1. -/
def adoptSettings (cur r : Settings) : Settings :=
  { r with
    datagramMtu := max cur.datagramMtu r.datagramMtu
    wireLevel := max cur.wireLevel r.wireLevel
    wireRaise := if r.wireRaise = wireRaiseKeep then cur.wireRaise else r.wireRaise
    retainSets := if r.retainSets = 0 then 1 else r.retainSets }

/-- What an accepted command does. -/
def accept (s : ClusterState) (position : ℕ) : ClusterCommand → ClusterState
  | .membership c => { s with membership := c }
  | .scheduleTable t => { s with table := t, tablePosition := position }
  | .settings r =>
    { s with settings := adoptSettings s.settings r, settingsPosition := position }.retire
  | .upgradePin p => (s.pushPin p).setRunning p.row p.to_ position
  | .snapshotReport r => s.putReport r
  | .rowGenesis g => s.setRunning g.row g.version position
  | .backupWatermark w =>
    match w.op with
    | .report => s.putBackupWatermark w position
    | .forget => { s with backups := s.backups.filter fun e => e.tierId != w.tierId }

/-- The command in the body of a `CLUSTER` frame. -/
def readCommand (body : Bytes) : Option ClusterCommand := do
  let (kind, payload) ← readClusterPrefix body
  decodeCommand kind payload

/-- `apply` of the frame that ends at `position`, with the reply. -/
def apply (s : ClusterState) (position : ℕ) (body : Bytes) : ClusterState × ℕ :=
  let s := { s with applied := position }
  match readCommand body with
  | none => (s, undecodable)
  | some cmd =>
    match s.validateReplicated cmd with
    | .error r => (s, r.reasonCode)
    | .ok () => (s.accept position cmd, 0)

def setConsumed (s : ClusterState) (position : ℕ) : ClusterState :=
  if s.applied < position then { s with applied := position } else s

end ClusterState

/-- The FSM with the identity hashes of the host's own services. -/
structure ClusterFsm where
  state : ClusterState
  declaredHashes : List ℕ

namespace ClusterFsm

/-- The leader's check before it appends: the replicas' one, and what only the
    door decides. -/
def validate (f : ClusterFsm) (cmd : ClusterCommand) : Except ClusterRefusal Unit := do
  f.state.validateReplicated cmd
  match cmd with
  | .settings s => if s.retainSets = 0 then throw (.settingsBounds "retain_sets")
  | .scheduleTable t =>
    match t.entries.findIdx? fun e => !f.declaredHashes.contains e.identityHash with
    | some entry => throw (.scheduleUnknownFsm entry)
    | none => pure ()
  | _ => pure ()

end ClusterFsm

/-! ## The walk along the log -/

/-- What the cluster agent does with the committed log, in the order of the log:
    a `SNAPSHOT` frame, a `CLUSTER` frame, or its cursor moving past a batch. -/
inductive Frame where
  | snapshot (end_ : ℕ) (standby : Bool) (timeNs : ℕ)
  | cluster (end_ : ℕ) (body : Bytes)
  | consumed (cursor : ℕ)
deriving DecidableEq

namespace ClusterState

/-- One frame of the log. -/
def walk (s : ClusterState) : Frame → ClusterState
  | .snapshot end_ standby timeNs => s.onSnapshotFrame end_ standby timeNs
  | .cluster end_ body => (s.apply end_ body).1
  | .consumed cursor => s.setConsumed cursor

def walkAll (s : ClusterState) (frames : List Frame) : ClusterState := frames.foldl walk s

end ClusterState

end UltimaCluster
