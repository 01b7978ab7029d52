/-
  The codecs of the cluster FSM's commands and of the lists in its image
  (`uc_protocol/src/v2`: `config`, `schedule`, `settings`, `upgrade`, `catalog`,
  `backup`).

  Encoders append little-endian fields; decoders read them at the offsets the
  source gives and check what the source checks.  A conversion such as
  `len() as u16` is the low bytes of the number.
-/
import UltimaCluster.Config
import UltimaCluster.Lib.Bytes
import UltimaCluster.Records

namespace UltimaCluster

open Bytes

/-! ## Membership -/

def encodeMember (m : NodeId × Addr) : Bytes := le 4 m.1 ++ le 4 m.2.1 ++ le 2 m.2.2

/-- `encode_config` of the wire form of `c`, whose predecessor ended at
    `prevPosition`. -/
def encodeConfig (c : ClusterConfig) (prevPosition : ℕ) : Bytes :=
  le 8 c.version ++ le 8 prevPosition ++ le 2 c.voters.length ++ le 2 c.learners.length ++
    le 2 c.tombstones.length ++ (c.voters ++ c.learners).flatMap encodeMember ++
    c.tombstones.flatMap (le 4)

def decodeMember (b : Bytes) : Option (NodeId × Addr) :=
  some (num b 0 4, num b 4 8, num b 8 10)

def decodeTombstone (b : Bytes) : Option NodeId := some (num b 0 4)

/-- The config and the position of its predecessor. -/
def decodeConfig (b : Bytes) : Option (ClusterConfig × ℕ) :=
  if b.length < 22 then none
  else
    let nv := num b 16 18
    let nl := num b 18 20
    let nt := num b 20 22
    if maxMembers < nv + nl then none
    else if b.length ≠ 22 + (nv + nl) * 10 + nt * 4 then none
    else do
      let voters ← readN decodeMember 10 nv (b.drop 22)
      let learners ← readN decodeMember 10 nl (b.drop (22 + nv * 10))
      let tombstones ← readN decodeTombstone 4 nt (b.drop (22 + (nv + nl) * 10))
      return ({ version := num b 0 8, voters, learners, tombstones }, num b 8 16)

/-! ## The schedule table -/

def ScheduleRule.fields : ScheduleRule → ℕ × ℕ × ℕ
  | every periodNs anchorNs => (1, periodNs, anchorNs)
  | dailyAt secsOfDay => (2, secsOfDay, 0)
  | once atNs => (3, atNs, 0)

def encodeScheduleEntry (e : ScheduleEntry) : Bytes :=
  le 8 e.identityHash ++ le 8 e.timerId ++ le 1 e.rule.fields.1 ++ le 8 e.rule.fields.2.1 ++
    le 8 e.rule.fields.2.2

/-- The table with the two reserved header bytes `pad`. -/
def scheduleBytes (pad : Bytes) (t : ScheduleTable) : Bytes :=
  le 4 1 ++ le 2 t.entries.length ++ pad ++ t.entries.flatMap encodeScheduleEntry

/-- The table, entry by entry. -/
def encodeScheduleTable (t : ScheduleTable) : Bytes := scheduleBytes [0, 0] t

def decodeScheduleEntry (b : Bytes) : Option ScheduleEntry :=
  let kind := at_ b 16
  let x := num b 17 25
  let y := num b 25 33
  let rule := if kind = 1 ∧ 0 < x then some (ScheduleRule.every x y)
    else if kind = 2 ∧ x < 86400 ∧ y = 0 then some (.dailyAt x)
    else if kind = 3 ∧ y = 0 then some (.once x)
    else none
  rule.map fun rule => { identityHash := num b 0 8, timerId := num b 8 16, rule }

/-- No `(identity_hash, timer_id)` twice. -/
def ScheduleTable.timersDistinct (entries : List ScheduleEntry) : Prop :=
  (entries.map fun e => (e.identityHash, e.timerId)).Nodup

instance (entries : List ScheduleEntry) : Decidable (ScheduleTable.timersDistinct entries) :=
  inferInstanceAs (Decidable (List.Nodup _))

/-- The table, if it is one. -/
def decodeScheduleTable (b : Bytes) : Option ScheduleTable :=
  if b.length < 8 then none
  else
    let count := num b 4 6
    if num b 0 4 ≠ 1 ∨ maxScheduleEntries < count then none
    else if b.length ≠ 8 + count * 33 then none
    else do
      let entries ← readN decodeScheduleEntry 33 count (b.drop 8)
      if ScheduleTable.timersDistinct entries then return ⟨entries⟩ else none

/-! ## Settings -/

def Target.byte : Target → ℕ
  | all => 0
  | learners => 1

def Target.fromByte : ℕ → Option Target
  | 0 => some all
  | 1 => some learners
  | _ => none

def boolFromByte : ℕ → Option Bool
  | 0 => some false
  | 1 => some true
  | _ => none

/-- The record under the version word `version`, whole. -/
def settingsBytes (version : ℕ) (s : Settings) : Bytes :=
  le 4 version ++ le 8 s.fsmLagBytes ++ le 8 s.admissionBytes ++ le 8 s.snapshotIntervalBytes ++
    le 1 s.snapshotTarget.byte ++ le 4 s.datagramMtu ++ le 2 s.retainSets ++
    le 1 s.autoFetch.toNat ++ le 2 s.backupRetainSets ++ le 8 s.backupRetainAgeSecs ++
    le 1 s.purgeRequiresTiers ++ le 1 s.wireLevel ++ le 1 s.wireRaise

/-- The current layout. -/
def encodeSettings (s : Settings) : Bytes := settingsBytes 7 s

/-- The exact length of a record of each version. -/
def settingsLen : ℕ → Option ℕ
  | 1 => some 29
  | 2 => some 33
  | 3 => some 35
  | 4 => some 36
  | 5 => some 46
  | 6 => some 47
  | 7 => some 49
  | _ => none

/-- Fields that a version lacks have their fixed value. -/
def decodeSettings (b : Bytes) : Option Settings :=
  if b.length < 4 then none
  else
    let version := num b 0 4
    if settingsLen version ≠ some b.length then none
    else do
      let autoFetch ← boolFromByte (if version < 4 then 1 else at_ b 35)
      let snapshotTarget ← Target.fromByte (at_ b 28)
      return {
        fsmLagBytes := num b 4 12
        admissionBytes := num b 12 20
        snapshotIntervalBytes := num b 20 28
        snapshotTarget
        datagramMtu := if version < 2 then 0 else num b 29 33
        retainSets := if version < 3 then 1 else num b 33 35
        autoFetch
        backupRetainSets := if version < 5 then 0 else num b 36 38
        backupRetainAgeSecs := if version < 5 then 0 else num b 38 46
        purgeRequiresTiers := if version < 6 then 0 else at_ b 46
        wireLevel := if version < 7 then wireLevelFirst else at_ b 47
        wireRaise := if version < 7 then wireRaiseAuto else at_ b 48 }

/-! ## Pins, row genesis, running versions -/

def encodeUpgradePin (p : UpgradePin) : Bytes :=
  le 1 p.row ++ [0, 0, 0] ++ le 4 p.from_ ++ le 4 p.to_ ++ le 8 p.origin

/-- Twenty bytes, reserved ones 0. -/
def decodeUpgradePin (b : Bytes) : Option UpgradePin :=
  if b.length ≠ 20 ∨ slice b 1 4 ≠ [0, 0, 0] then none
  else if cncMaxServices ≤ at_ b 0 then none
  else if num b 12 20 = 0 then none
  else some { row := at_ b 0, from_ := num b 4 8, to_ := num b 8 12, origin := num b 12 20 }

def encodeRowGenesis (g : RowGenesis) : Bytes := le 1 g.row ++ [0, 0, 0] ++ le 4 g.version

def decodeRowGenesis (b : Bytes) : Option RowGenesis :=
  if b.length ≠ 8 ∨ slice b 1 4 ≠ [0, 0, 0] then none
  else if cncMaxServices ≤ at_ b 0 then none
  else some { row := at_ b 0, version := num b 4 8 }

def encodeRowRunning (r : RowRunning) : Bytes :=
  le 1 r.row ++ [0, 0, 0] ++ le 4 r.version ++ le 8 r.recordPos

def decodeRowRunning (b : Bytes) : Option RowRunning :=
  if slice b 1 4 ≠ [0, 0, 0] ∨ cncMaxServices ≤ at_ b 0 then none
  else some { row := at_ b 0, version := num b 4 8, recordPos := num b 8 16 }

def encodeRunningList (l : List RowRunning) : Bytes := l.flatMap encodeRowRunning

/-- The rows strictly increase. -/
def decodeRunningList (b : Bytes) : Option (List RowRunning) :=
  if b.length % 16 ≠ 0 then none
  else do
    let l ← readN decodeRowRunning 16 (b.length / 16) b
    if l.Pairwise (fun p q => p.row < q.row) then return l else none

def encodePinList (pins : List UpgradePin) : Bytes := pins.flatMap encodeUpgradePin

def decodePinList (b : Bytes) : Option (List UpgradePin) :=
  if b.length % 20 ≠ 0 then none else readN decodeUpgradePin 20 (b.length / 20) b

/-! ## Snapshot reports -/

def maxSnapshotReportNodes : ℕ := maxMembers

def idsStrictlyIncreasing (hashes : List (ℕ × ℕ × ℕ)) : Prop :=
  hashes.Pairwise fun a b => a.1 < b.1

instance (hashes : List (ℕ × ℕ × ℕ)) : Decidable (idsStrictlyIncreasing hashes) :=
  inferInstanceAs (Decidable (List.Pairwise _ _))

/-- What `encode_snapshot_report` requires. -/
def SnapshotReport.Encodable (r : SnapshotReport) : Prop :=
  r.hashes.length ≠ 0 ∧ r.hashes.length ≤ maxSnapshotReportNodes ∧
    idsStrictlyIncreasing r.hashes ∧ isReportRow r.row ∧ r.position ≠ 0

instance (r : SnapshotReport) : Decidable r.Encodable :=
  inferInstanceAs (Decidable (_ ∧ _ ∧ _ ∧ _ ∧ _))

def encodeReportEntry (e : ℕ × ℕ × ℕ) : Bytes := le 4 e.1 ++ le 8 e.2.1 ++ le 8 e.2.2

/-- An entry from before sizes. -/
def encodeReportEntryUnsized (e : ℕ × ℕ × ℕ) : Bytes := le 4 e.1 ++ le 8 e.2.1

def reportBytes (entry : ℕ × ℕ × ℕ → Bytes) (r : SnapshotReport) : Bytes :=
  le 1 r.row ++ le 1 r.hashes.length ++ [0, 0, 0, 0, 0, 0] ++ le 8 r.position ++
    r.hashes.flatMap entry

def encodeSnapshotReport (r : SnapshotReport) : Option Bytes :=
  if r.Encodable then some (reportBytes encodeReportEntry r) else none

def decodeReportEntry (sized : Bool) (b : Bytes) : Option (ℕ × ℕ × ℕ) :=
  some (num b 0 4, num b 4 12, if sized then num b 12 20 else 0)

def reportEntryLen (sized : Bool) : ℕ := if sized then 20 else 12

/-- Whether `n` entries in `len` bytes carry sizes. -/
def reportSized (n len : ℕ) : Option Bool :=
  if len = n * reportEntryLen true then some true
  else if len = n * reportEntryLen false then some false
  else none

/-- The width of the entries is inferred from the length. -/
def decodeSnapshotReport (b : Bytes) : Option SnapshotReport :=
  if b.length < 16 ∨ slice b 2 8 ≠ [0, 0, 0, 0, 0, 0] then none
  else
    let row := at_ b 0
    let n := at_ b 1
    let position := num b 8 16
    if isReportRow row = false ∨ n = 0 ∨ maxSnapshotReportNodes < n then none
    else do
      let sized ← reportSized n (b.length - 16)
      if position = 0 then none
      else
        let hashes ← readN (decodeReportEntry sized) (reportEntryLen sized) n (b.drop 16)
        if idsStrictlyIncreasing hashes then return { row, position, hashes } else none

/-- Each report under a length prefix. -/
def encodeReportList : List SnapshotReport → Option Bytes
  | [] => some []
  | r :: rs => do
    let b ← encodeSnapshotReport r
    let bs ← encodeReportList rs
    return le 4 b.length ++ b ++ bs

/-- Every round reads at least the prefix, so the length is fuel enough. -/
def readReports : ℕ → Bytes → Option (List SnapshotReport)
  | 0, b => if b = [] then some [] else none
  | fuel + 1, b =>
    if b = [] then some []
    else if b.length < 4 then none
    else
      let len := num b 0 4
      if b.length < 4 + len then none
      else do
        let r ← decodeSnapshotReport (slice b 4 (4 + len))
        let rs ← readReports fuel (b.drop (4 + len))
        return r :: rs

def decodeReportList (b : Bytes) : Option (List SnapshotReport) := readReports b.length b

/-! ## The catalog -/

def SetKind.byte : SetKind → ℕ
  | full => 0
  | standby => 1

def SetState.byte : SetState → ℕ
  | commanded => 0
  | complete => 1

def RowVerdict.byte : RowVerdict → ℕ
  | unreported => 0
  | agreed => 1
  | diverged => 2
  | noMajority => 3

def SetKind.fromByte : ℕ → Option SetKind
  | 0 => some full
  | 1 => some standby
  | _ => none

def SetState.fromByte : ℕ → Option SetState
  | 0 => some commanded
  | 1 => some complete
  | _ => none

def RowVerdict.fromByte : ℕ → Option RowVerdict
  | 0 => some unreported
  | 1 => some agreed
  | 2 => some diverged
  | 3 => some noMajority
  | _ => none

def encodeRowEntry (r : RowEntry) : Bytes :=
  le 4 r.version ++ le 8 r.hash ++ le 1 r.verdict.byte ++ le 8 r.size

def decodeRowEntry (sized : Bool) (b : Bytes) : Option RowEntry := do
  let verdict ← RowVerdict.fromByte (at_ b 12)
  return { version := num b 0 4, hash := num b 4 12, verdict,
           size := if sized then num b 13 21 else 0 }

def encodeSetEntry (e : SetEntry) : Bytes :=
  le 8 e.position ++ le 1 e.kind.byte ++ le 1 e.state.byte ++ le 8 e.timeNs ++
    (List.ofFn e.rows ++ [e.cluster]).flatMap encodeRowEntry

def rowEntryLen (sized : Bool) : ℕ := if sized then 21 else 13

def setEntryLen (sized : Bool) : ℕ := 18 + 9 * rowEntryLen sized

def decodeSetEntry (sized : Bool) (b : Bytes) : Option SetEntry :=
  if b.length ≠ setEntryLen sized then none
  else do
    let kind ← SetKind.fromByte (at_ b 8)
    let state ← SetState.fromByte (at_ b 9)
    let rows ← readN (decodeRowEntry sized) (rowEntryLen sized) cncMaxServices (b.drop 18)
    let cluster ← decodeRowEntry sized (b.drop (18 + cncMaxServices * rowEntryLen sized))
    return { position := num b 0 8, kind, timeNs := num b 10 18, state,
             rows := fun i => (rows[i.val]?).getD .unreported, cluster }

def encodeSetList (sets : List SetEntry) : Option Bytes :=
  if maxCatalogSets < sets.length then none
  else some (le 2 sets.length ++ sets.flatMap encodeSetEntry)

/-- The catalog, sized or not. -/
def decodeSetListWith (sized : Bool) (b : Bytes) : Option (List SetEntry) :=
  if b.length < 2 then none
  else
    let count := num b 0 2
    if maxCatalogSets < count ∨ b.length ≠ 2 + count * setEntryLen sized then none
    else readN (decodeSetEntry sized) (setEntryLen sized) count (b.drop 2)

/-! ## Backup tiers -/

def WatermarkOp.byte : WatermarkOp → ℕ
  | report => 0
  | forget => 1

def WatermarkOp.fromByte : ℕ → Option WatermarkOp
  | 0 => some report
  | 1 => some forget
  | _ => none

def BackupWatermark.Valid (w : BackupWatermark) : Prop :=
  w.tierId ≠ 0 ∧ (w.op = .forget ∨ (w.oldestSet ≤ w.newestSet ∧ w.newestSet ≤ w.through))

instance (w : BackupWatermark) : Decidable w.Valid :=
  inferInstanceAs (Decidable (_ ∧ (_ ∨ (_ ∧ _))))

def encodeBackupWatermark (w : BackupWatermark) : Bytes :=
  le 1 w.op.byte ++ [0, 0, 0, 0, 0, 0, 0] ++ le 8 w.tierId ++ le 8 w.oldestSet ++
    le 8 w.newestSet ++ le 8 w.through ++ le 8 w.reporter

def decodeBackupWatermark (b : Bytes) : Option BackupWatermark :=
  if b.length ≠ 48 ∨ slice b 1 8 ≠ [0, 0, 0, 0, 0, 0, 0] then none
  else do
    let op ← WatermarkOp.fromByte (at_ b 0)
    let w : BackupWatermark := {
      op, tierId := num b 8 16, oldestSet := num b 16 24, newestSet := num b 24 32
      through := num b 32 40, reporter := num b 40 48 }
    if w.Valid then return w else none

def encodeBackupEntry (e : BackupTierEntry) : Bytes :=
  le 8 e.tierId ++ le 8 e.oldestSet ++ le 8 e.newestSet ++ le 8 e.through ++ le 8 e.reporter ++
    le 8 e.updatedPos

def encodeBackupList (l : List BackupTierEntry) : Bytes :=
  le 1 l.length ++ l.flatMap encodeBackupEntry

def decodeBackupEntry (b : Bytes) : Option BackupTierEntry :=
  some {
    tierId := num b 0 8, oldestSet := num b 8 16, newestSet := num b 16 24
    through := num b 24 32, reporter := num b 32 40, updatedPos := num b 40 48 }

def decodeBackupList (b : Bytes) : Option (List BackupTierEntry) :=
  if b.length < 1 then none
  else
    let count := at_ b 0
    if maxBackupTiers < count ∨ b.length - 1 ≠ count * 48 then none
    else do
      let l ← readN decodeBackupEntry 48 count (b.drop 1)
      if (l.map BackupTierEntry.tierId).Nodup then return l else none

end UltimaCluster
