/-
  The state of the cluster FSM and the operations on it
  (`uc_node/src/cluster_fsm.rs`, `ClusterState`; the pin gate of
  `uc_node/src/catalog.rs`).

  The mask of declared rows is the predicate `declared`.  The two eviction
  loops, of `retire` and of `cap_catalog`, are iterations of `retireStep` and
  `capStep`, which are `none` where the loop stops; every round removes one
  entry, so the length of the list is fuel enough.
-/
import UltimaCluster.Config
import UltimaCluster.Lib.Evict
import UltimaCluster.Records

namespace UltimaCluster

open Evict

/-- What a row keeps of its pins. -/
def maxPinsPerRow : ℕ := 4

/-- The replicated state of the cluster FSM. -/
structure ClusterState where
  membership : ClusterConfig
  table : ScheduleTable
  tablePosition : ℕ
  settings : Settings
  settingsPosition : ℕ
  /-- The log is consumed up to here. -/
  applied : ℕ
  /-- In the order they were accepted. -/
  pins : List UpgradePin
  reports : List SnapshotReport
  running : Row → Option RowRunning
  /-- Oldest first. -/
  catalog : List SetEntry
  backups : List BackupTierEntry
deriving DecidableEq

/-! ## Pins -/

/-- What the newest pin of a row requires of the set that completes it.
    Without a running record no set does. -/
structure PinGate where
  origin : ℕ
  to_ : ℕ
  recordPos : Option ℕ
deriving DecidableEq

/-- The newest pin of a row. -/
def newestPin (pins : List UpgradePin) (row : ℕ) : Option UpgradePin :=
  pins.reverse.find? fun p => p.row == row

/-- What completes a row's newest pin. -/
def pinGate (pins : List UpgradePin) (running : Row → Option RowRunning) (row : Row) :
    Option PinGate :=
  (newestPin pins row).map fun pin =>
    { origin := pin.origin, to_ := pin.to_, recordPos := (running row).map RowRunning.recordPos }

/-- Strictly above the record; a missing record is above everything. -/
def PinGate.below (gate : PinGate) (position : ℕ) : Bool :=
  match gate.recordPos with
  | some recordPos => decide (recordPos < position)
  | none => false

def completesPin (e : SetEntry) (row : Row) (gate : PinGate) : Bool :=
  e.isAgreed && gate.below e.position && (e.rows row).verdict == .agreed &&
    sameLine (e.rows row).version gate.to_

/-- Some set completes the pin. -/
def pinComplete (sets : List SetEntry) (row : Row) (gate : PinGate) : Bool :=
  sets.any fun e => completesPin e row gate

/-! ## Retention -/

/-- One round of the loop of `retire`. -/
def retireStep (pinned : List ℕ) (retain : ℕ) (catalog : List SetEntry) :
    Option (List SetEntry) :=
  let newest := rposition SetEntry.isAgreed catalog
  let unpinned := indices (fun e => e.isAgreed && !pinned.contains e.position) catalog
  if unpinned.length ≤ retain then none
  else (unpinned.find? fun i => some i != newest).map fun victim => catalog.eraseIdx victim

def retireLoop (pinned : List ℕ) (retain : ℕ) : ℕ → List SetEntry → List SetEntry :=
  loop (retireStep pinned retain)

/-- Drop what is older than the oldest agreed set, pinned origins apart. -/
def dropBelowFloor (pinned : List ℕ) (catalog : List SetEntry) : List SetEntry :=
  match catalog.find? SetEntry.isAgreed with
  | some floor => catalog.filter fun e =>
      decide (floor.position ≤ e.position) || pinned.contains e.position
  | none => catalog

/-- One round of the loop of `cap_catalog`. -/
def capStep (pinned : List ℕ) (catalog : List SetEntry) : Option (List SetEntry) :=
  if catalog.length ≤ maxCatalogSets then none
  else
    let last := catalog.length - 1
    let newestAgreed := rposition SetEntry.isAgreed catalog
    let victim := ((catalog.take last).findIdx? fun e => !e.isAgreed).or
      ((List.range last).find? fun i => some i != newestAgreed &&
        (catalog[i]?).any fun e => !pinned.contains e.position)
    victim.map fun i => catalog.eraseIdx i

def capLoop (pinned : List ℕ) : ℕ → List SetEntry → List SetEntry := loop (capStep pinned)

namespace ClusterState

def genesis (membership : ClusterConfig) (settings : Settings) : ClusterState where
  membership
  table := ⟨[]⟩
  tablePosition := 0
  settings := if settings.retainSets = 0 then { settings with retainSets := 1 } else settings
  settingsPosition := 0
  applied := 0
  pins := []
  reports := []
  running := fun _ => none
  catalog := []
  backups := []

/-! ## Look-ups -/

def backupFor (s : ClusterState) (tierId : ℕ) : Option BackupTierEntry :=
  s.backups.find? fun e => e.tierId == tierId

def runningFor (s : ClusterState) (row : ℕ) : Option RowRunning :=
  if h : row < cncMaxServices then s.running ⟨row, h⟩ else none

def pinFor (s : ClusterState) (row : ℕ) : Option UpgradePin := newestPin s.pins row

def reportFor (s : ClusterState) (row : ℕ) : Option SnapshotReport :=
  s.reports.find? fun r => r.row == row

/-- The version in force strictly below `p` for `row`. -/
def versionAt (s : ClusterState) (row p : ℕ) : ℕ :=
  if row = clusterRow then 0
  else
    let rowPins := s.pins.filter fun q => q.row == row
    match rowPins.find? fun q => decide (p ≤ q.origin) with
    | some q => q.from_
    | none =>
      match rowPins.getLast? with
      | some q => q.to_
      | none => ((s.runningFor row).map RowRunning.version).getD 0

def retainSets (s : ClusterState) : ℕ := max s.settings.retainSets 1

/-- The rows a set must agree on. -/
def declared (s : ClusterState) (row : Row) : Bool := (s.running row).isSome

/-! ## Backups and pins -/

/-- Fold one tier's report into its entry; a stale report, or a new tier at a
    full cluster, changes nothing. -/
def putBackupWatermark (s : ClusterState) (w : BackupWatermark) (position : ℕ) : ClusterState :=
  match s.backups.findIdx? fun e => e.tierId == w.tierId with
  | some i => { s with backups := s.backups.modify i fun e =>
      if w.through < e.through then e
      else
        let newest := max e.newestSet w.newestSet
        { e with
          oldestSet := min (max e.oldestSet w.oldestSet) newest
          newestSet := newest
          through := w.through
          reporter := w.reporter
          updatedPos := position } }
  | none =>
    if s.backups.length < maxBackupTiers then
      { s with backups := s.backups ++ [{
          tierId := w.tierId
          oldestSet := min w.oldestSet w.newestSet
          newestSet := w.newestSet
          through := w.through
          reporter := w.reporter
          updatedPos := position }] }
    else s

/-- Record an accepted pin; the row's oldest goes once the row holds too many. -/
def pushPin (s : ClusterState) (p : UpgradePin) : ClusterState :=
  let pins := s.pins ++ [p]
  if maxPinsPerRow < (pins.filter fun q => q.row == p.row).length then
    { s with pins := pins.eraseP fun q => q.row == p.row }
  else { s with pins }

/-- The version that a row runs now. -/
def setRunning (s : ClusterState) (row version position : ℕ) : ClusterState :=
  if h : row < cncMaxServices then
    { s with
      running := Function.update s.running ⟨row, h⟩ (some { row, version, recordPos := position }) }
  else s

/-! ## The catalog -/

/-- The origin of every row's newest pin that is not complete yet. -/
def pinnedOrigins (s : ClusterState) : List ℕ :=
  (List.finRange cncMaxServices).filterMap fun row =>
    match pinGate s.pins s.running row with
    | some gate => if pinComplete s.catalog row gate then none else some gate.origin
    | none => none

/-- Sets beyond what is retained. -/
def retire (s : ClusterState) : ClusterState :=
  let pinned := s.pinnedOrigins
  { s with catalog :=
      dropBelowFloor pinned (retireLoop pinned s.retainSets s.catalog.length s.catalog) }

/-- No more sets than the list holds. -/
def capCatalog (s : ClusterState) : ClusterState :=
  { s with catalog := capLoop s.pinnedOrigins s.catalog.length s.catalog }

/-- A `SNAPSHOT` frame that ends at `position` records a commanded set. -/
def onSnapshotFrame (s : ClusterState) (position : ℕ) (standby : Bool) (timeNs : ℕ) :
    ClusterState :=
  if s.catalog.any fun e => e.position == position then s
  else
    let kind := if standby then SetKind.standby else .full
    let catalog := (s.catalog ++ [SetEntry.commanded position kind timeNs]).insertionSort
      fun a b => a.position ≤ b.position
    ({ s with catalog }.retire).capCatalog

/-- What a report says of its row. -/
def rowEntry (s : ClusterState) (r : SnapshotReport) : RowEntry :=
  let v := verdict r
  { version := s.versionAt r.row r.position
    hash := v.majorityHash.getD 0
    verdict := if v.agreed then .agreed else if v.majorityHash.isSome then .diverged
      else .noMajority
    size := majoritySize r v }

/-- Reports of the cluster artifact and of declared rows are recorded. -/
def recorded (s : ClusterState) (row : ℕ) : Bool :=
  row == clusterRow || if h : row < cncMaxServices then s.declared ⟨row, h⟩ else false

end ClusterState

/-- Set the entry of one row, or of the cluster artifact. -/
def SetEntry.putRow (row : ℕ) (entry : RowEntry) (e : SetEntry) : SetEntry :=
  if row = clusterRow then { e with cluster := entry }
  else if h : row < cncMaxServices then { e with rows := Function.update e.rows ⟨row, h⟩ entry }
  else e

/-- The cluster artifact and every declared row are reported. -/
def SetEntry.fullyReported (declared : Row → Bool) (e : SetEntry) : Bool :=
  e.cluster.verdict != .unreported &&
    (List.finRange cncMaxServices).all fun i =>
      !declared i || (e.rows i).verdict != .unreported

/-- Record one row of a set, which is complete once it is fully reported. -/
def SetEntry.record (declared : Row → Bool) (row : ℕ) (entry : RowEntry) (e : SetEntry) :
    SetEntry :=
  let e := e.putRow row entry
  if e.fullyReported declared && e.state == .commanded then { e with state := .complete } else e

namespace ClusterState

/-- A report goes to its set. -/
def foldIntoCatalog (s : ClusterState) (r : SnapshotReport) : ClusterState :=
  match s.catalog.findIdx? fun e => e.position == r.position with
  | none => s
  | some i =>
    if s.recorded r.row then
      let catalog := s.catalog.modify i (SetEntry.record s.declared r.row (s.rowEntry r))
      let s := { s with catalog }
      if (catalog[i]?).any SetEntry.isAgreed then s.retire else s
    else s

/-- The entry at `position` is complete. -/
def completeAt (s : ClusterState) (position : ℕ) : Bool :=
  s.catalog.any fun e => e.position == position && e.state == .complete

/-- Drop the commanded sets below `position` that are not pinned. -/
def dropCommandedBelow (s : ClusterState) (position : ℕ) : ClusterState :=
  let pinned := s.pinnedOrigins
  { s with catalog := s.catalog.filter fun e =>
      decide (position ≤ e.position) || e.state != .commanded || pinned.contains e.position }

/-- Hold `r` as its row's report; the cluster artifact's is not held. -/
def holdReport (s : ClusterState) (r : SnapshotReport) : ClusterState :=
  if r.row = clusterRow then s
  else
    match s.reports.findIdx? fun q => q.row == r.row with
    | some i => { s with reports := s.reports.set i r }
    | none => { s with reports := s.reports ++ [r] }

/-- Fold `r` into the catalog and hold it.  When it completes a set, older
    commanded sets that are not pinned go. -/
def putReport (s : ClusterState) (r : SnapshotReport) : ClusterState :=
  let wasComplete := s.completeAt r.position
  let s := s.foldIntoCatalog r
  let s := if s.completeAt r.position && !wasComplete then s.dropCommandedBelow r.position else s
  s.holdReport r

end ClusterState

end UltimaCluster
