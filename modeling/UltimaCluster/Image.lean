/-
  The frozen image of the cluster FSM (`uc_protocol/src/v2/cluster_image.rs`;
  `freeze` and `install_snapshot` of `uc_node/src/cluster_fsm.rs`).

  The cursor of the decoder is the rest of the body from there on.  The
  checksum is a parameter: it comes from a library.
-/
import UltimaCluster.ClusterFsm

namespace UltimaCluster

open Bytes

/-! ## The layout -/

/-- `UCCLUST1`. -/
def clusterImageMagic : Bytes := [85, 67, 67, 76, 85, 83, 84, 49]

def clusterImageVersionWord : ℕ := 6

def minImageLen : ℕ := 36 + 4 + 4 + 29 + 4

/-- The records of an image, as bytes. -/
structure ClusterImageParts where
  applied : ℕ
  tablePosition : ℕ
  settingsPosition : ℕ
  membership : Bytes
  table : Bytes
  settings : Bytes
  pins : Bytes
  reports : Bytes
  running : Bytes
  catalog : Bytes
  backups : Bytes
deriving DecidableEq

/-- A length that its prefix can hold. -/
def payloadLenPrefix (len : ℕ) : Option ℕ := if len < 2 ^ 32 then some len else none

/-- All but the checksum. -/
def ClusterImageParts.body (p : ClusterImageParts) : Bytes :=
  clusterImageMagic ++ le 4 clusterImageVersionWord ++ le 8 p.applied ++ le 8 p.tablePosition ++
    le 8 p.settingsPosition ++ blob p.membership ++ blob p.table ++ p.settings ++ blob p.pins ++
    blob p.reports ++ blob p.running ++ blob p.catalog ++ blob p.backups

section
variable (crc : Bytes → UInt32)

/-- The parts, behind their lengths. -/
def encodeClusterImage (p : ClusterImageParts) : Option Bytes := do
  let _ ← payloadLenPrefix p.membership.length
  let _ ← payloadLenPrefix p.table.length
  let _ ← payloadLenPrefix p.pins.length
  let _ ← payloadLenPrefix p.reports.length
  let _ ← payloadLenPrefix p.running.length
  let _ ← payloadLenPrefix p.catalog.length
  let _ ← payloadLenPrefix p.backups.length
  return p.body ++ le 4 (crc p.body).toNat

/-- A settings record has the length of its own version word. -/
def readSettings (b : Bytes) : Option (Bytes × Bytes) := do
  let (version, _) ← readNum 4 b
  let len ← settingsLen version
  readBytes len b

/-- A record that images carry from layout `since` on. -/
def readBlobSince (since version : ℕ) (b : Bytes) : Option (Bytes × Bytes) :=
  if since ≤ version then readBlob b else some ([], b)

/-- Nothing is left over. -/
def atEnd (b : Bytes) : Option Unit := if b = [] then some () else none

/-- What follows the version word. -/
def readImageBody (version : ℕ) (b : Bytes) : Option ClusterImageParts := do
  let (applied, b) ← readNum 8 b
  let (tablePosition, b) ← readNum 8 b
  let (settingsPosition, b) ← readNum 8 b
  let (membership, b) ← readBlob b
  let (table, b) ← readBlob b
  let (settings, b) ← readSettings b
  let (pins, b) ← readBlobSince 2 version b
  let (reports, b) ← readBlobSince 2 version b
  let (running, b) ← readBlobSince 3 version b
  let (catalog, b) ← readBlobSince 4 version b
  let (backups, b) ← readBlobSince 6 version b
  atEnd b
  return { applied, tablePosition, settingsPosition, membership, table, settings, pins, reports,
           running, catalog, backups }

/-- The parts, if the sum is right. -/
def decodeClusterImage (buf : Bytes) : Option ClusterImageParts :=
  if buf.length < minImageLen ∨ slice buf 0 8 ≠ clusterImageMagic then none
  else
    let body := buf.take (buf.length - 4)
    if (crc body).toNat ≠ num buf (buf.length - 4) buf.length then none
    else
      let version := num body 8 12
      if version < 1 ∨ clusterImageVersionWord < version then none
      else readImageBody version (body.drop 12)

def clusterImageVersion (buf : Bytes) : Option ℕ :=
  (decodeClusterImage crc buf).map fun _ => num buf 8 12

/-! ## Freezing -/

/-- Why an image is refused. -/
inductive SnapshotError where
  | codec (what : String)
  | io
deriving DecidableEq

def refuse {α : Type} (what : String) : Option α → Except SnapshotError α
  | some a => .ok a
  | none => .error (.codec what)

def require (p : Bool) (what : String) : Except SnapshotError Unit :=
  if p then .ok () else .error (.codec what)

/-- The running records in the order of the rows. -/
def ClusterState.runningList (s : ClusterState) : List RowRunning :=
  (List.finRange cncMaxServices).filterMap s.running

/-- An empty list is an empty blob. -/
def encodeCatalogBlob (sets : List SetEntry) : Option Bytes :=
  if sets = [] then some [] else encodeSetList sets

def encodeBackupsBlob (backups : List BackupTierEntry) : Bytes :=
  if backups = [] then [] else encodeBackupList backups

/-- The records of a state; `reports` and `catalog` are encoded already. -/
def ClusterState.imageParts (s : ClusterState) (reports catalog : Bytes) : ClusterImageParts where
  applied := s.applied
  tablePosition := s.tablePosition
  settingsPosition := s.settingsPosition
  membership := encodeConfig s.membership 0
  table := encodeScheduleTable s.table
  settings := encodeSettings s.settings
  pins := encodePinList s.pins
  reports
  running := encodeRunningList s.runningList
  catalog
  backups := encodeBackupsBlob s.backups

/-- The image and the position it stands for. -/
def ClusterState.freeze (s : ClusterState) : Except SnapshotError (Bytes × ℕ) := do
  let reports ← refuse "cluster image: unencodable report" (encodeReportList s.reports)
  let catalog ← refuse "cluster image: catalog exceeds MAX_CATALOG_SETS" (encodeCatalogBlob s.catalog)
  let img ← refuse "cluster image: membership or schedule table exceeds u32::MAX bytes"
    (encodeClusterImage crc (s.imageParts reports catalog))
  return (img, s.applied)

/-! ## Installing -/

/-- The running record of a row, from its newest pin: an image of an old layout. -/
def runningFromPins (pins : List UpgradePin) (applied : ℕ) (row : Row) : Option RowRunning :=
  (newestPin pins row).map fun p => { row := row, version := p.to_, recordPos := applied }

/-- Each record in its row's slot. -/
def fillRunning (l : List RowRunning) : Row → Option RowRunning :=
  l.foldl (fun running r =>
    if h : r.row < cncMaxServices then Function.update running ⟨r.row, h⟩ (some r) else running)
    fun _ => none

def installRunning (blob : Bytes) (pins : List UpgradePin) (applied : ℕ) :
    Option (Row → Option RowRunning) :=
  if blob = [] then some (runningFromPins pins applied)
  else (decodeRunningList blob).map fillRunning

def installCatalog (sized : Bool) (blob : Bytes) : Option (List SetEntry) :=
  if blob = [] then some [] else decodeSetListWith sized blob

def installBackups (blob : Bytes) : Option (List BackupTierEntry) :=
  if blob = [] then some [] else decodeBackupList blob

/-- Neighbours are in order. -/
def catalogInOrder : List SetEntry → Bool
  | a :: b :: rest => decide (a.position < b.position) && catalogInOrder (b :: rest)
  | _ => true

/-- The state in an image. -/
def readImage (position : ℕ) (img : Bytes) : Except SnapshotError ClusterState := do
  let parts ← refuse "cluster image" (decodeClusterImage crc img)
  let version ← refuse "cluster image" (clusterImageVersion crc img)
  require (parts.applied == position) "cluster image position"
  let (membership, _) ← refuse "cluster image membership" (decodeConfig parts.membership)
  let table ← refuse "cluster image table" (decodeScheduleTable parts.table)
  let settings ← refuse "cluster image settings" (decodeSettings parts.settings)
  let pins ← refuse "cluster image pins" (decodePinList parts.pins)
  let reports ← refuse "cluster image reports" (decodeReportList parts.reports)
  let running ← refuse "cluster image running" (installRunning parts.running pins parts.applied)
  let catalog ← refuse "cluster image: catalog" (installCatalog (decide (5 ≤ version)) parts.catalog)
  require (catalogInOrder catalog) "cluster image: catalog out of order"
  let backups ← refuse "cluster image: backups" (installBackups parts.backups)
  return {
    membership, table
    tablePosition := parts.tablePosition
    settings := if settings.retainSets = 0 then { settings with retainSets := 1 } else settings
    settingsPosition := parts.settingsPosition
    applied := parts.applied
    pins, reports, running, catalog, backups }

/-- `install_snapshot`, with what the reader yields; the state is replaced at the end. -/
def ClusterFsm.installSnapshot (f : ClusterFsm) (position : ℕ) (src : Except SnapshotError Bytes) :
    ClusterFsm × Except SnapshotError ℕ :=
  match src with
  | .error e => (f, .error e)
  | .ok img =>
    match readImage crc position img with
    | .error e => (f, .error e)
    | .ok state => ({ f with state }, .ok state.applied)

end

end UltimaCluster
