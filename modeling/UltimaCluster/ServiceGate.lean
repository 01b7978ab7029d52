/-
  What a row decides off the words of its slot and the artifacts of its store:

  * the verdict on a version record (`uc_service/src/version_gate.rs`);
  * the start set (`uc_service/src/start_set.rs`);
  * the envelope of an artifact (`uc_service/src/snapshots.rs`).

  What the words hold is the environment's: a reader gives the values that it
  loads.  Lines that are only logged are left out.
-/
import UltimaCluster.ClusterFsm
import UltimaCluster.ServiceLog

namespace UltimaCluster

/-- `RowRead`: the pin as `(origin, from, to)`, the running version, and the end
    of the record that set it. -/
inductive RowRead where
  | view (pin : Option (ℕ × ℕ × ℕ)) (running : Option ℕ) (recordPos : ℕ)
  | contended
deriving DecidableEq

/-! ## Version records -/

namespace VersionGate

/-- What the view says of a version. -/
inductive Verdict where
  | go
  | stop (running : ℕ) (supersededLater : Bool)
deriving DecidableEq

/-- What a view says of a record. -/
def verdict (mine recEnd : ℕ) : RowRead → Option Verdict
  | .contended => none
  | .view _ running recordPos =>
    let running := running.getD 0
    some (if recordPos < recEnd ∨ (recordPos = recEnd ∧ sameLine mine running) then .go
      else .stop running (recEnd < recordPos))

/-- What a frame is met with. -/
inductive Gate where
  | pass
  | stop (running : ℕ) (supersededLater : Bool)
  | pending
deriving DecidableEq

/-- A turn of the wait: `cluster_applied`, and the view where that is far enough. -/
structure Look where
  clusterApplied : ℕ
  view : RowRead
deriving DecidableEq

/-- `WAIT_SPINS` and `WAIT_YIELDS`, and the turn that gives up. -/
def waitTurns : ℕ := 1024 + 64 + 1

/-- A pin or a genesis of the row. -/
def isRecordOf (row : ℕ) (body : Bytes) : Bool :=
  match readClusterPrefix body with
  | none => false
  | some (kind, payload) =>
    (kind == .upgradePin || kind == .rowGenesis) && (payload.head?.map UInt8.toNat == some row)

/-- A version record is met. -/
def onClusterFrame (row mine decidedTo pos : ℕ) (f : LogFrame) (looks : List Look) : Gate :=
  if isRecordOf row f.body then
    let recEnd := pos + f.span
    if recEnd ≤ decidedTo then .pass
    else
      match (looks.take waitTurns).findSome? fun l =>
        if recEnd ≤ l.clusterApplied then verdict mine recEnd l.view else none with
      | some .go => .pass
      | some (.stop running later) => .stop running later
      | none => .pending
  else .pass

end VersionGate

/-! ## Artifacts -/

def snapshotEnvelopeLen : ℕ := 24

/-- `ULTSNAP2`. -/
def snapshotEnvelopeMagic : Bytes := [85, 76, 84, 83, 78, 65, 80, 50]

/-- `ULTSNAP1`. -/
def snapshotEnvelopeMagicV1 : Bytes := [85, 76, 84, 83, 78, 65, 80, 49]

/-- The header of an artifact. -/
structure SnapshotEnvelope where
  position : ℕ
  version : ℕ
deriving DecidableEq

/-- Why a header is refused. -/
inductive EnvelopeError where
  | short (len : ℕ)
  | badMagic (magic : Bytes)
  | reserved (word : ℕ)
  | legacy
  | mistagged (built presented : ℕ)
  | versionMismatch (built expected : ℕ)
deriving DecidableEq

/-- The header, if it is one. -/
def decodeSnapshotEnvelope (b : Bytes) : Except EnvelopeError SnapshotEnvelope :=
  if b.length < snapshotEnvelopeLen then
    if 8 ≤ b.length ∧ b.take 8 = snapshotEnvelopeMagicV1 then .error .legacy
    else .error (.short b.length)
  else if b.take 8 = snapshotEnvelopeMagicV1 then .error .legacy
  else if b.take 8 ≠ snapshotEnvelopeMagic then .error (.badMagic (b.take 8))
  else if Bytes.num b 20 24 ≠ 0 then .error (.reserved (Bytes.num b 20 24))
  else .ok ⟨Bytes.num b 8 16, Bytes.num b 16 20⟩

def writeSnapshotEnvelope (pos version : ℕ) : Bytes :=
  snapshotEnvelopeMagic ++ Bytes.le 8 pos ++ Bytes.le 4 version ++ [0, 0, 0, 0]

/-- The payload is what is left to read. -/
def verifySnapshotEnvelope (file : Bytes) (expected : ℕ) (expectedVersion : Option ℕ) :
    Except EnvelopeError Bytes := do
  let env ← decodeSnapshotEnvelope (file.take snapshotEnvelopeLen)
  if env.position ≠ expected then throw (.mistagged env.position expected)
  match expectedVersion with
  | some want => if sameLine env.version want then pure () else throw (.versionMismatch env.version want)
  | none => pure ()
  return file.drop snapshotEnvelopeLen

/-- Why a service stops. -/
inductive ServiceError where
  | journal (msg : String)
  | store (msg : String)
  | install (pos : ℕ) (e : SmSnapshotError)
  | landed (pos : ℕ) (cursor : Option UInt64) (installed : UInt64)
  | mistaggedSnapshot (pos : ℕ) (source : EnvelopeError)
  | snapshotRequired (needed firstAvailable : ℕ)
  | pinUnreadable
  | pinnedVersionMismatch (origin pinned mine : ℕ)
  | versionMismatch (running mine : ℕ)
  | pinRequiresSnapshots (origin : ℕ)
  | pinnedArtifactMissing (origin : ℕ)
  | drift (service journal : ℕ)
  /-- `stop_at_record`. -/
  | superseded (running pos : ℕ) (later : Bool)
  /-- `check_node_instance`. -/
  | instanceChanged
deriving DecidableEq

/-! ## The start set -/

/-- The row may start from it. -/
def startSetPermitted (attachPin : Option (ℕ × ℕ × ℕ)) (live : RowRead) (decidedTo : ℕ)
    (set : Option (ℕ × ℕ)) : Bool :=
  match live with
  | .contended => false
  | .view pin _ recordPos =>
    if decidedTo < recordPos then false
    else if attachPin.isNone && pin.isNone then true
    else set.any fun s => recordPos < s.1

/-- The tag is an exclusive frontier. -/
def installLanded (pos : ℕ) (installed : UInt64) (cursor : Option UInt64) : Bool :=
  installed == .ofNat pos && cursor.all (· < .ofNat pos)

variable {σ : Type} (M : SnapshotStateMachine σ)

/-- `open_` is what the opening of an artifact gives. -/
def installStartSet (version : ℕ) (sm : σ) (set : Option (ℕ × ℕ)) (resume frontier : ℕ)
    (open_ : ℕ → Option Bytes) : Except ServiceError (Option (ℕ × σ)) :=
  match set with
  | none => .ok none
  | some (pos, built) =>
    if pos ≤ resume ∨ frontier < pos then .ok none
    else if !sameLine built version then .ok none
    else
      match open_ pos with
      | none => .ok none
      | some file =>
        match verifySnapshotEnvelope file pos (some version) with
        | .error _ => .ok none
        | .ok payload =>
          match M.installSnapshot sm (.ofNat pos) payload with
          | .error e => .error (.install pos e)
          | .ok (sm, installed) =>
            if installLanded pos installed (M.lastApplied sm) then .ok (some (pos, sm))
            else .error (.landed pos (M.lastApplied sm) installed)

end UltimaCluster
