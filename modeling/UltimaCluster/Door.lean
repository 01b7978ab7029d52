/-
  The door and the replicas: a command that the leader's check accepts is
  accepted by every replica at the same state, and the bytes a replica takes
  for a command are its encodings.

  A command `Fits` when its values fit its layout; `WrittenAs` are the byte
  strings that decode to it.  Besides the encoding of the current version these
  are the forms the decoders still read: a membership record with the position
  of its predecessor, any reserved bytes in a schedule table's header, settings
  of an older version, reports without sizes.
-/
import UltimaCluster.ClusterFsm
import UltimaCluster.Codec

namespace UltimaCluster

open ClusterCommand (kind)
open ClusterState (apply readCommand)

open Bytes

/-! ## Commands as bytes -/

def ClusterCommand.Fits : ClusterCommand → Prop
  | membership c => c.Fits
  | scheduleTable t => t.Fits
  | settings s => s.Fits
  | upgradePin p => p.Fits
  | snapshotReport r => r.Fits
  | rowGenesis g => g.Fits
  | backupWatermark w => w.Fits

/-- The bytes that decode to it. -/
def ClusterCommand.WrittenAs : ClusterCommand → Bytes → Prop
  | membership c, b => ∃ prev < 2 ^ 64, encodeConfig c prev = b
  | scheduleTable t, b => ∃ pad : Bytes, pad.length = 2 ∧ scheduleBytes pad t = b
  | settings s, b => ∃ version n, settingsLen version = some n ∧ s.OfVersion version ∧
      (settingsBytes version s).take n = b
  | upgradePin p, b => encodeUpgradePin p = b
  | snapshotReport r, b => ∃ sized : Bool, (sized = false → r.Unsized) ∧
      reportBytes (reportEntryBytes sized) r = b
  | rowGenesis g, b => encodeRowGenesis g = b
  | backupWatermark w, b => encodeBackupWatermark w = b

variable {cmd : ClusterCommand} {kind : ClusterKind}

theorem decodeCommand_eq_some {payload : Bytes} :
    decodeCommand kind payload = some cmd ↔
      kind = cmd.kind ∧ cmd.Fits ∧ cmd.WrittenAs payload := by
  constructor
  · intro h
    cases kind <;> simp only [decodeCommand, Option.map_eq_some_iff] at h
    case membership =>
      obtain ⟨⟨c, prev⟩, hc, rfl⟩ := h
      obtain ⟨hfits, hprev, henc⟩ := encodeConfig_of_decodeConfig hc
      exact ⟨rfl, hfits, prev, hprev, henc⟩
    case scheduleTable =>
      obtain ⟨t, ht, rfl⟩ := h
      exact ⟨rfl, scheduleBytes_of_decodeScheduleTable ht⟩
    case settings =>
      obtain ⟨s, hs, rfl⟩ := h
      obtain ⟨hfits, hversion, hlen, henc⟩ := settingsBytes_of_decodeSettings hs
      exact ⟨rfl, hfits, _, _, hlen, hversion, henc⟩
    case upgradePin =>
      obtain ⟨p, hp, rfl⟩ := h
      exact ⟨rfl, encodeUpgradePin_of_decodeUpgradePin hp⟩
    case snapshotReport =>
      obtain ⟨r, hr, rfl⟩ := h
      exact ⟨rfl, reportBytes_of_decodeSnapshotReport hr⟩
    case rowGenesis =>
      obtain ⟨g, hg, rfl⟩ := h
      exact ⟨rfl, encodeRowGenesis_of_decodeRowGenesis hg⟩
    case backupWatermark =>
      obtain ⟨w, hw, rfl⟩ := h
      exact ⟨rfl, encodeBackupWatermark_of_decodeBackupWatermark hw⟩
  · rintro ⟨rfl, hfits, hwritten⟩
    cases cmd with
    | membership c =>
      obtain ⟨prev, hprev, rfl⟩ := hwritten
      simp [decodeCommand, kind, decodeConfig_encodeConfig hfits hprev]
    | scheduleTable t =>
      obtain ⟨pad, hpad, rfl⟩ := hwritten
      simp [decodeCommand, kind, decodeScheduleTable_scheduleBytes hfits hpad]
    | settings s =>
      obtain ⟨version, n, hlen, hversion, rfl⟩ := hwritten
      simp [decodeCommand, kind, decodeSettings_take hlen hfits hversion]
    | upgradePin p =>
      cases hwritten
      simp [decodeCommand, kind, decodeUpgradePin_encodeUpgradePin hfits]
    | snapshotReport r =>
      obtain ⟨sized, hs, rfl⟩ := hwritten
      simp [decodeCommand, kind, decodeSnapshotReport_reportBytes hfits hs]
    | rowGenesis g =>
      cases hwritten
      simp [decodeCommand, kind, decodeRowGenesis_encodeRowGenesis hfits]
    | backupWatermark w =>
      cases hwritten
      simp [decodeCommand, kind, decodeBackupWatermark_encodeBackupWatermark hfits]

theorem encodeCommand_writtenAs (h : cmd.Fits) :
    ∃ payload, encodeCommand cmd = some (cmd.kind, payload) ∧ cmd.WrittenAs payload := by
  cases cmd with
  | membership c => exact ⟨_, rfl, 0, Nat.two_pow_pos 64, rfl⟩
  | scheduleTable t => exact ⟨_, rfl, _, rfl, rfl⟩
  | settings s =>
    have hlen : (settingsBytes 7 s).length ≤ 49 := (length_settingsBytes 7 s).le
    refine ⟨_, rfl, 7, 49, rfl, ?_, List.take_of_length_le hlen⟩
    constructor <;> intro hv <;> omega
  | upgradePin p => exact ⟨_, rfl, rfl⟩
  | snapshotReport r =>
    refine ⟨reportBytes (reportEntryBytes true) r, ?_, true, nofun, rfl⟩
    rw [encodeCommand, encodeSnapshotReport_eq h.encodable]
    rfl
  | rowGenesis g => exact ⟨_, rfl, rfl⟩
  | backupWatermark w => exact ⟨_, rfl, rfl⟩

/-! ## The prefix -/

theorem ClusterKind.fromU8_byte (kind : ClusterKind) : ClusterKind.fromU8 kind.byte = some kind := by
  cases kind <;> rfl

theorem ClusterKind.byte_of_fromU8 {n : ℕ} (h : ClusterKind.fromU8 n = some kind) :
    kind.byte = n := by
  unfold ClusterKind.fromU8 at h
  split at h <;> cases h <;> rfl

theorem readClusterPrefix_eq_some {b : Bytes} {payload : Bytes} :
    readClusterPrefix b = some (kind, payload) ↔ b = writeClusterPrefix kind ++ payload := by
  constructor
  · intro h
    unfold readClusterPrefix at h
    split at h
    · cases h
    have h8 : clusterBodyPrefixLen = 8 := rfl
    simp only [Option.bind_eq_bind, Option.bind_eq_some_iff] at h
    obtain ⟨k, hk, h⟩ := h
    split at h
    · cases h
    rename_i hzero
    cases h
    have hsplit : slice b 0 1 ++ slice b 1 8 = b.take 8 := by
      rw [slice_append b (by omega) (by omega), slice, List.drop_zero]
    rw [writeClusterPrefix, ClusterKind.byte_of_fromU8 hk, at_, le_num (by rfl) (by omega),
      ← not_not.mp hzero, h8, hsplit, List.take_append_drop]
  · rintro rfl
    have hlen : ¬ (writeClusterPrefix kind ++ payload).length < clusterBodyPrefixLen := by
      simp only [writeClusterPrefix, clusterReserved, clusterBodyPrefixLen, List.length_append,
        length_le, List.length_cons, List.length_nil]
      omega
    have hkind : at_ (writeClusterPrefix kind ++ payload) 0 = kind.byte := by cases kind <;> rfl
    rw [readClusterPrefix, if_neg hlen, hkind, ClusterKind.fromU8_byte]
    rfl

variable {body : Bytes}

theorem readCommand_eq_some :
    readCommand body = some cmd ↔
      cmd.Fits ∧ ∃ payload, cmd.WrittenAs payload ∧ body = writeClusterPrefix cmd.kind ++ payload := by
  simp only [readCommand, Option.bind_eq_bind, Option.bind_eq_some_iff, Prod.exists,
    readClusterPrefix_eq_some, decodeCommand_eq_some]
  constructor
  · rintro ⟨kind, payload, hbody, rfl, hfits, hwritten⟩
    exact ⟨hfits, payload, hwritten, hbody⟩
  · rintro ⟨hfits, payload, hwritten, hbody⟩
    exact ⟨_, payload, hbody, rfl, hfits, hwritten⟩

theorem fits_of_readCommand (h : readCommand body = some cmd) : cmd.Fits :=
  (readCommand_eq_some.mp h).1

/-! ## Validation -/

theorem ClusterState.validateReplicated_applied (s : ClusterState) (position : ℕ)
    (cmd : ClusterCommand) :
    { s with applied := position }.validateReplicated cmd = s.validateReplicated cmd := by
  cases cmd <;> rfl

theorem ClusterFsm.validateReplicated_of_validate {f : ClusterFsm} (h : f.validate cmd = .ok ()) :
    f.state.validateReplicated cmd = .ok () := by
  unfold ClusterFsm.validate at h
  cases hr : f.state.validateReplicated cmd with
  | ok => rfl
  | error r =>
    rw [hr] at h
    cases h

theorem ClusterState.apply_accepted {s : ClusterState}
    (hbody : readCommand body = some cmd) (h : s.validateReplicated cmd = .ok ())
    (position : ℕ) :
    s.apply position body = ({ s with applied := position }.accept position cmd, 0) := by
  simp only [apply, hbody, ClusterState.validateReplicated_applied, h]

theorem ClusterState.apply_undecodable {s : ClusterState}
    (hbody : readCommand body = none) (position : ℕ) :
    s.apply position body = ({ s with applied := position }, undecodable) := by
  simp only [apply, hbody]

/-- What the door accepts the replicas accept; what is written is read back; and
    what is not written as a command is refused. -/
theorem door_and_replicas_agree (f : ClusterFsm) (cmd : ClusterCommand) :
    (f.validate cmd = .ok () → f.state.validateReplicated cmd = .ok ()) ∧
    (cmd.Fits → ∃ payload, encodeCommand cmd = some (cmd.kind, payload) ∧
      decodeCommand cmd.kind payload = some cmd ∧
      (f.validate cmd = .ok () → ∀ replica : ClusterFsm, replica.state = f.state → ∀ position,
        replica.state.apply position (writeClusterPrefix cmd.kind ++ payload) =
          ({ f.state with applied := position }.accept position cmd, 0))) ∧
    (∀ kind payload, decodeCommand kind payload = some cmd ↔
      kind = cmd.kind ∧ cmd.Fits ∧ cmd.WrittenAs payload) ∧
    (∀ body, (∀ c : ClusterCommand, c.Fits → ∀ payload, c.WrittenAs payload →
        body ≠ writeClusterPrefix c.kind ++ payload) →
      ∀ position, f.state.apply position body = ({ f.state with applied := position }, 42)) := by
  refine ⟨ClusterFsm.validateReplicated_of_validate, ?_, fun _ _ => decodeCommand_eq_some, ?_⟩
  · intro hfits
    obtain ⟨payload, henc, hwritten⟩ := encodeCommand_writtenAs hfits
    refine ⟨payload, henc, decodeCommand_eq_some.mpr ⟨rfl, hfits, hwritten⟩, ?_⟩
    intro hdoor replica hstate position
    have hread := readCommand_eq_some.mpr ⟨hfits, payload, hwritten, rfl⟩
    rw [hstate]
    exact ClusterState.apply_accepted hread (ClusterFsm.validateReplicated_of_validate hdoor) position
  · intro body hbody position
    refine ClusterState.apply_undecodable ?_ position
    cases hread : ClusterState.readCommand body with
    | none => rfl
    | some c =>
      obtain ⟨hfits, payload, hwritten, heq⟩ := readCommand_eq_some.mp hread
      exact absurd heq (hbody c hfits payload hwritten)

/-- A host that declares no service, with a cluster of one voter. -/
def singleVoter : ClusterFsm where
  state := ClusterState.genesis (ClusterConfig.genesis [(1, 0, 0)] []) Settings.genesisDefault
  declaredHashes := []

theorem door_and_replicas_agree_row_genesis :
    singleVoter.state.validateReplicated (.rowGenesis ⟨0, 65536⟩) = .ok () ∧
    (∃ payload, decodeCommand .rowGenesis payload = some (.rowGenesis ⟨0, 65536⟩) ∧
      singleVoter.state.apply 32 (writeClusterPrefix .rowGenesis ++ payload) =
        ({ singleVoter.state with applied := 32 }.accept 32 (.rowGenesis ⟨0, 65536⟩), 0)) ∧
    singleVoter.state.apply 32 [] = ({ singleVoter.state with applied := 32 }, 42) := by
  obtain ⟨hrep, hwrite, -, hrefuse⟩ :=
    door_and_replicas_agree singleVoter (.rowGenesis ⟨0, 65536⟩)
  obtain ⟨payload, -, hdec, happly⟩ := hwrite ⟨by decide, by decide⟩
  refine ⟨hrep (by decide), ⟨payload, hdec, happly (by decide) singleVoter rfl 32⟩, ?_⟩
  refine hrefuse [] ?_ 32
  intro c _ payload _ hnil
  exact absurd (congrArg List.length hnil) (by simp [writeClusterPrefix, clusterReserved])

/-- A pin with origin 0 is written and not read back; a settings record of the
    first version is read although no command is written so. -/
theorem codec_not_total :
    (∃ kind payload, encodeCommand (.upgradePin ⟨0, 0, 0, 0⟩) = some (kind, payload) ∧
      decodeCommand kind payload = none) ∧
    ∃ kind payload, (∀ cmd, encodeCommand cmd ≠ some (kind, payload)) ∧
      (decodeCommand kind payload).isSome = true := by
  refine ⟨⟨_, _, rfl, by decide⟩, .settings, le 4 1 ++ List.replicate 25 0, ?_, by decide⟩
  intro cmd h
  cases cmd with
  | settings s =>
    have hb : encodeSettings s = le 4 1 ++ List.replicate 25 0 := congrArg Prod.snd (Option.some.inj h)
    have hlen : (settingsBytes 7 s).length = 29 := congrArg List.length hb
    rw [length_settingsBytes] at hlen
    exact absurd hlen (by decide)
  | snapshotReport r =>
    simp only [encodeCommand, Option.map_eq_some_iff] at h
    obtain ⟨_, _, h⟩ := h
    cases h
  | _ => cases h

end UltimaCluster
