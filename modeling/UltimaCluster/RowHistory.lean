/-
  The versions of a row along the log, by the cluster FSM.
-/
import UltimaCluster.PinCompletion
import UltimaCluster.ServiceGate

namespace UltimaCluster

open ClusterState (accept readCommand runningFor setRunning_running walk walkAll_cons walkAll_nil)

open VersionGate

/-- What the cluster agent does with a frame of the log. -/
def clusterFrame (x : ℕ × LogFrame) : Option Frame :=
  if x.2.frameType = frameTypeSnapshot then
    some (.snapshot (x.1 + x.2.span) (x.2.hasFlag flagSnapshotStandby) x.2.timeNs)
  else if x.2.frameType = frameTypeCluster then some (.cluster (x.1 + x.2.span) x.2.body)
  else none

/-- A log and one of the rows of its cluster. -/
structure RowLog where
  log : CommittedLog
  membership : ClusterConfig
  settings : Settings
  row : Row
  /-- A pin names a set that the door has found complete. -/
  origins : ∀ x ∈ log.placed, x.2.frameType = frameTypeCluster → ∀ p,
    ClusterState.readCommand x.2.body = some (.upgradePin p) → p.origin ≤ x.1

namespace RowLog

variable (H : RowLog)

/-- The state of the cluster FSM after the frames that start below a position. -/
def clusterAt (pos : ℕ) : ClusterState :=
  (ClusterState.genesis H.membership H.settings).walkAll
    ((Tiling.below LogFrame.span 0 H.log.frames pos).filterMap clusterFrame)

def runningAt (pos : ℕ) : Option RowRunning := (H.clusterAt pos).running H.row

def pinAt (pos : ℕ) : Option UpgradePin := newestPin (H.clusterAt pos).pins H.row

/-- The end of the record that set the version; 0 before the first. -/
def recordAt (pos : ℕ) : ℕ := (H.runningAt pos).elim 0 RowRunning.recordPos

/-- The words of the row, as `publish_view` stores them. -/
def viewAt (pos : ℕ) : RowRead :=
  .view ((H.pinAt pos).map fun p => (p.origin, p.from_, p.to_)) ((H.runningAt pos).map RowRunning.version)
    (H.recordAt pos)

/-- What a frame does to the row. -/
inductive Recorded (x : ℕ × LogFrame) : Prop where
  | same (hrun : H.runningAt (x.1 + x.2.span) = H.runningAt x.1)
    (hpin : H.pinAt (x.1 + x.2.span) = H.pinAt x.1)
  | first (version : ℕ) (htype : x.2.frameType = frameTypeCluster) (hrec : isRecordOf H.row x.2.body)
    (hnone : H.runningAt x.1 = none)
    (hrun : H.runningAt (x.1 + x.2.span) = some ⟨H.row, version, x.1 + x.2.span⟩)
    (hpin : H.pinAt (x.1 + x.2.span) = H.pinAt x.1)
  | pin (p : UpgradePin) (htype : x.2.frameType = frameTypeCluster) (hrec : isRecordOf H.row x.2.body)
    (hrun : H.runningAt (x.1 + x.2.span) = some ⟨H.row, p.to_, x.1 + x.2.span⟩)
    (hpin : H.pinAt (x.1 + x.2.span) = some p) (horigin : p.origin ≤ x.1)

variable {H} {x : ℕ × LogFrame} {p q pos version : ℕ}

/-! ## One frame -/

theorem clusterAt_end (hx : x ∈ H.log.placed) :
    H.clusterAt (x.1 + x.2.span) = (H.clusterAt x.1).walkAll (clusterFrame x).toList := by
  rw [clusterAt, Tiling.below_concat LogFrame.span_pos hx, List.filterMap_append,
    ClusterState.walkAll_append]
  cases h : clusterFrame x <;> simp [h, clusterAt]

theorem isRecordOf_of_row {kind : ClusterKind} {row : ℕ} {rest : Bytes} (hrow : row < cncMaxServices)
    (hkind : kind = .upgradePin ∨ kind = .rowGenesis) :
    isRecordOf row (writeClusterPrefix kind ++ (Bytes.le 1 row ++ rest)) := by
  have hread := readClusterPrefix_eq_some.mpr (rfl : writeClusterPrefix kind ++ (Bytes.le 1 row ++ rest) = _)
  have hbyte : (UInt8.ofNat row).toNat = row := by
    simp only [cncMaxServices] at hrow
    rw [UInt8.toNat_ofNat']
    omega
  rw [isRecordOf, hread]
  obtain rfl | rfl := hkind <;> simp [Bytes.le, hbyte]

theorem isRecordOf_pin {body : Bytes} {p : UpgradePin}
    (h : readCommand body = some (.upgradePin p)) : isRecordOf p.row body := by
  obtain ⟨hfits, payload, rfl, rfl⟩ := readCommand_eq_some.mp h
  exact isRecordOf_of_row (UpgradePin.Fits.row hfits) (.inl rfl)

theorem isRecordOf_genesis {body : Bytes} {g : RowGenesis}
    (h : readCommand body = some (.rowGenesis g)) : isRecordOf g.row body := by
  obtain ⟨hfits, payload, rfl, rfl⟩ := readCommand_eq_some.mp h
  exact isRecordOf_of_row (RowGenesis.Fits.row hfits) (.inr rfl)

theorem walk_row (s : ClusterState) (row : Row) (end_ : ℕ) (body : Bytes) :
    ((s.walk (.cluster end_ body)).running row = s.running row ∧
      newestPin (s.walk (.cluster end_ body)).pins row = newestPin s.pins row) ∨
    (∃ version, isRecordOf row body ∧ s.running row = none ∧
      (s.walk (.cluster end_ body)).running row = some ⟨row, version, end_⟩ ∧
      newestPin (s.walk (.cluster end_ body)).pins row = newestPin s.pins row) ∨
    ∃ p, readCommand body = some (.upgradePin p) ∧ isRecordOf row body ∧
      (s.walk (.cluster end_ body)).running row = some ⟨row, p.to_, end_⟩ ∧
      newestPin (s.walk (.cluster end_ body)).pins row = some p := by
  have hwalk := walked s (.cluster end_ body)
  generalize s.walk (.cluster end_ body) = t at hwalk ⊢
  cases hwalk with
  | refused _ => exact .inl ⟨rfl, rfl⟩
  | @accepted _ _ cmd hfits hval hacc =>
    have hread : readCommand body = some cmd := by
      rw [Frame.accepted, Option.filter_eq_some_iff] at hacc
      exact hacc.1
    have heff := ClusterState.accept_effect { s with applied := end_ } end_ cmd
    generalize accept { s with applied := end_ } end_ cmd = t at heff ⊢
    cases heff with
    | upgradePin p =>
      rw [setRunning_running, newestPin_pushPin]
      by_cases hrow : p.row = row
      · refine .inr (.inr ⟨p, hread, hrow ▸ isRecordOf_pin hread, ?_, ?_⟩)
        · rw [if_pos hrow, hrow]
        · rw [if_pos hrow]
      · refine .inl ⟨?_, ?_⟩
        · rw [if_neg hrow]
        · rw [if_neg hrow]
    | rowGenesis g =>
      rw [setRunning_running]
      by_cases hrow : g.row = row
      · refine .inr (.inl ⟨g.version, hrow ▸ isRecordOf_genesis hread, ?_, ?_, rfl⟩)
        · cases hrunning : s.running row with
          | none => rfl
          | some r => simp [ClusterState.validateReplicated, runningFor, hrow, hrunning] at hval
        · rw [if_pos hrow, hrow]
      · refine .inl ⟨?_, rfl⟩
        rw [if_neg hrow]
    | _ => exact .inl ⟨rfl, rfl⟩

/-- A frame leaves the row as it is, sets its first version, or pins it. -/
theorem recorded (hx : x ∈ H.log.placed) : H.Recorded x := by
  have hend := clusterAt_end hx
  by_cases hsnap : x.2.frameType = frameTypeSnapshot
  · have hframe : clusterFrame x =
        some (.snapshot (x.1 + x.2.span) (x.2.hasFlag flagSnapshotStandby) x.2.timeNs) := if_pos hsnap
    obtain ⟨catalog, hcatalog⟩ := (H.clusterAt x.1).onSnapshotFrame_eq (x.1 + x.2.span)
      (x.2.hasFlag flagSnapshotStandby) x.2.timeNs
    rw [hframe, Option.toList_some, walkAll_cons, walkAll_nil,
      walk, hcatalog] at hend
    refine .same ?_ ?_
    · rw [runningAt, hend, runningAt]
    · rw [pinAt, hend, pinAt]
  by_cases hclu : x.2.frameType = frameTypeCluster
  · have hframe : clusterFrame x = some (.cluster (x.1 + x.2.span) x.2.body) := by
      rw [clusterFrame, if_neg hsnap, if_pos hclu]
    rw [hframe, Option.toList_some, walkAll_cons, walkAll_nil] at hend
    have hrow := walk_row (H.clusterAt x.1) H.row (x.1 + x.2.span) x.2.body
    rw [← hend] at hrow
    obtain ⟨hrun, hpin⟩ | ⟨version, hrec, hnone, hrun, hpin⟩ | ⟨p, hread, hrec, hrun, hpin⟩ := hrow
    · exact .same hrun hpin
    · exact .first version hclu hrec hnone hrun hpin
    · exact .pin p hclu hrec hrun hpin (H.origins x hx hclu p hread)
  · have hframe : clusterFrame x = none := by
      rw [clusterFrame, if_neg hsnap, if_neg hclu]
    rw [hframe, Option.toList_none, walkAll_nil] at hend
    refine .same ?_ ?_
    · rw [runningAt, hend, runningAt]
    · rw [pinAt, hend, pinAt]

/-! ## Along the log -/

theorem runningAt_zero : H.runningAt 0 = none := by
  have hnil : Tiling.below LogFrame.span 0 H.log.frames 0 = [] := by simp [Tiling.below]
  rw [runningAt, clusterAt, hnil]
  rfl

theorem pinAt_zero : H.pinAt 0 = none := by
  have hnil : Tiling.below LogFrame.span 0 H.log.frames 0 = [] := by simp [Tiling.below]
  rw [pinAt, clusterAt, hnil]
  rfl

theorem recordAt_le (hpos : H.log.Edge pos) : H.recordAt pos ≤ pos ∧ H.log.Edge (H.recordAt pos) := by
  refine Tiling.Edge.rule LogFrame.span_pos Tiling.edge_base hpos (Nat.zero_le _)
    (P := fun pos => H.recordAt pos ≤ pos ∧ H.log.Edge (H.recordAt pos)) ?_ ?_
  · rw [recordAt, runningAt_zero]
    exact ⟨le_rfl, Tiling.edge_base⟩
  · intro x hx _ _ ih
    have hend : H.log.Edge (x.1 + x.2.span) := Tiling.edge_end_of_mem hx
    cases recorded hx with
    | same hrun _ =>
      rw [recordAt, hrun, ← recordAt]
      exact ⟨Nat.le_trans ih.1 (Nat.le_add_right _ _), ih.2⟩
    | first version _ _ _ hrun _ =>
      rw [recordAt, hrun]
      exact ⟨le_rfl, hend⟩
    | pin p _ _ hrun _ _ =>
      rw [recordAt, hrun]
      exact ⟨le_rfl, hend⟩

/-- Between two edges a record of the row was accepted, or the row is as it was. -/
theorem settled (hp : H.log.Edge p) (hq : H.log.Edge q) (hle : p ≤ q) :
    p < H.recordAt q ∨ (H.runningAt q = H.runningAt p ∧ H.pinAt q = H.pinAt p) := by
  refine Tiling.Edge.rule LogFrame.span_pos hp hq hle
    (P := fun q => p < H.recordAt q ∨ (H.runningAt q = H.runningAt p ∧ H.pinAt q = H.pinAt p)) ?_ ?_
  · exact .inr ⟨rfl, rfl⟩
  · intro x hx hpx _ ih
    have hpos := x.2.span_pos
    cases recorded hx with
    | same hrun hpin => rwa [recordAt, hrun, hpin, ← recordAt]
    | first version _ _ _ hrun _ =>
      left
      rw [recordAt, hrun]
      show p < x.1 + x.2.span
      omega
    | pin pin _ _ hrun _ _ =>
      left
      rw [recordAt, hrun]
      show p < x.1 + x.2.span
      omega

theorem recordAt_mono (hp : H.log.Edge p) (hq : H.log.Edge q) (hle : p ≤ q) :
    H.recordAt p ≤ H.recordAt q := by
  obtain hlt | ⟨hrun, -⟩ := settled hp hq hle
  · exact Nat.le_trans (recordAt_le hp).1 (Nat.le_of_lt hlt)
  · rw [recordAt, recordAt, hrun]

theorem since_record (hp : H.log.Edge p) (hq : H.log.Edge q) (hle : p ≤ q) (hrec : H.recordAt q ≤ p) :
    H.runningAt q = H.runningAt p ∧ H.pinAt q = H.pinAt p :=
  (settled hp hq hle).resolve_left (Nat.not_lt.mpr hrec)

/-- A pinned row runs what its newest pin names, which lies above its origin. -/
theorem pinned (hpos : H.log.Edge pos) {pin : UpgradePin} (hpin : H.pinAt pos = some pin) :
    ∃ r, H.runningAt pos = some r ∧ r.version = pin.to_ ∧ pin.origin < H.recordAt pos := by
  revert pin
  refine Tiling.Edge.rule LogFrame.span_pos Tiling.edge_base hpos (Nat.zero_le _)
    (P := fun pos => ∀ {pin}, H.pinAt pos = some pin →
      ∃ r, H.runningAt pos = some r ∧ r.version = pin.to_ ∧ pin.origin < H.recordAt pos) ?_ ?_
  · intro pin hpin
    rw [pinAt_zero] at hpin
    cases hpin
  · intro x hx _ _ ih pin hpin
    have hpos := x.2.span_pos
    cases recorded hx with
    | same hrun hsame =>
      rw [hsame] at hpin
      rw [recordAt, hrun, ← recordAt]
      exact ih hpin
    | first version _ _ hnone _ hsame =>
      rw [hsame] at hpin
      obtain ⟨r, hr, -⟩ := ih hpin
      rw [hnone] at hr
      cases hr
    | pin p _ _ hrun hnew horigin =>
      rw [hnew] at hpin
      obtain rfl := Option.some.inj hpin
      refine ⟨_, hrun, rfl, ?_⟩
      rw [recordAt, hrun]
      show p.origin < x.1 + x.2.span
      omega

theorem unpinned (hp : H.log.Edge p) (hq : H.log.Edge q) (hle : p ≤ q) (hpin : H.pinAt q = none) :
    H.runningAt p = none ∨ H.runningAt p = H.runningAt q := by
  revert hpin
  refine Tiling.Edge.rule LogFrame.span_pos hp hq hle
    (P := fun q => H.pinAt q = none → H.runningAt p = none ∨ H.runningAt p = H.runningAt q) ?_ ?_
  · exact fun _ => .inr rfl
  · intro x hx _ _ ih hpin
    cases recorded hx with
    | same hrun hsame => exact hrun ▸ ih (hsame ▸ hpin)
    | first version _ _ hnone _ hsame =>
      obtain h | h := ih (hsame ▸ hpin)
      · exact .inl h
      · exact .inl (h.trans hnone)
    | pin p _ _ _ hnew _ =>
      rw [hnew] at hpin
      cases hpin

/-! ## Where a binary may apply -/

variable (H)

/-- On the row's line, before the row has a version, or between the origin and the
    record of a pin to the binary's line. -/
def Own (version pos : ℕ) : Prop :=
  (∀ r ∈ H.runningAt pos, sameLine version r.version) ∨
    ∃ q pin, H.log.Edge q ∧ H.pinAt q = some pin ∧ sameLine version pin.to_ ∧ pin.origin ≤ pos ∧
      pos < H.recordAt q

variable {H}

theorem sameLine_symm {a b : ℕ} (h : sameLine a b) : sameLine b a := by
  simp only [sameLine, beq_iff_eq] at *
  exact h.symm

theorem sameLine_trans {a b c : ℕ} (h : sameLine a b) (h' : sameLine b c) : sameLine a c := by
  simp only [sameLine, beq_iff_eq] at *
  exact h.trans h'

theorem Own.of_line {version' : ℕ} (h : H.Own version pos) (hline : sameLine version' version) :
    H.Own version' pos := by
  obtain h | ⟨q, pin, hq, hpin, hto, hrange⟩ := h
  · exact .inl fun r hr => sameLine_trans hline (h r hr)
  · exact .inr ⟨q, pin, hq, hpin, sameLine_trans hline hto, hrange⟩

/-- What a pin brings its line: every position from its origin to its record. -/
theorem own_of_pin (hq : H.log.Edge q) {pin : UpgradePin} (hpin : H.pinAt q = some pin)
    (hto : sameLine version pin.to_) (hpos : H.log.Edge pos) (horigin : pin.origin ≤ pos)
    (hle : pos ≤ H.recordAt q) : H.Own version pos := by
  obtain hlt | heq := Nat.lt_or_eq_of_le hle
  · exact .inr ⟨q, pin, hq, hpin, hto, horigin, hlt⟩
  · obtain ⟨r, hr, hversion, -⟩ := pinned hq hpin
    have hsame := (since_record hpos hq (heq ▸ (recordAt_le hq).1) (Nat.le_of_eq heq.symm)).1
    refine .inl fun r' hr' => ?_
    rw [← hsame, hr] at hr'
    obtain rfl := Option.some.inj hr'
    rwa [hversion]

theorem Own.next (h : H.Own version x.1) (hx : x ∈ H.log.placed)
    (hrec : ∀ r, H.runningAt (x.1 + x.2.span) = some r → r.recordPos = x.1 + x.2.span →
      sameLine version r.version) : H.Own version (x.1 + x.2.span) := by
  have hend : H.log.Edge (x.1 + x.2.span) := Tiling.edge_end_of_mem hx
  obtain h | ⟨q, pin, hq, hpin, hto, horigin, hlt⟩ := h
  · cases recorded hx with
    | same hrun _ => exact .inl (hrun ▸ h)
    | first v _ _ _ hrun _ =>
      refine .inl fun r hr => hrec r hr ?_
      rw [hrun] at hr
      rw [← Option.some.inj hr]
    | pin p _ _ hrun _ _ =>
      refine .inl fun r hr => hrec r hr ?_
      rw [hrun] at hr
      rw [← Option.some.inj hr]
  · -- the record of the pin is not inside the frame
    have hle : x.1 + x.2.span ≤ H.recordAt q :=
      ((recordAt_le hq).2.le_or_le hx).resolve_right (Nat.not_le.mpr hlt)
    exact own_of_pin hq hpin hto hend (Nat.le_trans horigin (Nat.le_add_right _ _)) hle

end RowLog

end UltimaCluster
