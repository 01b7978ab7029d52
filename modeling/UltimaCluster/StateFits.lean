/-
  Every state of a walk fits the codecs of its image.

  `Fits` bounds each record by its wire type, counts the lists that an image
  carries, and says that a pinned row has a running record, without which an
  image that holds no running record would be read differently.
-/
import UltimaCluster.PinCompletion

namespace UltimaCluster

/-! ## Frames -/

/-- Positions and times are 64-bit. -/
def Frame.Fits : Frame → Prop
  | .snapshot end_ _ timeNs => end_ < 2 ^ 64 ∧ timeNs < 2 ^ 64
  | .cluster end_ _ => end_ < 2 ^ 64
  | .consumed cursor => cursor < 2 ^ 64

theorem Frame.Fits.end_ {f : Frame} (h : f.Fits) : f.end_ < 2 ^ 64 := by
  cases f with
  | snapshot _ _ _ => exact h.1
  | cluster _ _ => exact h
  | consumed _ => exact h

/-! ## Verdicts -/

theorem foldl_max_lt {l : List ℕ} {bound : ℕ} (h : ∀ x ∈ l, x < bound) {a : ℕ} (ha : a < bound) :
    l.foldl max a < bound := by
  induction l generalizing a with
  | nil => exact ha
  | cons x l ih =>
    refine ih (fun y hy => h y (List.mem_cons_of_mem _ hy)) ?_
    exact max_lt ha (h x List.mem_cons_self)

theorem majorityHash_lt {r : SnapshotReport} (h : r.Fits) :
    (verdict r).majorityHash.getD 0 < 2 ^ 64 := by
  cases hm : (verdict r).majorityHash with
  | none => exact Nat.two_pow_pos 64
  | some m =>
    obtain ⟨e, he, rfl⟩ := List.mem_map.mp (List.mem_of_find?_eq_some hm)
    exact (h.hash e he).2.1

theorem majoritySize_lt {r : SnapshotReport} (h : r.Fits) (v : Verdict) :
    majoritySize r v < 2 ^ 64 := by
  unfold majoritySize
  split
  · exact Nat.two_pow_pos 64
  · refine foldl_max_lt ?_ (Nat.two_pow_pos 64)
    intro x hx
    obtain ⟨e, he, rfl⟩ := List.mem_map.mp hx
    exact (h.hash e (List.mem_of_mem_filter he)).2.2

/-! ## The invariant -/

/-- What an image can hold. -/
structure ClusterState.Fits (s : ClusterState) : Prop where
  membership : s.membership.Fits
  table : s.table.Fits
  tablePosition : s.tablePosition < 2 ^ 64
  settings : s.settings.Fits
  settingsPosition : s.settingsPosition < 2 ^ 64
  applied : s.applied < 2 ^ 64
  pins : ∀ p ∈ s.pins, p.Fits
  pinned : ∀ p ∈ s.pins, ∀ row : Row, p.row = row → s.declared row = true
  reports : ∀ r ∈ s.reports, r.Fits ∧ r.row < cncMaxServices
  reportRows : (s.reports.map SnapshotReport.row).Nodup
  running : ∀ row r, s.running row = some r → r.Fits
  catalog : ∀ e ∈ s.catalog, e.Fits
  backups : ∀ e ∈ s.backups, e.Fits

namespace ClusterState

theorem genesis_fits {m : ClusterConfig} {g : Settings} (hm : m.Fits) (hg : g.Fits) :
    (genesis m g).Fits where
  membership := hm
  table := ⟨Nat.zero_le _, nofun, List.nodup_nil⟩
  tablePosition := Nat.two_pow_pos 64
  settings := by
    simp only [genesis]
    split
    · exact { hg with retainSets := Nat.one_lt_two_pow (by decide) }
    · exact hg
  settingsPosition := Nat.two_pow_pos 64
  applied := Nat.two_pow_pos 64
  pins := nofun
  pinned := nofun
  reports := nofun
  reportRows := List.nodup_nil
  running := nofun
  catalog := nofun
  backups := nofun

section
variable {s : ClusterState}

theorem Fits.versionAt (h : s.Fits) (row position : ℕ) : s.versionAt row position < 2 ^ 32 := by
  simp only [ClusterState.versionAt]
  split
  · exact Nat.two_pow_pos 32
  · split
    · rename_i q hq
      exact (h.pins q (List.mem_of_mem_filter (List.mem_of_find?_eq_some hq))).from_
    · split
      · rename_i q hq
        exact (h.pins q (List.mem_of_mem_filter (List.mem_of_getLast? hq))).to_
      · cases hr : s.runningFor row with
        | none => exact Nat.two_pow_pos 32
        | some r =>
          unfold runningFor at hr
          split at hr
          · exact (h.running _ r hr).version
          · cases hr

theorem Fits.rowEntry (h : s.Fits) {r : SnapshotReport} (hr : r.Fits) : (s.rowEntry r).Fits where
  version := h.versionAt r.row r.position
  hash := majorityHash_lt hr
  size := majoritySize_lt hr _

end

/-! ## The catalog -/

end ClusterState

theorem RowEntry.unreported_fits : RowEntry.unreported.Fits :=
  ⟨Nat.two_pow_pos 32, Nat.two_pow_pos 64, Nat.two_pow_pos 64⟩

theorem SetEntry.Fits.putRow {e : SetEntry} (h : e.Fits) {entry : RowEntry} (hentry : entry.Fits)
    (row : ℕ) : (e.putRow row entry).Fits := by
  unfold SetEntry.putRow
  split
  · exact { h with cluster := hentry }
  · split
    · refine { h with row := fun i => ?_ }
      simp only [Function.update_apply]
      split
      · exact hentry
      · exact h.row i
    · exact h

theorem SetEntry.Fits.record {e : SetEntry} (h : e.Fits) {entry : RowEntry} (hentry : entry.Fits)
    (declared : Row → Bool) (row : ℕ) : (e.record declared row entry).Fits := by
  have hput := h.putRow hentry row
  simp only [SetEntry.record]
  split
  · exact ⟨hput.position, hput.timeNs, hput.row, hput.cluster⟩
  · exact hput

namespace ClusterState

section
variable {s : ClusterState} {f : Frame}

theorem fits_of_accepted {cmd : ClusterCommand} (hacc : f.accepted s = some cmd) : cmd.Fits := by
  have hw := walked s f
  generalize s.walk f = t at hw
  cases hw with
  | snapshot _ _ _ => cases hacc
  | refused hnone =>
    rw [hnone] at hacc
    cases hacc
  | accepted hfits _ hacc' =>
    cases hacc'.symm.trans hacc
    exact hfits
  | consumed _ => cases hacc
  | passed _ => cases hacc

theorem Fits.staged (h : s.Fits) (hf : f.Fits) : ∀ e ∈ s.staged f, e.Fits := by
  intro e he
  unfold ClusterState.staged at he
  split at he
  · split at he
    · exact h.catalog e he
    · rw [List.mem_insertionSort, List.mem_append, List.mem_singleton] at he
      rcases he with he | rfl
      · exact h.catalog e he
      · exact ⟨hf.1, hf.2, fun _ => RowEntry.unreported_fits, RowEntry.unreported_fits⟩
  · split at he
    · rename_i r hacc
      obtain ⟨e₀, he₀, rfl⟩ := List.mem_map.mp he
      unfold recordIn
      split
      · exact (h.catalog e₀ he₀).record (h.rowEntry (fits_of_accepted hacc)) _ _
      · exact h.catalog e₀ he₀
    · exact h.catalog e he
  · exact h.catalog e he

/-! ## The held reports -/

theorem holdReport_congr {s t : ClusterState} (h : s.reports = t.reports) (r : SnapshotReport) :
    (s.holdReport r).reports = (t.holdReport r).reports := by
  unfold holdReport
  rw [h]
  split
  · exact h
  · split <;> rfl

theorem putReport_reports (s : ClusterState) (r : SnapshotReport) :
    (s.putReport r).reports = (s.holdReport r).reports := by
  obtain ⟨catalog, hfold⟩ := s.foldIntoCatalog_eq r
  unfold putReport
  simp only [hfold]
  refine holdReport_congr ?_ r
  split <;> rfl

theorem Fits.holdReport (h : s.Fits) {r : SnapshotReport} (hr : r.Fits) :
    (∀ q ∈ (s.holdReport r).reports, q.Fits ∧ q.row < cncMaxServices) ∧
      ((s.holdReport r).reports.map SnapshotReport.row).Nodup := by
  unfold ClusterState.holdReport
  split
  · exact ⟨h.reports, h.reportRows⟩
  rename_i hcluster
  have hrow : r.row < cncMaxServices := by
    have := hr.encodable.2.2.2.1
    simp only [isReportRow, Bool.or_eq_true, decide_eq_true_eq, beq_iff_eq] at this
    exact this.resolve_right hcluster
  cases hi : s.reports.findIdx? fun q => q.row == r.row with
  | some i =>
    obtain ⟨l₁, a, l₂, heq, ha, -, hlen⟩ := List.findIdx?_split hi
    have hset : s.reports.set i r = l₁ ++ r :: l₂ := by
      rw [heq, ← hlen]
      simp
    simp only [hset]
    constructor
    · intro q hq
      rcases List.mem_append.mp hq with hq | hq
      · exact h.reports q (heq ▸ List.mem_append_left _ hq)
      · rcases List.mem_cons.mp hq with rfl | hq
        · exact ⟨hr, hrow⟩
        · exact h.reports q (heq ▸ List.mem_append_right _ (List.mem_cons_of_mem _ hq))
    · have hrows := h.reportRows
      rw [heq, List.map_append, List.map_cons, eq_of_beq ha] at hrows
      rwa [List.map_append, List.map_cons]
  | none =>
    simp only
    constructor
    · intro q hq
      rcases List.mem_append.mp hq with hq | hq
      · exact h.reports q hq
      · rw [List.mem_singleton.mp hq]
        exact ⟨hr, hrow⟩
    · rw [List.map_append, List.nodup_append']
      refine ⟨h.reportRows, List.nodup_singleton _, ?_⟩
      intro row hmem hself
      obtain ⟨q, hq, rfl⟩ := List.mem_map.mp hmem
      have hne := List.findIdx?_eq_none_iff.mp hi q hq
      exact ne_of_beq_false hne (List.mem_singleton.mp hself)

theorem Fits.walk_reports (h : s.Fits) :
    (∀ q ∈ (s.walk f).reports, q.Fits ∧ q.row < cncMaxServices) ∧
      ((s.walk f).reports.map SnapshotReport.row).Nodup := by
  by_cases hreport : ∃ r, f.accepted s = some (.snapshotReport r)
  · obtain ⟨r, hacc⟩ := hreport
    have hhold : (s.walk f).reports = (s.holdReport r).reports := by
      rw [walk_report hacc, putReport_reports]
      exact @holdReport_congr { s with applied := f.end_ } s rfl r
    rw [hhold]
    exact h.holdReport (fits_of_accepted hacc)
  · have hsame : (s.walk f).reports = s.reports := by
      have hw := walked s f
      generalize s.walk f = t at hw ⊢
      cases hw with
      | snapshot end_ standby timeNs =>
        obtain ⟨catalog, hsnap⟩ := s.onSnapshotFrame_eq end_ standby timeNs
        rw [hsnap]
      | refused _ => rfl
      | @accepted end_ body cmd _ _ hacc =>
        have heff := accept_effect { s with applied := end_ } end_ cmd
        generalize accept { s with applied := end_ } end_ cmd = t at heff ⊢
        cases heff with
        | snapshotReport r _ _ => exact absurd ⟨r, hacc⟩ hreport
        | _ => rfl
      | consumed _ => rfl
      | passed _ => rfl
    rw [hsame]
    exact ⟨h.reports, h.reportRows⟩

/-! ## One frame -/

theorem Settings.Fits.adopt {cur r : Settings} (hcur : cur.Fits) (hr : r.Fits) :
    (adoptSettings cur r).Fits where
  fsmLagBytes := hr.fsmLagBytes
  admissionBytes := hr.admissionBytes
  snapshotIntervalBytes := hr.snapshotIntervalBytes
  datagramMtu := max_lt hcur.datagramMtu hr.datagramMtu
  retainSets := by
    simp only [adoptSettings]
    split
    · exact Nat.one_lt_two_pow (by decide)
    · exact hr.retainSets
  backupRetainSets := hr.backupRetainSets
  backupRetainAgeSecs := hr.backupRetainAgeSecs
  purgeRequiresTiers := hr.purgeRequiresTiers
  wireLevel := max_lt hcur.wireLevel hr.wireLevel
  wireRaise := by
    simp only [adoptSettings]
    split
    · exact hcur.wireRaise
    · exact hr.wireRaise

theorem mem_pushPin {p q : UpgradePin} (hq : q ∈ (s.pushPin p).pins) : q ∈ s.pins ∨ q = p := by
  rw [pushPin_pins] at hq
  split at hq
  · simpa using List.mem_of_mem_eraseP hq
  · simpa using hq

variable {n version position : ℕ}

theorem Fits.setRunning (h : s.Fits) (hn : n < cncMaxServices) (hversion : version < 2 ^ 32)
    (hposition : position < 2 ^ 64) (row : Row) (r : RowRunning)
    (hr : (s.setRunning n version position).running row = some r) : r.Fits := by
  rw [setRunning_running] at hr
  split at hr
  · cases hr
    exact ⟨hn, hversion, hposition⟩
  · exact h.running row r hr

theorem setRunning_declared {row : Row} (h : s.declared row = true) :
    ClusterState.declared { s with running := (s.setRunning n version position).running } row = true := by
  simp only [declared, setRunning_running]
  split
  · rfl
  · exact h

theorem Fits.putBackupWatermark (h : s.Fits) {w : BackupWatermark} (hw : w.Fits)
    (hposition : position < 2 ^ 64) : ∀ e ∈ (s.putBackupWatermark w position).backups, e.Fits := by
  unfold ClusterState.putBackupWatermark
  cases hidx : s.backups.findIdx? fun e => e.tierId == w.tierId with
  | some i =>
    obtain ⟨l₁, a, l₂, heq, -, -, hi⟩ := List.findIdx?_split hidx
    have ha := h.backups a (heq ▸ List.mem_append_right l₁ List.mem_cons_self)
    simp only
    rw [heq, ← hi, List.modify_append_cons]
    intro e he
    rcases List.mem_append.mp he with he | he
    · exact h.backups e (heq ▸ List.mem_append_left _ he)
    · rcases List.mem_cons.mp he with rfl | he
      · split
        · exact ha
        · have hnew := max_lt ha.newestSet hw.newestSet
          exact ⟨ha.tierId, (min_le_right _ _).trans_lt hnew, hnew, hw.through, hw.reporter, hposition⟩
      · exact h.backups e (heq ▸ List.mem_append_right _ (List.mem_cons_of_mem _ he))
  | none =>
    simp only
    split
    · intro e he
      rcases List.mem_append.mp he with he | he
      · exact h.backups e he
      · rw [List.mem_singleton.mp he]
        exact ⟨hw.tierId, (min_le_left _ _).trans_lt hw.oldestSet, hw.newestSet, hw.through,
          hw.reporter, hposition⟩
    · exact h.backups

theorem Fits.accept (h : s.Fits) (hposition : position < 2 ^ 64) {cmd : ClusterCommand}
    (hfits : cmd.Fits) (hcatalog : ∀ e ∈ (s.accept position cmd).catalog, e.Fits)
    (hreports : ∀ r ∈ (s.accept position cmd).reports, r.Fits ∧ r.row < cncMaxServices)
    (hrows : ((s.accept position cmd).reports.map SnapshotReport.row).Nodup) :
    (s.accept position cmd).Fits := by
  have heff := s.accept_effect position cmd
  generalize s.accept position cmd = t at heff hcatalog hreports hrows ⊢
  cases heff with
  | membership c => exact { h with membership := hfits }
  | scheduleTable t => exact { h with table := hfits, tablePosition := hposition }
  | settings r catalog =>
    exact { h with
      settings := Settings.Fits.adopt h.settings hfits
      settingsPosition := hposition
      catalog := hcatalog }
  | upgradePin p =>
    refine { h with
      pins := ?_
      pinned := ?_
      running := h.setRunning hfits.row hfits.to_ hposition }
    · intro q hq
      rcases mem_pushPin hq with hq | rfl
      · exact h.pins q hq
      · exact hfits
    · intro q hq row hrow
      rcases mem_pushPin hq with hq | rfl
      · exact setRunning_declared (h.pinned q hq row hrow)
      · simp [declared, setRunning_running, hrow]
  | snapshotReport r catalog reports =>
    exact { h with reports := hreports, reportRows := hrows, catalog := hcatalog }
  | rowGenesis g =>
    refine { h with
      pinned := ?_
      running := h.setRunning hfits.row hfits.version hposition }
    intro q hq row hrow
    exact setRunning_declared (h.pinned q hq row hrow)
  | report _ => exact { h with backups := h.putBackupWatermark hfits hposition }
  | forget _ =>
    exact { h with backups := fun e he => h.backups e (List.mem_of_mem_filter he) }

theorem Fits.walk (h : s.Fits) (hsorted : CatalogSorted s.catalog) (hf : f.Fits) : (s.walk f).Fits := by
  have hcatalog : ∀ e ∈ (s.walk f).catalog, e.Fits := fun e he =>
    h.staged hf e ((retained hsorted f).pruned.sublist.subset he)
  obtain ⟨hreports, hrows⟩ := h.walk_reports (f := f)
  have hend := hf.end_
  have hw := walked s f
  generalize s.walk f = t at hw hcatalog hreports hrows ⊢
  cases hw with
  | snapshot end_ standby timeNs =>
    obtain ⟨catalog, hsnap⟩ := s.onSnapshotFrame_eq end_ standby timeNs
    rw [hsnap] at hcatalog ⊢
    exact { h with catalog := hcatalog }
  | refused _ => exact { h with applied := hend }
  | @accepted end_ body cmd hfits _ _ =>
    have h' : ClusterState.Fits { s with applied := end_ } := { h with applied := hend }
    exact h'.accept hend hfits hcatalog hreports hrows
  | consumed _ => exact { h with applied := hend }
  | passed _ => exact h

theorem Fits.walkAll (h : s.Fits) (hok : s.CatalogOk) {fs : List Frame} (hfs : ∀ f ∈ fs, f.Fits) :
    (s.walkAll fs).Fits := by
  induction fs generalizing s with
  | nil => exact h
  | cons f fs ih =>
    exact ih (h.walk hok.sorted (hfs f List.mem_cons_self)) (hok.walk f)
      fun g hg => hfs g (List.mem_cons_of_mem f hg)

/-! ## The length of the lists -/

theorem Fits.length_reports (h : s.Fits) : s.reports.length ≤ cncMaxServices := by
  have hsub : s.reports.map SnapshotReport.row ⊆ List.range cncMaxServices := by
    intro row hrow
    obtain ⟨r, hr, rfl⟩ := List.mem_map.mp hrow
    exact List.mem_range.mpr (h.reports r hr).2
  have hle := (h.reportRows.subperm hsub).length_le
  rwa [List.length_map, List.length_range] at hle

theorem Fits.length_pins (h : s.Fits) (hpins : PinsSound s.pins) :
    s.pins.length ≤ cncMaxServices * maxPinsPerRow :=
  List.length_le_of_filter (fun p hp => (h.pins p hp).row) hpins.bounded

end

end ClusterState

end UltimaCluster
