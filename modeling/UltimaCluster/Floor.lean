/-
  The cluster floor: the newest agreed set.

  Agreement is read off the verdicts of a set's rows, and an accepted report
  overwrites its row's verdict, also in a set that is agreed already.  The floor
  is upheld at every step of a walk exactly when no such report disagrees.
-/
import UltimaCluster.CatalogRun

namespace UltimaCluster

namespace SetEntry

theorem isAgreed_iff {e : SetEntry} : e.isAgreed = true ↔
    e.state = .complete ∧ e.cluster.verdict = .agreed ∧
      ∀ i, (e.rows i).verdict = .unreported ∨ (e.rows i).verdict = .agreed := by
  simp [isAgreed, and_assoc]

theorem record_isAgreed_iff {e : SetEntry} (he : e.isAgreed = true) (declared : Row → Bool)
    {row : ℕ} {entry : RowEntry} (hrow : row = clusterRow ∨ row < cncMaxServices)
    (hentry : entry.verdict ≠ .unreported) :
    (e.record declared row entry).isAgreed = true ↔ entry.verdict = .agreed := by
  obtain ⟨hstate, hcluster, hrows⟩ := isAgreed_iff.mp he
  rw [record_of_complete hstate]
  unfold putRow
  by_cases hc : row = clusterRow
  · rw [if_pos hc, isAgreed_iff]
    simp [hstate, hrows]
  · have hlt := hrow.resolve_left hc
    rw [if_neg hc, dif_pos hlt, isAgreed_iff]
    constructor
    · rintro ⟨-, -, h⟩
      have := h ⟨row, hlt⟩
      simp only [Function.update_self] at this
      exact this.resolve_left hentry
    · intro h
      refine ⟨hstate, hcluster, ?_⟩
      intro i
      by_cases hi : i = ⟨row, hlt⟩
      · subst hi
        simp [h]
      · simp only [Function.update_of_ne hi]
        exact hrows i

end SetEntry

variable {c : List SetEntry}

theorem newestAgreed_isSome {e : SetEntry} (he : e ∈ c) (hagreed : e.isAgreed = true) :
    ∃ x, newestAgreed c = some x := by
  rw [← Option.isSome_iff_exists, newestAgreed, List.find?_isSome]
  exact ⟨e, List.mem_reverse.mpr he, hagreed⟩

theorem mem_of_newestAgreed {x : SetEntry} (h : newestAgreed c = some x) :
    x ∈ c ∧ x.isAgreed = true :=
  ⟨List.mem_reverse.mp (List.mem_of_find?_eq_some h), List.find?_some h⟩

theorem CatalogSorted.le_newestAgreed (hc : CatalogSorted c) {e x : SetEntry} (he : e ∈ c)
    (hagreed : e.isAgreed = true) (hx : newestAgreed c = some x) : e.position ≤ x.position := by
  obtain ⟨l₁, l₂, rfl, -, hl₂⟩ := List.reverse_find?_split hx
  rcases List.mem_append.mp he with he | he
  · exact ((List.pairwise_append.mp hc).2.2 e he x List.mem_cons_self).le
  · rcases List.mem_cons.mp he with rfl | he
    · exact le_rfl
    · rw [hl₂ e he] at hagreed
      cases hagreed

namespace ClusterState

/-! ## One step -/

/-- An agreed set that stays listed stays agreed, and the newest agreed set neither
    goes back nor vanishes. -/
structure FloorUpheld (s : ClusterState) (f : Frame) : Prop where
  agreed : ∀ e ∈ s.catalog, e.isAgreed = true → ∀ e' ∈ (s.walk f).catalog,
    e'.position = e.position → e'.isAgreed = true
  newest : ∀ e, newestAgreed s.catalog = some e →
    ∃ e', newestAgreed (s.walk f).catalog = some e' ∧ e.position ≤ e'.position

/-- An accepted report that is recorded in an agreed set agrees as well. -/
def AgreesAgain (s : ClusterState) (f : Frame) : Prop :=
  ∀ r, f.accepted s = some (.snapshotReport r) → s.recorded r.row = true →
    ∀ e ∈ s.catalog, e.position = r.position → e.isAgreed = true → (verdict r).agreed = true

instance (s : ClusterState) (f : Frame) : Decidable (s.AgreesAgain f) :=
  match h : f.accepted s with
  | some (.snapshotReport r) =>
    decidable_of_iff (s.recorded r.row = true → ∀ e ∈ s.catalog, e.position = r.position →
        e.isAgreed = true → (verdict r).agreed = true)
      ⟨fun hagrees _ hacc => by cases h.symm.trans hacc; exact hagrees,
        fun hagrees => hagrees r h⟩
  | some (.membership _) | some (.scheduleTable _) | some (.settings _) | some (.upgradePin _)
  | some (.rowGenesis _) | some (.backupWatermark _) | none =>
    isTrue fun _ hacc => by cases h.symm.trans hacc

variable {s : ClusterState}

theorem row_of_recorded {row : ℕ} (h : s.recorded row = true) :
    row = clusterRow ∨ row < cncMaxServices := by
  rcases Bool.or_eq_true_iff.mp h with h | h
  · exact .inl (eq_of_beq h)
  · split at h
    · exact .inr ‹_›
    · cases h

theorem rowEntry_verdict (s : ClusterState) (r : SnapshotReport) :
    (s.rowEntry r).verdict ≠ .unreported ∧
      ((s.rowEntry r).verdict = .agreed ↔ (verdict r).agreed = true) := by
  simp only [rowEntry]
  split_ifs with h <;> simp [h]

theorem recordIn_isAgreed {r : SnapshotReport} {e : SetEntry} (he : e.isAgreed = true) :
    (s.recordIn r e).isAgreed = true ↔
      (e.position = r.position → s.recorded r.row = true → (verdict r).agreed = true) := by
  unfold recordIn
  split
  · rename_i h
    rw [SetEntry.record_isAgreed_iff he _ (row_of_recorded h.2) (s.rowEntry_verdict r).1,
      (s.rowEntry_verdict r).2]
    simp [h.1, h.2]
  · rename_i h
    simp only [he, true_iff]
    exact fun hpos hrec => absurd ⟨hpos, hrec⟩ h

theorem staged_agreed {f : Frame} (h : s.AgreesAgain f) {e : SetEntry} (he : e ∈ s.catalog)
    (hagreed : e.isAgreed = true) :
    ∃ e' ∈ s.staged f, e'.position = e.position ∧ e'.isAgreed = true := by
  unfold staged
  split
  · split
    · exact ⟨e, he, rfl, hagreed⟩
    · refine ⟨e, ?_, rfl, hagreed⟩
      rw [List.mem_insertionSort]
      exact List.mem_append_left _ he
  · split
    · rename_i r hacc
      refine ⟨s.recordIn r e, List.mem_map_of_mem he, recordIn_position s r e, ?_⟩
      rw [recordIn_isAgreed hagreed]
      exact fun hpos hrec => h r hacc hrec e he hpos hagreed
    · exact ⟨e, he, rfl, hagreed⟩
  · exact ⟨e, he, rfl, hagreed⟩

theorem floorUpheld_of_agreesAgain (hs : CatalogSorted s.catalog) {f : Frame} (h : s.AgreesAgain f) :
    s.FloorUpheld f where
  agreed := by
    intro e he hagreed e' he' hpos
    obtain ⟨x, hx, hxpos, hxagreed⟩ := staged_agreed h he hagreed
    have hr := retained hs f
    have heq := hr.sorted.eq_of_position (hr.pruned.sublist.subset he') hx (hpos.trans hxpos.symm)
    rw [heq]
    exact hxagreed
  newest := by
    intro e hnew
    obtain ⟨he, hagreed⟩ := mem_of_newestAgreed hnew
    obtain ⟨x, hx, hxpos, hxagreed⟩ := staged_agreed h he hagreed
    have hr := retained hs f
    obtain ⟨y, hy⟩ := newestAgreed_isSome hx hxagreed
    refine ⟨y, hr.pruned.newest.trans hy, ?_⟩
    rw [← hxpos]
    exact hr.sorted.le_newestAgreed hx hxagreed hy

theorem mem_putReport_of_not_agreed (hs : CatalogSorted s.catalog) {r : SnapshotReport}
    {e : SetEntry} (he : e ∈ s.catalog) (hpos : e.position = r.position)
    (hnot : (s.recordIn r e).isAgreed = false) : s.recordIn r e ∈ (s.putReport r).catalog := by
  have hmem : s.recordIn r e ∈ s.catalog.map (s.recordIn r) := List.mem_map_of_mem he
  have hfold : s.foldIntoCatalog r = { s with catalog := s.catalog.map (s.recordIn r) } := by
    rcases foldIntoCatalog_cases hs r with ⟨-, -, x, hx, hxpos, hxagreed⟩ | ⟨h, -⟩
    · have heq := (sorted_map_recordIn r hs).eq_of_position hx hmem
        (by rw [hxpos, recordIn_position, hpos])
      rw [heq, hnot] at hxagreed
      cases hxagreed
    · exact h
  unfold putReport
  simp only [hfold, holdReport_catalog]
  split
  · refine List.mem_filter.mpr ⟨hmem, ?_⟩
    simp [hpos]
  · exact hmem

theorem agreesAgain_of_floorUpheld (hs : CatalogSorted s.catalog) {f : Frame} (h : s.FloorUpheld f) :
    s.AgreesAgain f := by
  intro r hacc hrec e he hpos hagreed
  by_contra hno
  have hnot : (s.recordIn r e).isAgreed = false := by
    refine Bool.eq_false_of_not_eq_true fun hyes => hno ?_
    exact (recordIn_isAgreed hagreed).mp hyes hpos hrec
  have hmem : s.recordIn r e ∈ (s.walk f).catalog := by
    rw [walk_report hacc]
    exact mem_putReport_of_not_agreed (s := { s with applied := f.end_ }) hs he hpos hnot
  have := h.agreed e he hagreed _ hmem (recordIn_position s r e)
  rw [hnot] at this
  cases this

theorem floorUpheld_iff (hs : CatalogSorted s.catalog) (f : Frame) :
    s.FloorUpheld f ↔ s.AgreesAgain f :=
  ⟨agreesAgain_of_floorUpheld hs, floorUpheld_of_agreesAgain hs⟩

end ClusterState

/-! ## Whole walks -/

/-- Over every walk from genesis the floor is upheld at each step exactly when every
    accepted report on an agreed set agrees. -/
theorem floor_upheld_iff (m : ClusterConfig) (g : Settings) (fs : List Frame) :
    (ClusterState.genesis m g).Along ClusterState.FloorUpheld fs ↔
      (ClusterState.genesis m g).Along ClusterState.AgreesAgain fs :=
  ClusterState.along_congr (fun _ f hs => hs.walk f) (fun _ f hs => ClusterState.floorUpheld_iff hs.sorted f)
    (ClusterState.genesis_catalogOk m g)

/-- Row 0 runs a version; the set at 64 is reported by two nodes and agreed. -/
def agreedSet : List Frame :=
  [.cluster 32 (ClusterCommand.rowGenesis ⟨0, 65536⟩).body,
   .snapshot 64 false 0,
   .cluster 96 (ClusterCommand.snapshotReport ⟨0, 64, [(1, 7, 10), (2, 7, 10)]⟩).body,
   .cluster 128 (ClusterCommand.snapshotReport ⟨255, 64, [(1, 9, 10), (2, 9, 10)]⟩).body]

/-- A second report of row 0 for the same instant, in which the nodes differ. -/
def secondReport : Frame :=
  .cluster 160 (ClusterCommand.snapshotReport ⟨0, 64, [(1, 7, 10), (2, 8, 10)]⟩).body

theorem second_report_lowers_floor :
    (newestAgreed (singleVoter.state.walkAll agreedSet).catalog).map SetEntry.position = some 64 ∧
    (secondReport.accepted (singleVoter.state.walkAll agreedSet)).isSome = true ∧
    (singleVoter.state.walkAll (agreedSet ++ [secondReport])).catalog.map SetEntry.position = [64] ∧
    newestAgreed (singleVoter.state.walkAll (agreedSet ++ [secondReport])).catalog = none ∧
    ¬ singleVoter.state.Along ClusterState.FloorUpheld (agreedSet ++ [secondReport]) := by
  refine ⟨by decide, by decide, by decide, by decide, ?_⟩
  intro h
  have hstep := h.at
  obtain ⟨e, he⟩ : ∃ e, newestAgreed (singleVoter.state.walkAll agreedSet).catalog = some e :=
    Option.isSome_iff_exists.mp (by decide)
  obtain ⟨e', he', -⟩ := hstep.newest e he
  have hnone : newestAgreed ((singleVoter.state.walkAll agreedSet).walk secondReport).catalog = none := by
    decide
  rw [hnone] at he'
  cases he'

end UltimaCluster
