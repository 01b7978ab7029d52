/-
  The catalog along the log.

  A frame first changes the list (`staged`: a commanded set is added, or a
  report is recorded in its set), then retention prunes it.  `CatalogOk` is what
  every state of a walk keeps.
-/
import UltimaCluster.Retention

namespace UltimaCluster

open Evict

namespace ClusterState

/-! ## Recording a report -/

/-- What a report makes of one entry of the catalog. -/
def recordIn (s : ClusterState) (r : SnapshotReport) (e : SetEntry) : SetEntry :=
  if e.position = r.position ∧ s.recorded r.row = true then
    e.record s.declared r.row (s.rowEntry r)
  else e

/-- The list before retention runs. -/
def staged (s : ClusterState) (f : Frame) : List SetEntry :=
  match f with
  | .snapshot end_ standby timeNs =>
    if s.catalog.any fun e => e.position == end_ then s.catalog
    else
      let kind := if standby then SetKind.standby else .full
      (s.catalog ++ [SetEntry.commanded end_ kind timeNs]).insertionSort
        fun a b => a.position ≤ b.position
  | .cluster _ _ =>
    match f.accepted s with
    | some (.snapshotReport r) => s.catalog.map (s.recordIn r)
    | _ => s.catalog
  | .consumed _ => s.catalog

end ClusterState

@[simp] theorem SetEntry.putRow_position (row : ℕ) (entry : RowEntry) (e : SetEntry) :
    (e.putRow row entry).position = e.position := by
  unfold SetEntry.putRow
  split_ifs <;> rfl

@[simp] theorem SetEntry.putRow_state (row : ℕ) (entry : RowEntry) (e : SetEntry) :
    (e.putRow row entry).state = e.state := by
  unfold SetEntry.putRow
  split_ifs <;> rfl

@[simp] theorem SetEntry.record_position (declared : Row → Bool) (row : ℕ) (entry : RowEntry)
    (e : SetEntry) : (e.record declared row entry).position = e.position := by
  simp only [SetEntry.record]
  split
  · exact putRow_position row entry e
  · exact putRow_position row entry e

theorem SetEntry.record_of_complete {e : SetEntry} (h : e.state = .complete)
    (declared : Row → Bool) (row : ℕ) (entry : RowEntry) :
    e.record declared row entry = e.putRow row entry := by
  simp [SetEntry.record, h]

namespace ClusterState

@[simp] theorem recordIn_position (s : ClusterState) (r : SnapshotReport) (e : SetEntry) :
    (s.recordIn r e).position = e.position := by
  unfold recordIn
  split
  · exact SetEntry.record_position _ _ _ e
  · rfl

variable {c : List SetEntry} {s : ClusterState}

theorem sorted_map_recordIn (r : SnapshotReport) (h : CatalogSorted c) :
    CatalogSorted (c.map (s.recordIn r)) := by
  rw [CatalogSorted, List.pairwise_map]
  exact h.imp fun hlt => by simpa using hlt

variable {r : SnapshotReport}

/-- On a sorted list, recording at the index found is recording at the position. -/
theorem modify_eq_map {i : ℕ} (hs : CatalogSorted s.catalog)
    (hi : s.catalog.findIdx? (fun e => e.position == r.position) = some i)
    (hrec : s.recorded r.row = true) :
    s.catalog.modify i (SetEntry.record s.declared r.row (s.rowEntry r)) =
      s.catalog.map (s.recordIn r) := by
  obtain ⟨l₁, a, l₂, heq, ha, hl₁, rfl⟩ := List.findIdx?_split hi
  have hl₂ : ∀ b ∈ l₂, b.position ≠ r.position := by
    intro b hb
    rw [heq] at hs
    have hlt := (List.pairwise_cons.mp (List.pairwise_append.mp hs).2.1).1 b hb
    rw [← eq_of_beq ha]
    exact hlt.ne'
  have hid : ∀ l : List SetEntry, (∀ b ∈ l, b.position ≠ r.position) →
      l.map (s.recordIn r) = l := by
    intro l hl
    refine (List.map_congr_left ?_).trans (List.map_id l)
    intro b hb
    simp [recordIn, hl b hb]
  rw [heq, List.modify_append_cons, List.map_append, List.map_cons,
    hid l₁ fun b hb => ne_of_beq_false (hl₁ b hb), hid l₂ hl₂]
  simp [recordIn, eq_of_beq ha, hrec]

theorem foldIntoCatalog_cases (hs : CatalogSorted s.catalog) (r : SnapshotReport) :
    let m : ClusterState := { s with catalog := s.catalog.map (s.recordIn r) }
    (s.foldIntoCatalog r = m.retire ∧ s.recorded r.row = true ∧
      ∃ e ∈ m.catalog, e.position = r.position ∧ e.isAgreed = true) ∨
    (s.foldIntoCatalog r = m ∧
      (s.recorded r.row = true → ∀ e ∈ m.catalog, e.position = r.position → e.isAgreed = false)) := by
  intro m
  have hm : (∀ e ∈ s.catalog, s.recordIn r e = e) → m = s := by
    intro h
    have hmap : s.catalog.map (s.recordIn r) = s.catalog :=
      (List.map_congr_left h).trans (List.map_id _)
    simp only [m, hmap]
  unfold foldIntoCatalog
  cases hi : s.catalog.findIdx? fun e => e.position == r.position with
  | none =>
    have hno : ∀ e ∈ s.catalog, e.position ≠ r.position := fun e he =>
      ne_of_beq_false (List.findIdx?_eq_none_iff.mp hi e he)
    have hms : m = s := hm fun e he => by simp [recordIn, hno e he]
    right
    rw [hms]
    exact ⟨rfl, fun _ e he hpos => absurd hpos (hno e he)⟩
  | some i =>
    simp only
    split
    · rename_i hrec
      rw [modify_eq_map hs hi hrec]
      obtain ⟨l₁, a, l₂, heq, ha, -, hlen⟩ := List.findIdx?_split hi
      have hget : (s.catalog.map (s.recordIn r))[i]? = some (s.recordIn r a) := by
        rw [List.getElem?_map, heq, ← hlen]
        simp
      have hmem : s.recordIn r a ∈ m.catalog := List.mem_of_getElem? hget
      have hpos : (s.recordIn r a).position = r.position := by
        rw [recordIn_position]
        exact eq_of_beq ha
      rw [hget, Option.any_some]
      split
      · rename_i hagreed
        exact .inl ⟨rfl, hrec, _, hmem, hpos, hagreed⟩
      · rename_i hagreed
        refine .inr ⟨rfl, fun _ e he hepos => ?_⟩
        have hsame := (sorted_map_recordIn r hs).eq_of_position he hmem (hepos.trans hpos.symm)
        rw [hsame]
        exact Bool.eq_false_of_not_eq_true hagreed
    · rename_i hrec
      have hms : m = s := hm fun e _ => by simp [recordIn, hrec]
      right
      rw [hms]
      exact ⟨rfl, fun h => absurd h hrec⟩

@[simp] theorem holdReport_catalog (s : ClusterState) (r : SnapshotReport) :
    (s.holdReport r).catalog = s.catalog := by
  obtain ⟨reports, h⟩ := s.holdReport_eq r
  rw [h]

@[simp] theorem holdReport_pinnedOrigins (s : ClusterState) (r : SnapshotReport) :
    (s.holdReport r).pinnedOrigins = s.pinnedOrigins := by
  obtain ⟨reports, h⟩ := s.holdReport_eq r
  rw [h]
  rfl

/-- What a report leaves of the catalog: the recorded list or, where its set is
    agreed, what `retire` leaves of it; then older commanded sets may go. -/
theorem putReport_pruned (hs : CatalogSorted s.catalog) (r : SnapshotReport) :
    ∃ m : ClusterState, m = { s with catalog := s.catalog.map (s.recordIn r) } ∧
      Pruned m.catalog (s.putReport r).catalog ∧
      (∀ e ∈ m.catalog, e.position ∈ m.pinnedOrigins → e ∈ (s.putReport r).catalog) ∧
      (s.putReport r).unpinned ≤ m.unpinned ∧
      (s.recorded r.row = true → (∃ e ∈ m.catalog, e.position = r.position ∧ e.isAgreed = true) →
        (s.putReport r).unpinned ≤ s.retainSets) := by
  refine ⟨_, rfl, ?_⟩
  generalize hm : { s with catalog := s.catalog.map (s.recordIn r) } = m
  have hsorted : CatalogSorted m.catalog := by
    rw [← hm]
    exact sorted_map_recordIn r hs
  have hretain : m.retainSets = s.retainSets := by
    rw [← hm]
    rfl
  -- `t` is the state after folding
  obtain ⟨t, ht, hpruned, hpinned, hunpinned, hcount⟩ : ∃ t, s.foldIntoCatalog r = t ∧
      Pruned m.catalog t.catalog ∧
      (∀ e ∈ m.catalog, e.position ∈ m.pinnedOrigins →
        e ∈ t.catalog ∧ e.position ∈ t.pinnedOrigins) ∧
      t.unpinned ≤ m.unpinned ∧
      (s.recorded r.row = true → (∃ e ∈ m.catalog, e.position = r.position ∧ e.isAgreed = true) →
        t.unpinned ≤ s.retainSets) := by
    have hcases := foldIntoCatalog_cases hs r
    rw [hm] at hcases
    rcases hcases with ⟨hfold, -, -⟩ | ⟨hfold, hnot⟩
    · have hp := pruned_retire hsorted
      refine ⟨_, hfold, hp, ?_, unpinned_le_of_sublist hp.sublist, ?_⟩
      · intro e he hpin
        exact ⟨mem_retire he hpin, pinnedOrigins_of_subset hp.sublist.subset hpin⟩
      · intro _ _
        rw [← hretain]
        exact unpinned_retire hsorted
    · refine ⟨_, hfold, .refl _, fun e he hpin => ⟨he, hpin⟩, le_rfl, ?_⟩
      rintro hrec ⟨e, he, hpos, hagreed⟩
      rw [hnot hrec e he hpos] at hagreed
      cases hagreed
  have htsorted : CatalogSorted t.catalog := hsorted.sublist hpruned.sublist
  unfold putReport
  simp only [ht]
  split
  · rename_i hcomplete
    have hlisted : ∃ e ∈ t.catalog, e.position = r.position := by
      obtain ⟨e, he, hpos⟩ := List.any_eq_true.mp (Bool.and_eq_true_iff.mp hcomplete).1
      exact ⟨e, he, eq_of_beq (Bool.and_eq_true_iff.mp hpos).1⟩
    have hdrop := pruned_dropCommandedBelow htsorted hlisted
    have hle : (t.dropCommandedBelow r.position).unpinned ≤ t.unpinned :=
      unpinned_le_of_sublist hdrop.sublist
    simp only [holdReport_catalog, unpinned, holdReport_pinnedOrigins]
    refine ⟨hpruned.trans hdrop, ?_, hle.trans hunpinned, fun hrec h => hle.trans (hcount hrec h)⟩
    intro e he hpin
    obtain ⟨het, hpint⟩ := hpinned e he hpin
    exact mem_dropCommandedBelow het hpint
  · simp only [holdReport_catalog, unpinned, holdReport_pinnedOrigins]
    exact ⟨hpruned, fun e he hpin => (hpinned e he hpin).1, hunpinned, hcount⟩

variable {f : Frame}

theorem walk_report (hacc : f.accepted s = some (.snapshotReport r)) :
    s.walk f = { s with applied := f.end_ }.putReport r :=
  walk_accepted hacc

theorem staged_report (hacc : f.accepted s = some (.snapshotReport r)) :
    s.staged f = s.catalog.map (s.recordIn r) := by
  cases f with
  | snapshot end_ standby timeNs => cases hacc
  | consumed cursor => cases hacc
  | cluster end_ body => rw [staged, hacc]

/-! ## Adding a commanded set -/

theorem sorted_insert (hc : CatalogSorted c) {x : SetEntry} (hx : ∀ e ∈ c, e.position ≠ x.position) :
    CatalogSorted ((c ++ [x]).insertionSort fun a b => a.position ≤ b.position) := by
  have hle := List.pairwise_insertionSort (fun a b : SetEntry => a.position ≤ b.position) (c ++ [x])
  have hperm := List.perm_insertionSort (fun a b : SetEntry => a.position ≤ b.position) (c ++ [x])
  have hne : (c ++ [x]).Pairwise fun a b => a.position ≠ b.position := by
    refine List.pairwise_append.mpr ⟨hc.imp fun hlt => hlt.ne, List.pairwise_singleton _ x, ?_⟩
    intro e he y hy
    rw [List.mem_singleton.mp hy]
    exact hx e he
  have hne' := hperm.symm.pairwise hne fun hab => hab.symm
  exact (hle.and hne').imp fun h => lt_of_le_of_ne h.1 h.2

theorem insert_of_lt (hc : CatalogSorted c) {x : SetEntry} (hx : ∀ e ∈ c, e.position < x.position) :
    (c ++ [x]).insertionSort (fun a b => a.position ≤ b.position) = c ++ [x] := by
  refine List.Pairwise.insertionSort_eq ?_
  refine List.pairwise_append.mpr ⟨hc.imp fun hlt => hlt.le, List.pairwise_singleton _ x, ?_⟩
  intro e he y hy
  rw [List.mem_singleton.mp hy]
  exact (hx e he).le

/-! ## One frame -/

/-- The state that retention runs on. -/
def stage (s : ClusterState) (f : Frame) : ClusterState := { s.walk f with catalog := s.staged f }

theorem pinnedOrigins_congr {s t : ClusterState} (hpins : s.pins = t.pins)
    (hrunning : s.running = t.running) (hcatalog : s.catalog = t.catalog) :
    s.pinnedOrigins = t.pinnedOrigins := by
  simp only [pinnedOrigins, hpins, hrunning, hcatalog]

/-- What retention keeps of the list, whatever the frame; the cap, which runs for a
    `SNAPSHOT` frame only, may evict a pinned origin that is not agreed. -/
structure Retained (s : ClusterState) (f : Frame) : Prop where
  sorted : CatalogSorted (s.staged f)
  pruned : Pruned (s.staged f) (s.walk f).catalog
  pinned : (∀ end_ standby timeNs, f ≠ .snapshot end_ standby timeNs) → ∀ e ∈ s.staged f,
    e.position ∈ (s.stage f).pinnedOrigins → e ∈ (s.walk f).catalog
  pinnedAgreed : ∀ e ∈ s.staged f, e.isAgreed = true → e.position ∈ (s.stage f).pinnedOrigins →
    e ∈ (s.walk f).catalog
  length : (s.walk f).catalog.length ≤ max s.catalog.length maxCatalogSets

theorem Retained.of_eq (hs : CatalogSorted s.catalog) (hstaged : s.staged f = s.catalog)
    (hcatalog : (s.walk f).catalog = s.catalog) : s.Retained f where
  sorted := hstaged ▸ hs
  pruned := by
    rw [hstaged, hcatalog]
    exact .refl _
  pinned := fun _ e he _ => by
    rw [hcatalog]
    exact hstaged ▸ he
  pinnedAgreed := fun e he _ _ => by
    rw [hcatalog]
    exact hstaged ▸ he
  length := hcatalog ▸ le_max_left _ _

variable {end_ : ℕ}

theorem staged_snapshot (standby : Bool) (timeNs : ℕ) (hnew : ∀ e ∈ s.catalog, e.position ≠ end_) :
    s.staged (.snapshot end_ standby timeNs) =
      (s.catalog ++ [SetEntry.commanded end_ (if standby then .standby else .full) timeNs]).insertionSort
        (fun a b => a.position ≤ b.position) ∧
    s.walk (.snapshot end_ standby timeNs) =
      ({ s with catalog := s.staged (.snapshot end_ standby timeNs) }.retire).capCatalog := by
  have hany : (s.catalog.any fun e => e.position == end_) = false := by
    rw [List.any_eq_false]
    intro e he
    simpa using hnew e he
  simp [staged, walk, onSnapshotFrame, hany]

theorem staged_snapshot_listed (standby : Bool) (timeNs : ℕ)
    (hlisted : ∃ e ∈ s.catalog, e.position = end_) :
    s.staged (.snapshot end_ standby timeNs) = s.catalog ∧
      s.walk (.snapshot end_ standby timeNs) = s := by
  have hany : (s.catalog.any fun e => e.position == end_) = true := by
    obtain ⟨e, he, hpos⟩ := hlisted
    exact List.any_eq_true.mpr ⟨e, he, by simp [hpos]⟩
  simp [staged, walk, onSnapshotFrame, hany]

theorem retained_snapshot (hs : CatalogSorted s.catalog) (end_ : ℕ) (standby : Bool) (timeNs : ℕ) :
    s.Retained (.snapshot end_ standby timeNs) := by
  by_cases hlisted : ∃ e ∈ s.catalog, e.position = end_
  · obtain ⟨hstaged, hwalk⟩ := staged_snapshot_listed standby timeNs hlisted
    exact .of_eq hs hstaged (by rw [hwalk])
  · have hnew : ∀ e ∈ s.catalog, e.position ≠ end_ := fun e he hpos => hlisted ⟨e, he, hpos⟩
    obtain ⟨hstaged, hwalk⟩ := staged_snapshot standby timeNs hnew
    have hsorted : CatalogSorted (s.staged (.snapshot end_ standby timeNs)) := by
      rw [hstaged]
      exact sorted_insert hs hnew
    generalize ht : { s with catalog := s.staged (.snapshot end_ standby timeNs) } = t at hwalk
    have hcat : s.staged (.snapshot end_ standby timeNs) = t.catalog := by rw [← ht]
    have hpin : (s.stage (.snapshot end_ standby timeNs)).pinnedOrigins = t.pinnedOrigins := by
      refine pinnedOrigins_congr ?_ ?_ hcat
      · rw [stage, hwalk]; rfl
      · rw [stage, hwalk]; rfl
    rw [hcat] at hsorted
    have hretire := pruned_retire hsorted
    refine ⟨hcat ▸ hsorted, ?_, fun h => absurd rfl (h _ _ _), ?_, ?_⟩
    · rw [hcat, hwalk]
      exact hretire.trans (pruned_capCatalog _)
    · intro e he hagreed hpos
      rw [hpin] at hpos
      rw [hcat] at he
      rw [hwalk]
      exact mem_capCatalog (mem_retire he hpos) hagreed
        (pinnedOrigins_of_subset hretire.sublist.subset hpos)
    · rw [hwalk]
      exact (capCatalog_length (hsorted.sublist hretire.sublist)).trans (le_max_right _ _)

theorem retained_report (hs : CatalogSorted s.catalog) {body : Bytes}
    (hacc : (Frame.cluster end_ body).accepted s = some (.snapshotReport r))
    (hwalk : s.walk (.cluster end_ body) = { s with applied := end_ }.putReport r) :
    s.Retained (.cluster end_ body) := by
  obtain ⟨m, hm, hpruned, hpinned, -, -⟩ :=
    putReport_pruned (s := { s with applied := end_ }) hs r
  have hstaged : s.staged (.cluster end_ body) = m.catalog := by
    rw [hm, staged, hacc]
    rfl
  have hpin : (s.stage (.cluster end_ body)).pinnedOrigins = m.pinnedOrigins := by
    obtain ⟨catalog, reports, hput⟩ := putReport_eq { s with applied := end_ } r
    refine pinnedOrigins_congr ?_ ?_ hstaged
    · rw [stage, hwalk, hput, hm]
    · rw [stage, hwalk, hput, hm]
  have hkept : ∀ e ∈ s.staged (.cluster end_ body),
      e.position ∈ (s.stage (.cluster end_ body)).pinnedOrigins →
        e ∈ (s.walk (.cluster end_ body)).catalog := by
    intro e he hpos
    rw [hwalk]
    exact hpinned e (hstaged ▸ he) (hpin ▸ hpos)
  refine ⟨?_, ?_, fun _ => hkept, fun e he _ => hkept e he, ?_⟩
  · rw [hstaged, hm]
    exact sorted_map_recordIn r hs
  · rw [hstaged, hwalk]
    exact hpruned
  · rw [hwalk]
    have hle := hpruned.sublist.length_le
    rw [hm, List.length_map] at hle
    exact hle.trans (le_max_left _ _)

theorem retained_settings (hs : CatalogSorted s.catalog) {body : Bytes} {r : Settings}
    (hacc : (Frame.cluster end_ body).accepted s = some (.settings r))
    (hwalk : s.walk (.cluster end_ body) = { s with applied := end_ }.accept end_ (.settings r)) :
    s.Retained (.cluster end_ body) := by
  have hstaged : s.staged (.cluster end_ body) = s.catalog := by rw [staged, hacc]
  generalize ht : ({ s with
    settings := adoptSettings s.settings r
    settingsPosition := end_
    applied := end_ } : ClusterState) = t
  have hw : s.walk (.cluster end_ body) = t.retire := by
    rw [hwalk, ← ht]
    rfl
  have hcat : s.catalog = t.catalog := by rw [← ht]
  have hpin : (s.stage (.cluster end_ body)).pinnedOrigins = t.pinnedOrigins := by
    refine pinnedOrigins_congr ?_ ?_ (hstaged.trans hcat)
    · rw [stage, hw]; rfl
    · rw [stage, hw]; rfl
  have hsorted : CatalogSorted t.catalog := hcat ▸ hs
  have hkept : ∀ e ∈ s.staged (.cluster end_ body),
      e.position ∈ (s.stage (.cluster end_ body)).pinnedOrigins →
        e ∈ (s.walk (.cluster end_ body)).catalog := by
    intro e he hpos
    rw [hw]
    rw [hstaged, hcat] at he
    exact mem_retire he (hpin ▸ hpos)
  refine ⟨hstaged ▸ hs, ?_, fun _ => hkept, fun e he _ => hkept e he, ?_⟩
  · rw [hstaged, hw, hcat]
    exact pruned_retire hsorted
  · rw [hw, hcat]
    exact (pruned_retire hsorted).sublist.length_le.trans (le_max_left _ _)

theorem accept_catalog {position : ℕ} {cmd : ClusterCommand}
    (hreport : ∀ r, cmd ≠ .snapshotReport r) (hsettings : ∀ r, cmd ≠ .settings r) :
    (s.accept position cmd).catalog = s.catalog := by
  have heff := s.accept_effect position cmd
  generalize s.accept position cmd = t at heff ⊢
  cases heff with
  | snapshotReport r catalog reports => exact absurd rfl (hreport r)
  | settings r catalog => exact absurd rfl (hsettings r)
  | _ => rfl

theorem retained (hs : CatalogSorted s.catalog) (f : Frame) : s.Retained f := by
  cases f with
  | snapshot end_ standby timeNs => exact retained_snapshot hs end_ standby timeNs
  | consumed cursor =>
    refine .of_eq hs rfl ?_
    rw [walk, setConsumed]
    split <;> rfl
  | cluster end_ body =>
    rcases s.apply_cases end_ body with ⟨hacc, -, happly⟩ | ⟨cmd, hacc, -, -, happly⟩
    · exact .of_eq hs (by rw [staged, hacc]) (by rw [walk, happly])
    · have hwalk : s.walk (.cluster end_ body) = { s with applied := end_ }.accept end_ cmd := by
        rw [walk, happly]
      cases cmd with
      | snapshotReport r => exact retained_report hs hacc hwalk
      | settings r => exact retained_settings hs hacc hwalk
      | _ =>
        refine .of_eq hs (by rw [staged, hacc]) ?_
        rw [hwalk]
        exact accept_catalog (by simp) (by simp)

/-! ## Whole walks -/

/-- The list is sorted and fits the image. -/
structure CatalogOk (s : ClusterState) : Prop where
  sorted : CatalogSorted s.catalog
  bounded : s.catalog.length ≤ maxCatalogSets

theorem genesis_catalogOk (m : ClusterConfig) (g : Settings) : (genesis m g).CatalogOk :=
  ⟨List.Pairwise.nil, Nat.zero_le _⟩

theorem CatalogOk.walk (hs : s.CatalogOk) (f : Frame) : (s.walk f).CatalogOk := by
  have h := retained hs.sorted f
  exact ⟨h.sorted.sublist h.pruned.sublist, h.length.trans (max_le hs.bounded le_rfl)⟩

theorem staged_position {e : SetEntry} (he : e ∈ s.staged f) :
    (∃ e₀ ∈ s.catalog, e₀.position = e.position) ∨ e.position = f.end_ := by
  unfold staged at he
  split at he
  · split at he
    · exact .inl ⟨e, he, rfl⟩
    · rw [List.mem_insertionSort, List.mem_append, List.mem_singleton] at he
      rcases he with he | rfl
      · exact .inl ⟨e, he, rfl⟩
      · exact .inr rfl
  · split at he
    · obtain ⟨e₀, he₀, rfl⟩ := List.mem_map.mp he
      exact .inl ⟨e₀, he₀, (recordIn_position _ _ e₀).symm⟩
    · exact .inl ⟨e, he, rfl⟩
  · exact .inl ⟨e, he, rfl⟩

/-- A `SNAPSHOT` frame ends above all that is listed. -/
def Above (s : ClusterState) (f : Frame) : Prop :=
  ∀ end_ standby timeNs, f = .snapshot end_ standby timeNs → ∀ e ∈ s.catalog, e.position < end_

theorem Above.walk (hs : CatalogSorted s.catalog) {f g : Frame} (hg : s.Above g) (hfg : f.Before g) :
    (s.walk f).Above g := by
  rintro end_ standby timeNs rfl e he
  rcases staged_position ((retained hs f).pruned.sublist.subset he) with ⟨e₀, he₀, hpos⟩ | hpos
  · exact hpos ▸ hg end_ standby timeNs rfl e₀ he₀
  · exact hpos ▸ hfg

/-- `P` holds at every step of the walk. -/
def Along (P : ClusterState → Frame → Prop) : ClusterState → List Frame → Prop
  | _, [] => True
  | s, f :: fs => P s f ∧ Along P (s.walk f) fs

instance instDecidableAlong (P : ClusterState → Frame → Prop) [∀ s f, Decidable (P s f)] :
    (s : ClusterState) → (fs : List Frame) → Decidable (Along P s fs)
  | _, [] => isTrue trivial
  | s, f :: fs =>
    have := instDecidableAlong P (s.walk f) fs
    inferInstanceAs (Decidable (P s f ∧ Along P (s.walk f) fs))

variable {P Q : ClusterState → Frame → Prop} {fs gs : List Frame}

theorem along_append : Along P s (fs ++ gs) ↔ Along P s fs ∧ Along P (s.walkAll fs) gs := by
  induction fs generalizing s with
  | nil => simp [Along]
  | cons f fs ih => simp [Along, ih, and_assoc]

theorem Along.at (h : Along P s (fs ++ f :: gs)) : P (s.walkAll fs) f :=
  (along_append.mp h).2.1

/-- Conditions that agree on the states of an invariant agree along a walk. -/
theorem along_congr {I : ClusterState → Prop} (hwalk : ∀ s f, I s → I (s.walk f))
    (h : ∀ s f, I s → (P s f ↔ Q s f)) (hs : I s) : Along P s fs ↔ Along Q s fs := by
  induction fs generalizing s with
  | nil => exact Iff.rfl
  | cons f fs ih => simp only [Along, h s f hs, ih (hwalk s f hs)]

theorem along_congr_of_logOrder (h : ∀ s f, s.CatalogOk → s.Above f → (P s f ↔ Q s f))
    (hs : s.CatalogOk) (habove : ∀ f ∈ fs, s.Above f) (hord : LogOrder fs) :
    Along P s fs ↔ Along Q s fs := by
  induction fs generalizing s with
  | nil => exact Iff.rfl
  | cons f fs ih =>
    obtain ⟨hhead, htail⟩ := List.pairwise_cons.mp hord
    have hstep := h s f hs (habove f List.mem_cons_self)
    have hrest := ih (hs.walk f) ?_ htail
    · simp only [Along, hstep, hrest]
    · intro g hg
      exact (habove g (List.mem_cons_of_mem f hg)).walk hs.sorted (hhead g hg)

end ClusterState

end UltimaCluster
