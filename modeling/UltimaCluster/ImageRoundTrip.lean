/-
  A frozen image installs as the state it was frozen from.

  The framing is read back in front of any rest (`readBlob_blob`), each record by
  its own codec; what is left are the readings that the installer adds: an empty
  blob for an empty list, the running records by row, the order of the catalog.
-/
import UltimaCluster.Image
import UltimaCluster.Lib.Crc32
import UltimaCluster.StateFits

namespace UltimaCluster

open ClusterImageParts (body)
open ClusterState (genesis walkAll_keeps)

open Bytes

/-! ## Framing -/

/-- What an image can hold. -/
structure ClusterImageParts.Fits (p : ClusterImageParts) : Prop where
  applied : p.applied < 2 ^ 64
  tablePosition : p.tablePosition < 2 ^ 64
  settingsPosition : p.settingsPosition < 2 ^ 64
  membership : p.membership.length < 2 ^ 32
  table : p.table.length < 2 ^ 32
  settings : ∃ s : Settings, p.settings = encodeSettings s
  pins : p.pins.length < 2 ^ 32
  reports : p.reports.length < 2 ^ 32
  running : p.running.length < 2 ^ 32
  catalog : p.catalog.length < 2 ^ 32
  backups : p.backups.length < 2 ^ 32

theorem readSettings_encodeSettings (s : Settings) (rest : Bytes) :
    readSettings (encodeSettings s ++ rest) = some (encodeSettings s, rest) := by
  have hlen : (encodeSettings s).length = 49 := length_settingsBytes 7 s
  obtain ⟨tail, hread⟩ : ∃ tail, readNum 4 (encodeSettings s ++ rest) = some (7, tail) := by
    exact ⟨_, readNum_le (by decide) _⟩
  have hbytes := readBytes_append (encodeSettings s) rest
  rw [hlen] at hbytes
  generalize encodeSettings s = b at hread hbytes
  simp [readSettings, hread, settingsLen, hbytes]

theorem readImageBody_body {p : ClusterImageParts} (h : p.Fits) :
    readImageBody 6 (p.body.drop 12) = some p := by
  have hsettings : ∀ rest, readSettings (p.settings ++ rest) = some (p.settings, rest) := by
    obtain ⟨s, hs⟩ := h.settings
    rw [hs]
    exact readSettings_encodeSettings s
  have hdrop : p.body.drop 12 = le 8 p.applied ++ (le 8 p.tablePosition ++
      (le 8 p.settingsPosition ++ (blob p.membership ++ (blob p.table ++ (p.settings ++
        (blob p.pins ++ (blob p.reports ++ (blob p.running ++ (blob p.catalog ++
          (blob p.backups ++ [])))))))))) := by
    simp only [body, List.append_assoc, List.append_nil]
    rfl
  have next : ∀ {α β : Type} {x : Option α} {a : α} {f : α → Option β} {c : β}, x = some a →
      f a = some c → (x >>= f) = some c := fun hx hf => Option.bind_eq_some_iff.mpr ⟨_, hx, hf⟩
  rw [hdrop]
  unfold readImageBody
  refine next (readNum_le (w := 8) h.applied _) ?_
  refine next (readNum_le (w := 8) h.tablePosition _) ?_
  refine next (readNum_le (w := 8) h.settingsPosition _) ?_
  refine next (readBlob_blob h.membership _) ?_
  refine next (readBlob_blob h.table _) ?_
  refine next (hsettings _) ?_
  refine next (readBlob_blob h.pins _) ?_
  refine next (readBlob_blob h.reports _) ?_
  refine next (readBlob_blob h.running _) ?_
  refine next (readBlob_blob h.catalog _) ?_
  exact next (readBlob_blob h.backups _) rfl

section
variable (crc : Bytes → UInt32)

theorem encodeClusterImage_fits {p : ClusterImageParts} (h : p.Fits) :
    encodeClusterImage crc p = some (p.body ++ le 4 (crc p.body).toNat) := by
  have hprefix : ∀ {len}, len < 2 ^ 32 → payloadLenPrefix len = some len := fun h => if_pos h
  simp only [encodeClusterImage, hprefix h.membership, hprefix h.table, hprefix h.pins,
    hprefix h.reports, hprefix h.running, hprefix h.catalog, hprefix h.backups,
    Option.bind_eq_bind, Option.bind_some]
  rfl

theorem decodeClusterImage_encodeClusterImage {p : ClusterImageParts} (h : p.Fits) :
    decodeClusterImage crc (p.body ++ le 4 (crc p.body).toNat) = some p ∧
      clusterImageVersion crc (p.body ++ le 4 (crc p.body).toNat) = some 6 := by
  obtain ⟨s, hs⟩ := h.settings
  have hslen : p.settings.length = 49 := by rw [hs]; exact length_settingsBytes 7 s
  have hbody : 73 ≤ p.body.length := by
    simp only [body, clusterImageMagic, List.length_append, length_le,
      length_blob, hslen, List.length_cons, List.length_nil]
    omega
  have hmagic : slice p.body 0 8 = clusterImageMagic := by
    simp only [body, List.append_assoc]
    exact slice_append_self rfl
  have hversion : num p.body 8 12 = 6 := by
    have hfront : p.body = clusterImageMagic ++ le 4 6 ++ p.body.drop 12 := by
      rfl
    rw [hfront, num_append_left (by decide)]
    exact num_append_le rfl rfl (by decide)
  have hlen : (p.body ++ le 4 (crc p.body).toNat).length = p.body.length + 4 := by simp
  have hcrc : num (p.body ++ le 4 (crc p.body).toNat) p.body.length (p.body.length + 4) =
      (crc p.body).toNat := num_append_le rfl rfl (crc p.body).toNat_lt
  have htake : (p.body ++ le 4 (crc p.body).toNat).take p.body.length = p.body := List.take_left
  have hdec : decodeClusterImage crc (p.body ++ le 4 (crc p.body).toNat) = some p := by
    have hfront : slice (p.body ++ le 4 (crc p.body).toNat) 0 8 = clusterImageMagic := by
      rw [slice_append_left (by omega), hmagic]
    have hmin : ¬ p.body.length + 4 < minImageLen := by
      have : minImageLen = 77 := rfl
      omega
    simp only [decodeClusterImage, hlen, Nat.add_sub_cancel, htake, hcrc, hversion, hfront, hmin]
    simp [clusterImageVersionWord, readImageBody_body h]
  refine ⟨hdec, ?_⟩
  rw [clusterImageVersion, hdec, Option.map_some, num_append_left (by omega), hversion]

end

/-! ## The running records -/

theorem fillRunning_eq_find? {l : List RowRunning} (h : ∀ r ∈ l, r.row < cncMaxServices) (row : Row) :
    fillRunning l row = l.reverse.find? fun r => r.row == (row : ℕ) := by
  induction l using List.reverseRecOn with
  | nil => rfl
  | append_singleton l r ih =>
    have ih := ih fun q hq => h q (List.mem_append_left _ hq)
    have hr := h r (by simp)
    have hfold : fillRunning (l ++ [r]) = Function.update (fillRunning l) ⟨r.row, hr⟩ (some r) := by
      simp [fillRunning, List.foldl_append, hr]
    rw [hfold, List.reverse_append, List.reverse_singleton, List.singleton_append, List.find?_cons]
    by_cases hrow : r.row = row
    · have heq : row = ⟨r.row, hr⟩ := Fin.ext hrow.symm
      rw [heq, Function.update_self]
      simp
    · have hne : row ≠ ⟨r.row, hr⟩ := fun heq => hrow (by rw [heq])
      rw [Function.update_of_ne hne, ih, beq_false_of_ne hrow]

namespace ClusterState

variable {s : ClusterState}

theorem mem_runningList {r : RowRunning} : r ∈ s.runningList ↔ ∃ row, s.running row = some r := by
  simp [runningList]

theorem pairwise_runningList (h : ∀ row r, s.running row = some r → r.row = row) :
    s.runningList.Pairwise fun p q => p.row < q.row := by
  unfold runningList
  rw [List.pairwise_filterMap]
  refine (List.pairwise_lt_finRange cncMaxServices).imp ?_
  intro i j hij p hp q hq
  rw [h i p hp, h j q hq]
  exact hij

theorem fillRunning_runningList (h : ∀ row r, s.running row = some r → r.row = row) :
    fillRunning s.runningList = s.running := by
  ext1 row
  have hlt : ∀ r ∈ s.runningList, r.row < cncMaxServices := by
    intro r hr
    obtain ⟨i, hi⟩ := mem_runningList.mp hr
    rw [h i r hi]
    exact i.isLt
  have hof : ∀ r ∈ s.runningList, r.row = row → s.running row = some r := by
    intro r hr hrow
    obtain ⟨i, hi⟩ := mem_runningList.mp hr
    have hirow : i = row := Fin.ext ((h i r hi).symm.trans hrow)
    exact hirow ▸ hi
  rw [fillRunning_eq_find? hlt]
  cases hfind : s.runningList.reverse.find? fun r => r.row == (row : ℕ) with
  | some r =>
    have hmem := List.mem_reverse.mp (List.mem_of_find?_eq_some hfind)
    have hrow := List.find?_some hfind
    exact (hof r hmem (eq_of_beq hrow)).symm
  | none =>
    cases hrun : s.running row with
    | none => rfl
    | some r =>
      have hmem : r ∈ s.runningList := mem_runningList.mpr ⟨row, hrun⟩
      have hno := List.find?_eq_none.mp hfind r (List.mem_reverse.mpr hmem)
      exact absurd (beq_iff_eq.mpr (h row r hrun)) hno

theorem length_encodeRunningList (l : List RowRunning) : (encodeRunningList l).length = l.length * 16 :=
  length_flatMap fun _ _ => rfl

theorem installRunning_runningList (hfits : s.Fits) (hrow : ∀ row r, s.running row = some r → r.row = row) :
    installRunning (encodeRunningList s.runningList) s.pins s.applied = some s.running := by
  have hlen := length_encodeRunningList s.runningList
  unfold installRunning
  by_cases hempty : s.runningList = []
  · have hnone : ∀ row, s.running row = none := by
      intro row
      cases hrun : s.running row with
      | none => rfl
      | some r =>
        have hmem : r ∈ s.runningList := mem_runningList.mpr ⟨row, hrun⟩
        rw [hempty] at hmem
        cases hmem
    have hnil : encodeRunningList [] = [] := rfl
    rw [hempty, if_pos hnil]
    congr 1
    ext1 row
    rw [hnone row, runningFromPins, Option.map_eq_none_iff]
    cases hpin : newestPin s.pins row with
    | none => rfl
    | some p =>
      obtain ⟨l₁, l₂, heq, hprow, -⟩ := newestPin_split hpin
      have hdeclared := hfits.pinned p (heq ▸ List.mem_append_right l₁ List.mem_cons_self) row hprow
      simp [declared, hnone row] at hdeclared
  · have hne : encodeRunningList s.runningList ≠ [] := by
      intro hnil
      rw [hnil, List.length_nil] at hlen
      exact hempty (List.length_eq_zero_iff.mp (by omega))
    have hdec : decodeRunningList (encodeRunningList s.runningList) = some s.runningList := by
      refine decodeRunningList_encodeRunningList ?_ (pairwise_runningList hrow)
      intro r hr
      obtain ⟨i, hi⟩ := mem_runningList.mp hr
      exact hfits.running i r hi
    rw [if_neg hne, hdec, Option.map_some, fillRunning_runningList hrow]

/-! ## The catalog and the tiers -/

theorem catalogInOrder_of_sorted {c : List SetEntry} (h : CatalogSorted c) : catalogInOrder c = true := by
  induction c with
  | nil => rfl
  | cons a c ih =>
    cases c with
    | nil => rfl
    | cons b c =>
      obtain ⟨hhead, htail⟩ := List.pairwise_cons.mp h
      rw [catalogInOrder, ih htail]
      simpa using hhead b List.mem_cons_self

theorem installCatalog_encodeCatalogBlob (hfits : s.Fits) (hok : s.CatalogOk) :
    ∃ bs, encodeCatalogBlob s.catalog = some bs ∧ bs.length < 2 ^ 32 ∧
      installCatalog true bs = some s.catalog := by
  unfold encodeCatalogBlob installCatalog
  by_cases hempty : s.catalog = []
  · rw [if_pos hempty]
    exact ⟨[], rfl, Nat.two_pow_pos 32, by rw [if_pos rfl, hempty]⟩
  · obtain ⟨bs, henc, hlen, hdec⟩ := decodeSetList_encodeSetList hfits.catalog hok.bounded
    have hmax : maxCatalogSets = 64 := rfl
    have hbounded := hok.bounded
    have hne : bs ≠ [] := List.ne_nil_of_length_pos (by omega)
    rw [if_neg hempty]
    exact ⟨bs, henc, by omega, by rw [if_neg hne, hdec]⟩

theorem installBackups_encodeBackupsBlob (hfits : s.Fits) (hsound : s.Sound) :
    (encodeBackupsBlob s.backups).length < 2 ^ 32 ∧
      installBackups (encodeBackupsBlob s.backups) = some s.backups := by
  unfold encodeBackupsBlob installBackups
  by_cases hempty : s.backups = []
  · rw [if_pos hempty]
    exact ⟨Nat.two_pow_pos 32, by rw [if_pos rfl, hempty]⟩
  · have hflat : (s.backups.flatMap encodeBackupEntry).length = s.backups.length * 48 :=
      length_flatMap fun _ _ => rfl
    have hlen : (encodeBackupList s.backups).length = 1 + s.backups.length * 48 := by
      rw [encodeBackupList, List.length_append, length_le, hflat]
    have hmax : maxBackupTiers = 4 := rfl
    have hbounded := hsound.backups.bounded
    have hne : encodeBackupList s.backups ≠ [] := List.ne_nil_of_length_pos (by omega)
    rw [if_neg hempty, if_neg hne]
    exact ⟨by omega, decodeBackupList_encodeBackupList hfits.backups hbounded hsound.backups.distinct⟩

/-! ## Whole images -/

theorem imageParts_fits (hfits : s.Fits) (hsound : s.Sound) {reports catalog : Bytes}
    (hreports : reports.length < 2 ^ 32) (hcatalog : catalog.length < 2 ^ 32) :
    (s.imageParts reports catalog).Fits where
  applied := hfits.applied
  tablePosition := hfits.tablePosition
  settingsPosition := hfits.settingsPosition
  membership := by
    have hlen := length_encodeConfig s.membership 0
    have hmembers := hfits.membership.members
    have htombstones := hfits.membership.tombstones
    have hmax : maxMembers = 8 := rfl
    simp only [imageParts]
    omega
  table := by
    have hlen := @length_scheduleBytes [0, 0] rfl s.table
    have hentries := hfits.table.bounded
    have hmax : maxScheduleEntries = 32 := rfl
    simp only [imageParts, encodeScheduleTable]
    omega
  settings := ⟨s.settings, rfl⟩
  pins := by
    have hlen : (encodePinList s.pins).length = s.pins.length * 20 := length_flatMap fun _ _ => rfl
    have hpins := hfits.length_pins hsound.pins
    have hmax : cncMaxServices * maxPinsPerRow = 32 := rfl
    simp only [imageParts]
    omega
  reports := hreports
  running := by
    have hlen := length_encodeRunningList s.runningList
    have hrows : s.runningList.length ≤ cncMaxServices := by
      refine (List.length_filterMap_le _ _).trans ?_
      rw [List.length_finRange]
    have hmax : cncMaxServices = 8 := rfl
    simp only [imageParts]
    omega
  catalog := hcatalog
  backups := (installBackups_encodeBackupsBlob hfits hsound).1

theorem decodeSettings_encodeSettings {r : Settings} (h : r.Fits) :
    decodeSettings (encodeSettings r) = some r := by
  have hlen : (settingsBytes 7 r).length = 49 := length_settingsBytes 7 r
  have hversion : r.OfVersion 7 := by
    constructor <;> intro hlt <;> omega
  have hdec := decodeSettings_take (n := 49) rfl h hversion
  rwa [List.take_of_length_le (le_of_eq hlen)] at hdec

theorem refuse_bind {α β : Type} (what : String) (a : α) (f : α → Except SnapshotError β) :
    (refuse what (some a) >>= f) = f a := rfl

theorem require_bind {β : Type} (what : String) (f : Unit → Except SnapshotError β) :
    (require true what >>= f) = f () := rfl

theorem readImage_freeze (crc : Bytes → UInt32) (hfits : s.Fits) (hsound : s.Sound)
    (hok : s.CatalogOk) :
    ∃ img, s.freeze crc = .ok (img, s.applied) ∧ readImage crc s.applied img = .ok s := by
  obtain ⟨reports, hreports, hreportsLen⟩ := encodeReportList_some fun r hr => (hfits.reports r hr).1
  obtain ⟨catalog, hcatalog, hcatalogLen, hinstall⟩ := installCatalog_encodeCatalogBlob hfits hok
  have hdecReports : decodeReportList reports = some s.reports :=
    readReports_encodeReportList (fun r hr => (hfits.reports r hr).1) hreports le_rfl
  have hlen : reports.length < 2 ^ 32 := by
    have hmax : cncMaxServices = 8 := rfl
    have := hfits.length_reports
    omega
  have hparts := imageParts_fits hfits hsound hlen hcatalogLen
  have henc := encodeClusterImage_fits crc hparts
  obtain ⟨hdec, hversion⟩ := decodeClusterImage_encodeClusterImage crc hparts
  generalize (s.imageParts reports catalog).body ++
    le 4 (crc (s.imageParts reports catalog).body).toNat = img at henc hdec hversion
  have hconfig := @decodeConfig_encodeConfig s.membership 0 hfits.membership (Nat.two_pow_pos 64)
  have htable := @decodeScheduleTable_scheduleBytes s.table [0, 0] hfits.table rfl
  have hretain : s.settings.retainSets ≠ 0 := Nat.one_le_iff_ne_zero.mp hsound.retainSets
  refine ⟨img, ?_, ?_⟩
  · simp only [freeze, hreports, hcatalog, refuse_bind, henc]
    rfl
  · simp only [readImage, hdec, hversion, refuse_bind]
    simp only [imageParts, beq_self_eq_true, require_bind, hconfig, refuse_bind,
      encodeScheduleTable, htable, decodeSettings_encodeSettings hfits.settings,
      decodePinList_encodePinList hfits.pins, hdecReports,
      installRunning_runningList hfits hsound.running, Nat.reduceLeDiff, decide_true, hinstall,
      catalogInOrder_of_sorted hok.sorted, (installBackups_encodeBackupsBlob hfits hsound).2,
      if_neg hretain]
    rfl

end ClusterState

/-! ## Every walk -/

theorem installSnapshot_error {crc : Bytes → UInt32} {f : ClusterFsm} {position : ℕ}
    {src : Except SnapshotError Bytes} {e : SnapshotError}
    (h : (f.installSnapshot crc position src).2 = .error e) :
    (f.installSnapshot crc position src).1 = f := by
  unfold ClusterFsm.installSnapshot at h ⊢
  split
  · rfl
  · split
    · rfl
    · rename_i state hread
      simp [hread] at h

section
variable (crc : Bytes → UInt32) {m : ClusterConfig} {g : Settings} {fs : List Frame}

theorem readImage_walkAll (hm : m.Fits) (hg : g.Fits) (hfs : ∀ f ∈ fs, f.Fits) :
    ∃ img, ((genesis m g).walkAll fs).freeze crc = .ok (img, ((genesis m g).walkAll fs).applied) ∧
      readImage crc ((genesis m g).walkAll fs).applied img = .ok ((genesis m g).walkAll fs) := by
  have hok := ClusterState.genesis_catalogOk m g
  have hfits := (ClusterState.genesis_fits hm hg).walkAll hok hfs
  have hsound := walkAll_keeps (fun _ f h => h.walk f) (ClusterState.genesis_sound m g) fs
  have hok' := walkAll_keeps (fun _ f h => h.walk f) hok fs
  exact ClusterState.readImage_freeze crc hfits hsound hok'

/-- Every state of a walk freezes; the image installs as that state into any FSM, which
    then freezes to the same bytes along any further frames; and an install that fails
    changes nothing. -/
theorem image_round_trip (hm : m.Fits) (hg : g.Fits) (hfs : ∀ f ∈ fs, f.Fits) :
    let s := (ClusterState.genesis m g).walkAll fs
    (∃ img, s.freeze crc = .ok (img, s.applied) ∧ ∀ target : ClusterFsm,
      let installed := target.installSnapshot crc s.applied (.ok img)
      installed.2 = .ok s.applied ∧ installed.1.state = s ∧
      ∀ suffix, (∀ f ∈ suffix, f.Fits) →
        ∃ img', (installed.1.state.walkAll suffix).freeze crc =
            .ok (img', (s.walkAll suffix).applied) ∧
          (s.walkAll suffix).freeze crc = .ok (img', (s.walkAll suffix).applied)) ∧
    ∀ (target : ClusterFsm) position src e, (target.installSnapshot crc position src).2 = .error e →
        (target.installSnapshot crc position src).1 = target := by
  intro s
  obtain ⟨img, hfreeze, hread⟩ := readImage_walkAll crc hm hg hfs
  refine ⟨⟨img, hfreeze, ?_⟩, fun _ _ _ _ => installSnapshot_error⟩
  intro target
  have hinstall : target.installSnapshot crc s.applied (.ok img) =
      ({ target with state := s }, .ok s.applied) := by
    simp only [ClusterFsm.installSnapshot, s, hread]
  simp only [hinstall, true_and]
  intro suffix hsuffix
  have hall : ∀ f ∈ fs ++ suffix, f.Fits := by
    intro f hf
    exact (List.mem_append.mp hf).elim (hfs f) (hsuffix f)
  obtain ⟨img', hfreeze', -⟩ := readImage_walkAll crc hm hg hall
  rw [ClusterState.walkAll_append] at hfreeze'
  exact ⟨img', hfreeze', hfreeze'⟩

end

theorem image_round_trip_agreed_set :
    ∃ img, (singleVoter.state.walkAll agreedSet).freeze Crc32.hash = .ok (img, 128) ∧
      (singleVoter.installSnapshot Crc32.hash 128 (.ok img)).1.state =
        singleVoter.state.walkAll agreedSet := by
  have hm : (ClusterConfig.genesis [(1, 0, 0)] []).Fits := by
    refine ⟨by decide, by decide, by decide, ?_, nofun, nofun⟩
    intro member hmember
    rw [List.mem_singleton.mp hmember]
    unfold memberFits
    decide
  have hg : Settings.genesisDefault.Fits := by constructor <;> decide
  have hfs : ∀ f ∈ agreedSet, f.Fits := by
    simp [agreedSet, Frame.Fits]
  obtain ⟨⟨img, hfreeze, hinstall⟩, -⟩ := image_round_trip Crc32.hash hm hg hfs
  have happlied : (singleVoter.state.walkAll agreedSet).applied = 128 := by decide +kernel
  obtain ⟨-, hstate, -⟩ := hinstall singleVoter
  refine ⟨img, ?_, ?_⟩
  · rw [← happlied]
    exact hfreeze
  · rw [← happlied]
    exact hstate

end UltimaCluster
