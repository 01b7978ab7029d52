/-
  What the cluster FSM keeps along the log.
-/
import UltimaCluster.ClusterRun

namespace UltimaCluster

/-! ## Pins -/

/-- A row keeps few pins, and their origins increase. -/
structure PinsSound (pins : List UpgradePin) : Prop where
  bounded : ∀ row, (pins.filter fun q => q.row == row).length ≤ maxPinsPerRow
  increasing : pins.Pairwise fun p q => p.row = q.row → p.origin < q.origin

variable {p : UpgradePin} {pins : List UpgradePin} {row : ℕ}

theorem newestPin_split (h : newestPin pins row = some p) :
    ∃ l₁ l₂, pins = l₁ ++ p :: l₂ ∧ p.row = row ∧ ∀ q ∈ l₂, q.row ≠ row := by
  obtain ⟨l₁, l₂, heq, hp, hl₂⟩ := List.reverse_find?_split h
  exact ⟨l₁, l₂, heq, eq_of_beq hp, fun q hq => ne_of_beq_false (hl₂ q hq)⟩

theorem newestPin_eq_none (h : newestPin pins row = none) : ∀ q ∈ pins, q.row ≠ row := by
  intro q hq hrow
  have := List.find?_eq_none.mp h q (List.mem_reverse.mpr hq)
  exact this (by simp [hrow])

theorem PinsSound.le_newestPin (h : PinsSound pins) {p q : UpgradePin}
    (hp : newestPin pins row = some p) (hq : q ∈ pins) (hrow : q.row = row) :
    q.origin ≤ p.origin := by
  obtain ⟨l₁, l₂, rfl, hprow, hl₂⟩ := newestPin_split hp
  rcases List.mem_append.mp hq with hq | hq
  · have hlt := (List.pairwise_append.mp h.increasing).2.2 q hq p List.mem_cons_self
    exact (hlt (hrow.trans hprow.symm)).le
  · rcases List.mem_cons.mp hq with rfl | hq
    · exact le_rfl
    · exact absurd hrow (hl₂ q hq)

theorem lt_of_validate_upgradePin {s : ClusterState} (hs : PinsSound s.pins)
    (h : s.validateReplicated (.upgradePin p) = .ok ()) {q : UpgradePin} (hq : q ∈ s.pins)
    (hrow : q.row = p.row) : q.origin < p.origin := by
  simp only [ClusterState.validateReplicated] at h
  split at h
  · cases h
  rename_i hgt
  cases hnew : newestPin s.pins p.row with
  | none => exact absurd hrow (newestPin_eq_none hnew q hq)
  | some cur =>
    have hle := hs.le_newestPin hnew hq hrow
    simp only [ClusterState.pinFor, hnew, Option.any_some, decide_eq_true_eq] at hgt
    omega

theorem pushPin_pins (s : ClusterState) (p : UpgradePin) : (s.pushPin p).pins =
    if maxPinsPerRow < ((s.pins ++ [p]).filter fun q => q.row == p.row).length then
      (s.pins ++ [p]).eraseP fun q => q.row == p.row
    else s.pins ++ [p] := by
  unfold ClusterState.pushPin
  simp only
  split <;> rfl

theorem rowPins_pushPin_of_ne (s : ClusterState) (h : p.row ≠ row) :
    ((s.pushPin p).pins.filter fun q => q.row == row) = s.pins.filter fun q => q.row == row := by
  have hne : ∀ q : UpgradePin, (q.row == p.row) = true → (q.row == row) = false := by
    intro q hq
    rw [eq_of_beq hq]
    exact beq_false_of_ne h
  rw [pushPin_pins]
  split
  · rw [List.filter_eraseP hne]
    simp [h]
  · simp [h]

theorem rowPins_pushPin_self (s : ClusterState) (p : UpgradePin) :
    ((s.pushPin p).pins.filter fun q => q.row == p.row) =
      if maxPinsPerRow ≤ (s.pins.filter fun q => q.row == p.row).length then
        (s.pins.filter fun q => q.row == p.row).tail ++ [p]
      else (s.pins.filter fun q => q.row == p.row) ++ [p] := by
  have happ : ((s.pins ++ [p]).filter fun q => q.row == p.row) =
      (s.pins.filter fun q => q.row == p.row) ++ [p] := by
    simp
  rw [pushPin_pins, happ, List.length_append, List.length_singleton]
  by_cases hfull : maxPinsPerRow ≤ (s.pins.filter fun q => q.row == p.row).length
  · rw [if_pos (Nat.lt_succ_of_le hfull), if_pos hfull, List.filter_eraseP_self, happ,
      List.tail_append_of_ne_nil]
    rintro hnil
    rw [hnil] at hfull
    cases hfull
  · rw [if_neg (fun h => hfull (Nat.le_of_lt_succ h)), if_neg hfull, happ]

theorem newestPin_eq_getLast? (pins : List UpgradePin) (row : ℕ) :
    newestPin pins row = (pins.filter fun q => q.row == row).getLast? :=
  List.reverse_find?_eq_getLast? _ pins

theorem newestPin_pushPin (s : ClusterState) (p : UpgradePin) (row : ℕ) :
    newestPin (s.pushPin p).pins row = if p.row = row then some p else newestPin s.pins row := by
  split
  · rename_i h
    subst h
    rw [newestPin_eq_getLast?, rowPins_pushPin_self]
    split <;> simp
  · rename_i h
    rw [newestPin_eq_getLast?, rowPins_pushPin_of_ne s h, newestPin_eq_getLast?]

theorem PinsSound.pushPin {s : ClusterState} (hs : PinsSound s.pins)
    (hp : ∀ q ∈ s.pins, q.row = p.row → q.origin < p.origin) : PinsSound (s.pushPin p).pins where
  bounded := by
    intro row
    have hb := hs.bounded row
    by_cases h : p.row = row
    · subst h
      rw [rowPins_pushPin_self]
      split
      · rw [List.length_append, List.length_tail, List.length_singleton]
        have : 1 ≤ maxPinsPerRow := by decide
        omega
      · rw [List.length_append, List.length_singleton]
        omega
    · rw [rowPins_pushPin_of_ne s h]
      exact hb
  increasing := by
    have hinc : (s.pins ++ [p]).Pairwise fun p q => p.row = q.row → p.origin < q.origin := by
      refine List.pairwise_append.mpr ⟨hs.increasing, List.pairwise_singleton _ p, ?_⟩
      intro q hq r hr
      rw [List.mem_singleton.mp hr]
      exact hp q hq
    rw [pushPin_pins]
    split
    · exact hinc.sublist List.eraseP_sublist
    · exact hinc

/-! ## Backup tiers -/

/-- The table of backup tiers. -/
structure BackupsSound (backups : List BackupTierEntry) : Prop where
  distinct : (backups.map BackupTierEntry.tierId).Nodup
  bounded : backups.length ≤ maxBackupTiers
  ordered : ∀ e ∈ backups, e.oldestSet ≤ e.newestSet ∧ e.newestSet ≤ e.through

/-- The same tier with watermarks at least as high. -/
structure BackupTierEntry.Grown (e e' : BackupTierEntry) : Prop where
  tierId : e'.tierId = e.tierId
  oldestSet : e.oldestSet ≤ e'.oldestSet
  newestSet : e.newestSet ≤ e'.newestSet
  through : e.through ≤ e'.through

theorem BackupTierEntry.Grown.refl (e : BackupTierEntry) : e.Grown e :=
  ⟨rfl, le_rfl, le_rfl, le_rfl⟩

theorem BackupTierEntry.Grown.trans {a b c : BackupTierEntry} (h : a.Grown b) (h' : b.Grown c) :
    a.Grown c :=
  ⟨h'.tierId.trans h.tierId, h.oldestSet.trans h'.oldestSet, h.newestSet.trans h'.newestSet,
    h.through.trans h'.through⟩

/-- A report leaves the tiers as they are, raises the one it names, or adds it. -/
theorem putBackupWatermark_cases (s : ClusterState) {w : BackupWatermark} (position : ℕ)
    (hs : BackupsSound s.backups) (hw : w.oldestSet ≤ w.newestSet ∧ w.newestSet ≤ w.through) :
    (s.putBackupWatermark w position).backups = s.backups ∨
    (∃ l₁ e l₂ e', s.backups = l₁ ++ e :: l₂ ∧
      (s.putBackupWatermark w position).backups = l₁ ++ e' :: l₂ ∧ e.Grown e' ∧
      e'.oldestSet ≤ e'.newestSet ∧ e'.newestSet ≤ e'.through) ∨
    (∃ e, (s.putBackupWatermark w position).backups = s.backups ++ [e] ∧
      s.backups.length < maxBackupTiers ∧ (∀ q ∈ s.backups, q.tierId ≠ e.tierId) ∧
      e.oldestSet ≤ e.newestSet ∧ e.newestSet ≤ e.through) := by
  unfold ClusterState.putBackupWatermark
  cases hidx : s.backups.findIdx? fun e => e.tierId == w.tierId with
  | some i =>
    right; left
    obtain ⟨l₁, e, l₂, heq, -, -, hi⟩ := List.findIdx?_split hidx
    have hord := hs.ordered e (heq ▸ List.mem_append_right l₁ List.mem_cons_self)
    simp only
    rw [heq, ← hi, List.modify_append_cons]
    refine ⟨l₁, e, l₂, _, rfl, rfl, ?_⟩
    split
    · exact ⟨.refl e, hord⟩
    · exact ⟨⟨rfl, by simp only; omega, by simp only; omega, by simp only; omega⟩,
        by simp only; omega, by simp only; omega⟩
  | none =>
    simp only
    split
    · rename_i hlen
      right; right
      refine ⟨_, rfl, hlen, ?_, by simp only; omega, hw.2⟩
      intro q hq hid
      have hnone := List.findIdx?_eq_none_iff.mp hidx q hq
      exact ne_of_beq_false hnone hid
    · left
      rfl

theorem BackupsSound.putBackupWatermark {s : ClusterState} {w : BackupWatermark} {position : ℕ}
    (hs : BackupsSound s.backups) (hw : w.oldestSet ≤ w.newestSet ∧ w.newestSet ≤ w.through) :
    BackupsSound (s.putBackupWatermark w position).backups := by
  rcases putBackupWatermark_cases s position hs hw with h | ⟨l₁, e, l₂, e', heq, h, hgrown, hord⟩ |
    ⟨e, h, hlen, hne, hord⟩
  · rwa [h]
  · rw [h]
    have hmap : (l₁ ++ e' :: l₂).map BackupTierEntry.tierId =
        s.backups.map BackupTierEntry.tierId := by
      rw [heq, List.map_append, List.map_append, List.map_cons, List.map_cons, hgrown.tierId]
    refine ⟨by rw [hmap]; exact hs.distinct, ?_, ?_⟩
    · have hb := hs.bounded
      rw [heq] at hb
      simpa using hb
    · intro q hq
      rcases List.mem_append.mp hq with hq | hq
      · exact hs.ordered q (heq ▸ List.mem_append_left _ hq)
      · rcases List.mem_cons.mp hq with rfl | hq
        · exact hord
        · exact hs.ordered q (heq ▸ List.mem_append_right _ (List.mem_cons_of_mem _ hq))
  · rw [h]
    refine ⟨?_, by rw [List.length_append]; exact hlen, ?_⟩
    · rw [List.map_append, List.nodup_append']
      refine ⟨hs.distinct, List.nodup_singleton _, ?_⟩
      rintro id hid hid'
      obtain ⟨q, hq, rfl⟩ := List.mem_map.mp hid
      exact hne q hq (List.mem_singleton.mp hid')
    · intro q hq
      rcases List.mem_append.mp hq with hq | hq
      · exact hs.ordered q hq
      · rw [List.mem_singleton.mp hq]
        exact hord

theorem BackupsSound.filter {backups : List BackupTierEntry} (h : BackupsSound backups)
    (p : BackupTierEntry → Bool) : BackupsSound (backups.filter p) where
  distinct := h.distinct.sublist (List.filter_sublist.map _)
  bounded := (List.length_filter_le p backups).trans h.bounded
  ordered := fun e he => h.ordered e (List.mem_of_mem_filter he)

/-- The operator's order to drop a tier. -/
def Forgets (tierId : ℕ) (cmd : ClusterCommand) : Prop :=
  ∃ w, cmd = .backupWatermark w ∧ w.op = .forget ∧ w.tierId = tierId

/-! ## The invariant -/

/-- The number and order of a row's pins, the rows of the running records, the backup tiers. -/
structure ClusterState.Sound (s : ClusterState) : Prop where
  retainSets : 1 ≤ s.settings.retainSets
  pins : PinsSound s.pins
  running : ∀ row r, s.running row = some r → r.row = row
  backups : BackupsSound s.backups

namespace ClusterState

theorem genesis_sound (m : ClusterConfig) (g : Settings) : (genesis m g).Sound where
  retainSets := by
    simp only [genesis]
    split
    · exact le_rfl
    · omega
  pins := ⟨fun _ => Nat.zero_le _, List.Pairwise.nil⟩
  running := nofun
  backups := ⟨List.nodup_nil, Nat.zero_le _, nofun⟩

variable {s : ClusterState}

theorem setRunning_row (hs : ∀ row r, s.running row = some r → r.row = row) (n version position : ℕ)
    (row : Row) (r : RowRunning) (h : (s.setRunning n version position).running row = some r) :
    r.row = row := by
  unfold setRunning at h
  split at h
  · by_cases hrow : row = ⟨n, ‹_›⟩
    · subst hrow
      simp only [Function.update_self, Option.some.injEq] at h
      rw [← h]
    · simp only [Function.update_of_ne hrow] at h
      exact hs row r h
  · exact hs row r h

theorem adoptSettings_retainSets (cur r : Settings) : 1 ≤ (adoptSettings cur r).retainSets := by
  simp only [adoptSettings]
  split <;> omega

variable {cmd : ClusterCommand}

theorem Sound.accept (hs : s.Sound) {position : ℕ} (hfits : cmd.Fits)
    (hval : s.validateReplicated cmd = .ok ()) : (s.accept position cmd).Sound := by
  have heff := s.accept_effect position cmd
  generalize s.accept position cmd = t at heff ⊢
  cases heff with
  | membership c => exact ⟨hs.retainSets, hs.pins, hs.running, hs.backups⟩
  | scheduleTable t => exact ⟨hs.retainSets, hs.pins, hs.running, hs.backups⟩
  | settings r catalog => exact { hs with retainSets := adoptSettings_retainSets _ r }
  | upgradePin p =>
    have hpins := hs.pins.pushPin fun q hq => lt_of_validate_upgradePin hs.pins hval hq
    exact ⟨hs.retainSets, hpins, setRunning_row hs.running p.row p.to_ position, hs.backups⟩
  | snapshotReport r catalog reports => exact ⟨hs.retainSets, hs.pins, hs.running, hs.backups⟩
  | rowGenesis g =>
    exact { hs with running := setRunning_row hs.running g.row g.version position }
  | report hop =>
    have hw := (hfits.valid.2).resolve_left (by rw [hop]; nofun)
    exact { hs with backups := hs.backups.putBackupWatermark hw }
  | forget _ => exact { hs with backups := hs.backups.filter _ }

theorem Sound.walk (hs : s.Sound) (f : Frame) : (s.walk f).Sound := by
  have hw := walked s f
  generalize s.walk f = t at hw ⊢
  cases hw with
  | snapshot end_ standby timeNs =>
    obtain ⟨catalog, h⟩ := s.onSnapshotFrame_eq end_ standby timeNs
    rw [h]
    exact ⟨hs.retainSets, hs.pins, hs.running, hs.backups⟩
  | refused _ => exact ⟨hs.retainSets, hs.pins, hs.running, hs.backups⟩
  | accepted hfits hval _ =>
    refine Sound.accept (s := { s with applied := _ }) ?_ hfits hval
    exact ⟨hs.retainSets, hs.pins, hs.running, hs.backups⟩
  | consumed _ => exact ⟨hs.retainSets, hs.pins, hs.running, hs.backups⟩
  | passed _ => exact hs

/-! ## Settings and tiers along a walk -/

theorem accept_settings {position : ℕ} (h : ∀ r, cmd ≠ .settings r) :
    (s.accept position cmd).settings = s.settings := by
  have heff := s.accept_effect position cmd
  generalize s.accept position cmd = t at heff ⊢
  cases heff with
  | settings r catalog => exact absurd rfl (h r)
  | _ => rfl

theorem walk_settings (s : ClusterState) (f : Frame) :
    (∃ r, f.accepted s = some (.settings r) ∧ r.validate = .ok () ∧
      (s.walk f).settings = adoptSettings s.settings r) ∨
    ((∀ r, f.accepted s ≠ some (.settings r)) ∧ (s.walk f).settings = s.settings) := by
  have hw := walked s f
  generalize s.walk f = t at hw ⊢
  cases hw with
  | snapshot end_ standby timeNs =>
    obtain ⟨catalog, h⟩ := s.onSnapshotFrame_eq end_ standby timeNs
    exact .inr ⟨nofun, by rw [h]⟩
  | refused hnone => exact .inr ⟨fun r => by rw [hnone]; nofun, rfl⟩
  | @accepted end_ body cmd _ hval hacc =>
    by_cases hset : ∃ r, cmd = .settings r
    · obtain ⟨r, rfl⟩ := hset
      exact .inl ⟨r, hacc, hval, rfl⟩
    · rw [not_exists] at hset
      refine .inr ⟨?_, accept_settings hset⟩
      intro r h
      exact hset r (Option.some.inj (hacc.symm.trans h))
  | consumed _ => exact .inr ⟨nofun, rfl⟩
  | passed _ => exact .inr ⟨nofun, rfl⟩

theorem settings_ratchet (s : ClusterState) (fs : List Frame) :
    s.settings.datagramMtu ≤ (s.walkAll fs).settings.datagramMtu ∧
      s.settings.wireLevel ≤ (s.walkAll fs).settings.wireLevel := by
  refine walkAll_keeps (P := fun t => s.settings.datagramMtu ≤ t.settings.datagramMtu ∧
    s.settings.wireLevel ≤ t.settings.wireLevel) ?_ ⟨le_rfl, le_rfl⟩ fs
  rintro t f ⟨hmtu, hlevel⟩
  rcases t.walk_settings f with ⟨r, -, -, h⟩ | ⟨-, h⟩
  · rw [h]
    exact ⟨hmtu.trans (le_max_left _ _), hlevel.trans (le_max_left _ _)⟩
  · rw [h]
    exact ⟨hmtu, hlevel⟩

theorem retainSets_le_of_validate {r : Settings} (h : r.validate = .ok ()) (cur : Settings) :
    (adoptSettings cur r).retainSets ≤ maxRetainSets := by
  have hle : r.retainSets ≤ maxRetainSets := by
    unfold Settings.validate at h
    repeat' split at h
    all_goals first
      | exact Nat.le_of_not_lt ‹¬ maxRetainSets < _›
      | cases h
  simp only [adoptSettings]
  split
  · decide
  · exact hle

/-- The number of sets to retain is in its bound from the first accepted
    settings command on, and until then what it was. -/
theorem walkAll_retainSets (s : ClusterState) (fs : List Frame) :
    ((∃ r, .settings r ∈ s.accepts fs) ∨ s.settings.retainSets ≤ maxRetainSets →
      (s.walkAll fs).settings.retainSets ≤ maxRetainSets) ∧
    ((∀ r, .settings r ∉ s.accepts fs) → (s.walkAll fs).settings = s.settings) := by
  induction fs generalizing s with
  | nil =>
    refine ⟨?_, fun _ => rfl⟩
    rintro (⟨r, hr⟩ | h)
    · cases hr
    · exact h
  | cons f fs ih =>
    obtain ⟨ih₁, ih₂⟩ := ih (s.walk f)
    rcases s.walk_settings f with ⟨r, hacc, hval, h⟩ | ⟨hacc, h⟩
    · refine ⟨fun _ => ih₁ (.inr ?_), ?_⟩
      · rw [h]
        exact retainSets_le_of_validate hval _
      · intro hno
        refine absurd ?_ (hno r)
        rw [accepts, hacc]
        exact List.mem_cons_self
    · have hmem : ∀ r, .settings r ∈ s.accepts (f :: fs) → .settings r ∈ (s.walk f).accepts fs := by
        intro r hr
        rcases List.mem_append.mp hr with hr | hr
        · exact absurd (Option.mem_toList.mp hr) (hacc r)
        · exact hr
      refine ⟨?_, ?_⟩
      · rintro (⟨r, hr⟩ | hle)
        · exact ih₁ (.inl ⟨r, hmem r hr⟩)
        · exact ih₁ (.inr (h ▸ hle))
      · intro hno
        rw [walkAll_cons, ih₂ fun r hr => hno r (List.mem_append_right _ hr), h]

variable {e : BackupTierEntry}

theorem Sound.accept_tier (hs : s.Sound) {position : ℕ} (hfits : cmd.Fits) (he : e ∈ s.backups)
    (hf : ¬ Forgets e.tierId cmd) : ∃ e' ∈ (s.accept position cmd).backups, e.Grown e' := by
  have heff := s.accept_effect position cmd
  generalize s.accept position cmd = t at heff ⊢
  cases heff with
  | @report w hop =>
    have hw := (hfits.valid.2).resolve_left (by rw [hop]; nofun)
    rcases putBackupWatermark_cases s position hs.backups hw with
      h | ⟨l₁, q, l₂, q', heq, h, hgrown, -⟩ | ⟨q, h, -⟩
    · exact ⟨e, by rw [h]; exact he, .refl e⟩
    · rw [heq] at he
      rcases List.mem_append.mp he with he | he
      · exact ⟨e, by rw [h]; exact List.mem_append_left _ he, .refl e⟩
      · rcases List.mem_cons.mp he with rfl | he
        · exact ⟨q', by rw [h]; simp, hgrown⟩
        · exact ⟨e, by rw [h]; simp [he], .refl e⟩
    · exact ⟨e, by rw [h]; exact List.mem_append_left _ he, .refl e⟩
  | @forget w hop =>
    refine ⟨e, List.mem_filter.mpr ⟨he, ?_⟩, .refl e⟩
    have hne : e.tierId ≠ w.tierId := fun h => hf ⟨w, rfl, hop, h.symm⟩
    simpa using hne
  | _ => exact ⟨e, he, .refl e⟩

theorem Sound.walk_tier (hs : s.Sound) (he : e ∈ s.backups) {f : Frame}
    (hf : ∀ cmd, f.accepted s = some cmd → ¬ Forgets e.tierId cmd) :
    ∃ e' ∈ (s.walk f).backups, e.Grown e' := by
  have hw := walked s f
  generalize s.walk f = t at hw ⊢
  cases hw with
  | snapshot end_ standby timeNs =>
    obtain ⟨catalog, h⟩ := s.onSnapshotFrame_eq end_ standby timeNs
    exact ⟨e, by rw [h]; exact he, .refl e⟩
  | @accepted end_ body cmd hfits _ hacc =>
    have hs' : Sound { s with applied := end_ } := ⟨hs.retainSets, hs.pins, hs.running, hs.backups⟩
    exact hs'.accept_tier hfits he (hf cmd hacc)
  | refused _ => exact ⟨e, he, .refl e⟩
  | consumed _ => exact ⟨e, he, .refl e⟩
  | passed _ => exact ⟨e, he, .refl e⟩

theorem Sound.walkAll_tier (hs : s.Sound) (he : e ∈ s.backups) {fs : List Frame}
    (hf : ∀ cmd ∈ s.accepts fs, ¬ Forgets e.tierId cmd) :
    ∃ e' ∈ (s.walkAll fs).backups, e.Grown e' := by
  induction fs generalizing s e with
  | nil => exact ⟨e, he, .refl e⟩
  | cons f fs ih =>
    obtain ⟨e₁, he₁, hgrown₁⟩ := hs.walk_tier he fun cmd hcmd =>
      hf cmd (List.mem_append_left _ (Option.mem_toList.mpr hcmd))
    obtain ⟨e₂, he₂, hgrown₂⟩ := ih (hs.walk f) he₁ fun cmd hcmd => by
      rw [hgrown₁.tierId]
      exact hf cmd (List.mem_append_right _ hcmd)
    exact ⟨e₂, he₂, hgrown₁.trans hgrown₂⟩

end ClusterState

/-! ## From genesis -/

/-- Between any two states of a walk from genesis along the log: the position, the
    rung, the level and every tier that is not forgotten go up only; the state is
    sound, and the number of sets to retain is the genesis value until a settings
    command is accepted and within its bound after it; a refused command changes
    the position alone. -/
theorem cluster_fsm_invariants (m : ClusterConfig) (g : Settings) (pre post : List Frame)
    (hord : LogOrder (pre ++ post)) :
    let s := (ClusterState.genesis m g).walkAll pre
    let t := s.walkAll post
    s.applied ≤ t.applied ∧
    s.settings.datagramMtu ≤ t.settings.datagramMtu ∧
    s.settings.wireLevel ≤ t.settings.wireLevel ∧
    t.Sound ∧
    ((∃ r, .settings r ∈ (ClusterState.genesis m g).accepts (pre ++ post)) →
      t.settings.retainSets ≤ maxRetainSets) ∧
    ((∀ r, .settings r ∉ (ClusterState.genesis m g).accepts (pre ++ post)) →
      t.settings.retainSets = max g.retainSets 1) ∧
    (∀ e ∈ s.backups, (∀ cmd ∈ s.accepts post, ¬ Forgets e.tierId cmd) →
      ∃ e' ∈ t.backups, e.Grown e') ∧
    ∀ end_ body, (t.apply end_ body).2 ≠ 0 →
      (t.apply end_ body).1 = { t with applied := end_ } := by
  intro s t
  obtain ⟨hpre, hpost, hcross⟩ := List.pairwise_append.mp hord
  have hsound : ∀ fs, ((ClusterState.genesis m g).walkAll fs).Sound := fun fs =>
    ClusterState.walkAll_keeps (fun _ f h => h.walk f) (ClusterState.genesis_sound m g) fs
  have ht : t = (ClusterState.genesis m g).walkAll (pre ++ post) :=
    (ClusterState.walkAll_append _ pre post).symm
  have happlied : ∀ f ∈ post, s.applied ≤ f.end_ := fun f hf =>
    ClusterState.walkAll_applied_le (Nat.zero_le _) fun q hq => (hcross q hq f hf).le
  obtain ⟨hmtu, hlevel⟩ := s.settings_ratchet post
  obtain ⟨hbound, hkept⟩ := (ClusterState.genesis m g).walkAll_retainSets (pre ++ post)
  refine ⟨ClusterState.applied_le_walkAll happlied hpost, hmtu, hlevel, ht ▸ hsound _, ?_, ?_, ?_, ?_⟩
  · intro h
    rw [ht]
    exact hbound (.inl h)
  · intro h
    rw [ht, hkept h]
    simp only [ClusterState.genesis]
    split
    · rename_i h0
      rw [h0]
      rfl
    · omega
  · intro e he hforget
    exact (hsound pre).walkAll_tier he hforget
  · intro end_ body hne
    rcases t.apply_cases end_ body with ⟨-, -, h⟩ | ⟨cmd, -, -, -, h⟩
    · exact h
    · rw [h] at hne
      exact absurd rfl hne

/-- A tier's report and a settings command that raises the retained sets. -/
def tierReport : BackupWatermark := ⟨.report, 7, 64, 128, 256, 1⟩

def retainTwo : Settings := { Settings.genesisDefault with retainSets := 2 }

theorem cluster_fsm_invariants_tier_and_settings :
    let s := singleVoter.state.walkAll [.cluster 32 (ClusterCommand.backupWatermark tierReport).body]
    let t := s.walkAll [.cluster 64 (ClusterCommand.settings retainTwo).body]
    s.applied ≤ t.applied ∧ t.Sound ∧ t.settings.retainSets ≤ maxRetainSets ∧
      (∃ e' ∈ t.backups, BackupTierEntry.Grown ⟨7, 64, 128, 256, 1, 32⟩ e') ∧
      (t.apply 96 []).1 = { t with applied := 96 } := by
  have h := cluster_fsm_invariants (ClusterConfig.genesis [(1, 0, 0)] []) Settings.genesisDefault
    [.cluster 32 (ClusterCommand.backupWatermark tierReport).body]
    [.cluster 64 (ClusterCommand.settings retainTwo).body]
    (by simp [LogOrder, Frame.Before, Frame.end_])
  obtain ⟨happlied, -, -, hsound, hretain, -, htier, hrefused⟩ := h
  refine ⟨happlied, hsound, hretain ⟨retainTwo, by decide⟩, ?_, ?_⟩
  · refine htier ⟨7, 64, 128, 256, 1, 32⟩ (by decide) ?_
    have hacc : (singleVoter.state.walkAll
        [.cluster 32 (ClusterCommand.backupWatermark tierReport).body]).accepts
          [.cluster 64 (ClusterCommand.settings retainTwo).body] = [.settings retainTwo] := by decide
    intro cmd hcmd hforget
    obtain ⟨w, rfl, -⟩ := hforget
    have hmem : ClusterCommand.backupWatermark w ∈ [ClusterCommand.settings retainTwo] := hacc ▸ hcmd
    cases List.mem_singleton.mp hmem
  · exact hrefused 96 [] (by decide)

/-- A number of sets outside the bound of the door, given at genesis, stays. -/
theorem genesis_retainSets_unchecked :
    ¬ ∀ (m : ClusterConfig) (g : Settings) (fs : List Frame), LogOrder fs →
      ((ClusterState.genesis m g).walkAll fs).settings.retainSets ≤ maxRetainSets := by
  intro h
  have h100 := h (ClusterConfig.genesis [(1, 0, 0)] [])
    { Settings.genesisDefault with retainSets := 100 }
    [.cluster 32 (ClusterCommand.rowGenesis ⟨0, 65536⟩).body]
    (by simp [LogOrder])
  exact absurd h100 (by decide)

end UltimaCluster
