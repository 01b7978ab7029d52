/-
  Pin completion along the log.

  Completion is not stored: it is read off the listed sets.  Once the newest pin
  `p` of a row is recorded at `q`, a set above `q` is complete only when it reports
  the row, and it reports the row on `p.to_` (`PinHeld`).  The newest agreed set
  therefore completes the pin as soon as any set does, and retention keeps it.
-/
import UltimaCluster.Floor
import UltimaCluster.FsmInvariant

namespace UltimaCluster

/-! ## One set -/

namespace SetEntry

theorem putRow_rows (n : ℕ) (entry : RowEntry) (e : SetEntry) (row : Row) :
    (e.putRow n entry).rows row = if n = row then entry else e.rows row := by
  have hcluster : cncMaxServices < clusterRow := by decide
  unfold putRow
  by_cases hc : n = clusterRow
  · rw [if_pos hc, if_neg (by omega)]
  · rw [if_neg hc]
    by_cases hn : n < cncMaxServices
    · rw [dif_pos hn]
      by_cases h : n = row
      · subst h
        simp
      · have hne : row ≠ ⟨n, hn⟩ := fun heq => h (by rw [heq])
        rw [if_neg h]
        exact Function.update_of_ne hne _ _
    · rw [dif_neg hn, if_neg (by omega)]

theorem record_rows (declared : Row → Bool) (n : ℕ) (entry : RowEntry) (e : SetEntry) (row : Row) :
    (e.record declared n entry).rows row = if n = row then entry else e.rows row := by
  rw [← putRow_rows]
  simp only [record]
  split <;> rfl

/-- What is complete after a report was complete before or is fully reported. -/
theorem record_state {declared : Row → Bool} {n : ℕ} {entry : RowEntry} {e : SetEntry}
    (h : (e.record declared n entry).state = .complete) :
    e.state = .complete ∨ (e.putRow n entry).fullyReported declared = true := by
  simp only [record] at h
  split at h
  · rename_i hfull
    exact .inr (Bool.and_eq_true_iff.mp hfull).1
  · rw [putRow_state] at h
    exact .inl h

/-- A set above `q` reports the row on `version`, and is complete only if it reports it. -/
def BuiltAbove (q : ℕ) (row : Row) (version : ℕ) (e : SetEntry) : Prop :=
  q < e.position →
    ((e.rows row).verdict ≠ .unreported → (e.rows row).version = version) ∧
    (e.state = .complete → (e.rows row).verdict ≠ .unreported)

theorem BuiltAbove.record {q version n : ℕ} {row : Row} {e : SetEntry} {declared : Row → Bool}
    {entry : RowEntry} (he : e.BuiltAbove q row version) (hdeclared : declared row = true)
    (hentry : q < e.position → n = row → entry.version = version)
    (hverdict : entry.verdict ≠ .unreported) :
    (e.record declared n entry).BuiltAbove q row version := by
  intro hlt
  rw [record_position] at hlt
  obtain ⟨hversion, hcomplete⟩ := he hlt
  rw [record_rows]
  by_cases hn : n = row
  · rw [if_pos hn]
    exact ⟨fun _ => hentry hlt hn, fun _ => hverdict⟩
  · rw [if_neg hn]
    refine ⟨hversion, fun hstate => ?_⟩
    rcases record_state hstate with h | h
    · exact hcomplete h
    · simp only [fullyReported, Bool.and_eq_true, List.all_eq_true] at h
      have := h.2 row (List.mem_finRange row)
      rw [hdeclared, putRow_rows, if_neg hn] at this
      simpa using this

theorem BuiltAbove.commanded (q position timeNs version : ℕ) (row : Row) (kind : SetKind) :
    (SetEntry.commanded position kind timeNs).BuiltAbove q row version :=
  fun _ => ⟨fun h => absurd rfl h, nofun⟩

end SetEntry

namespace ClusterState

/-! ## The gate -/

theorem setRunning_running (s : ClusterState) {n : ℕ} (version position : ℕ) (row : Row) :
    (s.setRunning n version position).running row =
      if n = row then some { row := n, version, recordPos := position } else s.running row := by
  unfold setRunning
  by_cases hn : n < cncMaxServices
  · rw [dif_pos hn]
    by_cases h : n = row
    · subst h
      simp
    · have hne : row ≠ ⟨n, hn⟩ := fun heq => h (by rw [heq])
      rw [if_neg h]
      exact Function.update_of_ne hne _ _
  · rw [dif_neg hn, if_neg (by omega)]

variable {row : Row} {s : ClusterState}

/-- The newest pin of a row and what it runs change with its next pin only. -/
theorem walk_gate (hrunning : (s.running row).isSome = true) {f : Frame}
    (hno : ∀ p, f.accepted s = some (.upgradePin p) → p.row ≠ row) :
    newestPin (s.walk f).pins row = newestPin s.pins row ∧ (s.walk f).running row = s.running row := by
  have hw := walked s f
  generalize s.walk f = t at hw ⊢
  cases hw with
  | snapshot end_ standby timeNs =>
    obtain ⟨catalog, h⟩ := s.onSnapshotFrame_eq end_ standby timeNs
    rw [h]
    exact ⟨rfl, rfl⟩
  | refused _ => exact ⟨rfl, rfl⟩
  | @accepted end_ body cmd _ hval hacc =>
    have heff := accept_effect { s with applied := end_ } end_ cmd
    generalize accept { s with applied := end_ } end_ cmd = t at heff ⊢
    cases heff with
    | upgradePin p =>
      have hne := hno p hacc
      simp only [newestPin_pushPin, setRunning_running, if_neg hne, and_self]
    | rowGenesis g =>
      have hne : g.row ≠ row := by
        intro h
        have hsome : (s.runningFor g.row).isSome = true := by
          simp only [runningFor, h, Fin.is_lt, ↓reduceDIte, hrunning]
        simp [validateReplicated, hsome] at hval
      simp only [setRunning_running, if_neg hne, and_self]
    | _ => exact ⟨rfl, rfl⟩
  | consumed _ => exact ⟨rfl, rfl⟩
  | passed _ => exact ⟨rfl, rfl⟩

theorem versionAt_of_newestPin (hs : PinsSound s.pins) {p : UpgradePin}
    (hp : newestPin s.pins row = some p) {position : ℕ} (hlt : p.origin < position) :
    s.versionAt row position = p.to_ := by
  have hrow : (row : ℕ) ≠ clusterRow := by
    have hcluster : cncMaxServices < clusterRow := by decide
    omega
  have hfind : (s.pins.filter fun q => q.row == (row : ℕ)).find?
      (fun q => decide (position ≤ q.origin)) = none := by
    rw [List.find?_eq_none]
    intro q hq hge
    obtain ⟨hmem, hqrow⟩ := List.mem_filter.mp hq
    have hle := hs.le_newestPin hp hmem (eq_of_beq hqrow)
    have := of_decide_eq_true hge
    omega
  rw [newestPin_eq_getLast?] at hp
  simp only [versionAt, if_neg hrow, hfind, hp]

variable {fs : List Frame}

theorem mem_accepts_cons {f : Frame} {cmd : ClusterCommand} :
    cmd ∈ s.accepts (f :: fs) ↔ f.accepted s = some cmd ∨ cmd ∈ (s.walk f).accepts fs := by
  simp [accepts]

/-- No pin of `row` is accepted along `fs`. -/
def NoPin (s : ClusterState) (row : Row) (fs : List Frame) : Prop :=
  ∀ p, ClusterCommand.upgradePin p ∈ s.accepts fs → p.row ≠ row

def pinsRow (row : Row) : ClusterCommand → Bool
  | .upgradePin p => p.row == row
  | _ => false

instance (s : ClusterState) (row : Row) (fs : List Frame) : Decidable (s.NoPin row fs) :=
  decidable_of_iff (∀ cmd ∈ s.accepts fs, pinsRow row cmd = false) <| by
    constructor
    · intro h p hp
      exact ne_of_beq_false (h _ hp)
    · intro h cmd hcmd
      cases cmd with
      | upgradePin p => exact beq_false_of_ne (h p hcmd)
      | _ => rfl

theorem noPin_cons {f : Frame} :
    s.NoPin row (f :: fs) ↔
      (∀ p, f.accepted s = some (.upgradePin p) → p.row ≠ row) ∧ (s.walk f).NoPin row fs := by
  simp only [NoPin, mem_accepts_cons, or_imp, forall_and]

theorem noPin_append {fs gs : List Frame} :
    s.NoPin row (fs ++ gs) ↔ s.NoPin row fs ∧ (s.walkAll fs).NoPin row gs := by
  induction fs generalizing s with
  | nil => simp [NoPin, accepts]
  | cons f fs ih => simp [noPin_cons, ih, and_assoc]

theorem gate_walkAll (hrunning : (s.running row).isSome = true) (hno : s.NoPin row fs) :
    newestPin (s.walkAll fs).pins row = newestPin s.pins row ∧
      (s.walkAll fs).running row = s.running row := by
  induction fs generalizing s with
  | nil => exact ⟨rfl, rfl⟩
  | cons f fs ih =>
    obtain ⟨hf, hfs⟩ := noPin_cons.mp hno
    obtain ⟨hnewest, hrun⟩ := walk_gate hrunning hf
    have hrest := ih (s := s.walk f) (hrun ▸ hrunning) hfs
    rw [hnewest, hrun] at hrest
    exact hrest

/-! ## A pin in force -/

/-- The newest pin of `row` is `p`, recorded at `q`, and what is listed above reads so. -/
structure PinHeld (s : ClusterState) (row : Row) (p : UpgradePin) (q : ℕ) : Prop where
  newest : newestPin s.pins row = some p
  recorded : (s.running row).map RowRunning.recordPos = some q
  built : ∀ e ∈ s.catalog, e.BuiltAbove q row p.to_

theorem PinHeld.declared {p : UpgradePin} {q : ℕ} (h : s.PinHeld row p q) :
    s.declared row = true := by
  obtain ⟨r, hr, -⟩ := Option.map_eq_some_iff.mp h.recorded
  simp [ClusterState.declared, hr]

section
variable {s : ClusterState} {row : Row} {p : UpgradePin} {q : ℕ} {f : Frame}

theorem PinHeld.staged (h : s.PinHeld row p q) (hpins : PinsSound s.pins) (horigin : p.origin ≤ q)
    (f : Frame) : ∀ e ∈ s.staged f, e.BuiltAbove q row p.to_ := by
  intro e he
  unfold ClusterState.staged at he
  split at he
  · split at he
    · exact h.built e he
    · rw [List.mem_insertionSort, List.mem_append, List.mem_singleton] at he
      rcases he with he | rfl
      · exact h.built e he
      · exact SetEntry.BuiltAbove.commanded q _ _ _ row _
  · split at he
    · rename_i r _
      obtain ⟨e₀, he₀, rfl⟩ := List.mem_map.mp he
      unfold recordIn
      split
      · refine (h.built e₀ he₀).record h.declared ?_ (s.rowEntry_verdict r).1
        intro hlt hrow
        have habove : p.origin < r.position := by omega
        have hversion := versionAt_of_newestPin hpins h.newest habove
        rw [← hversion, ← hrow]
        rfl
      · exact h.built e₀ he₀
    · exact h.built e he
  · exact h.built e he

theorem PinHeld.walk (h : s.PinHeld row p q) (hs : s.Sound) (hsorted : CatalogSorted s.catalog)
    (horigin : p.origin ≤ q) (hno : ∀ p, f.accepted s = some (.upgradePin p) → p.row ≠ row) :
    (s.walk f).PinHeld row p q := by
  obtain ⟨hnewest, hrunning⟩ := walk_gate h.declared hno
  refine ⟨hnewest.trans h.newest, by rw [hrunning, h.recorded], ?_⟩
  intro e he
  exact h.staged hs.pins horigin f e ((retained hsorted f).pruned.sublist.subset he)

theorem PinHeld.completes (h : s.PinHeld row p q) {e : SetEntry} (he : e ∈ s.catalog)
    (hagreed : e.isAgreed = true) (hlt : q < e.position) :
    completesPin e row ⟨p.origin, p.to_, some q⟩ = true := by
  obtain ⟨hstate, -, hrows⟩ := SetEntry.isAgreed_iff.mp hagreed
  obtain ⟨hversion, hcomplete⟩ := h.built e he hlt
  have hreported := hcomplete hstate
  have hverdict := (hrows row).resolve_left hreported
  simp [completesPin, hagreed, PinGate.below, hlt, hverdict, hversion hreported, sameLine]

theorem completesPin_above {e : SetEntry} {gate : PinGate} (hgate : gate.recordPos = some q)
    (h : completesPin e row gate = true) : q < e.position := by
  simp only [completesPin, PinGate.below, hgate, Bool.and_eq_true, decide_eq_true_eq] at h
  exact h.1.1.2

theorem PinHeld.pinComplete_walk (h' : (s.walk f).PinHeld row p q)
    (hsorted : CatalogSorted s.catalog) (hfloor : s.FloorUpheld f)
    (hcomplete : pinComplete s.catalog row ⟨p.origin, p.to_, some q⟩ = true) :
    pinComplete (s.walk f).catalog row ⟨p.origin, p.to_, some q⟩ = true := by
  obtain ⟨e, he, hcompletes⟩ := List.any_eq_true.mp hcomplete
  have hlt := completesPin_above rfl hcompletes
  have hagreed : e.isAgreed = true := by
    simp only [completesPin, Bool.and_eq_true] at hcompletes
    exact hcompletes.1.1.1
  obtain ⟨x, hx⟩ := newestAgreed_isSome he hagreed
  have hle := hsorted.le_newestAgreed he hagreed hx
  obtain ⟨y, hy, hxy⟩ := hfloor.newest x hx
  obtain ⟨hmem, hyagreed⟩ := mem_of_newestAgreed hy
  exact List.any_eq_true.mpr ⟨y, hmem, h'.completes hmem hyagreed (by omega)⟩

theorem PinHeld.walkAll (h : s.PinHeld row p q) (hs : s.Sound) (hsorted : s.CatalogOk)
    (horigin : p.origin ≤ q) {fs : List Frame} (hno : s.NoPin row fs)
    (hagrees : s.Along AgreesAgain fs) :
    (s.walkAll fs).PinHeld row p q ∧
      (pinComplete s.catalog row ⟨p.origin, p.to_, some q⟩ = true →
        pinComplete (s.walkAll fs).catalog row ⟨p.origin, p.to_, some q⟩ = true) := by
  induction fs generalizing s with
  | nil => exact ⟨h, id⟩
  | cons f fs ih =>
    obtain ⟨hf, hfs⟩ := noPin_cons.mp hno
    have hwalk := h.walk hs hsorted.sorted horigin hf
    have hfloor := floorUpheld_of_agreesAgain hsorted.sorted hagrees.1
    obtain ⟨hheld, hcomplete⟩ := ih hwalk (hs.walk f) (hsorted.walk f) hfs hagrees.2
    exact ⟨hheld, fun hbefore => hcomplete (hwalk.pinComplete_walk hsorted.sorted hfloor hbefore)⟩

end

/-! ## Whole walks -/

theorem listed_position (hs : CatalogSorted s.catalog) {e : SetEntry}
    (he : e ∈ (s.walkAll fs).catalog) :
    (∃ e₀ ∈ s.catalog, e₀.position = e.position) ∨ ∃ f ∈ fs, f.end_ = e.position := by
  induction fs generalizing s with
  | nil => exact .inl ⟨e, he, rfl⟩
  | cons f fs ih =>
    have hret := retained hs f
    rcases ih (hret.sorted.sublist hret.pruned.sublist) he with ⟨e₀, he₀, hpos⟩ | ⟨g, hg, hpos⟩
    · rcases staged_position (hret.pruned.sublist.subset he₀) with ⟨e₁, he₁, hpos₁⟩ | hpos₁
      · exact .inl ⟨e₁, he₁, hpos₁.trans hpos⟩
      · exact .inr ⟨f, List.mem_cons_self, hpos₁.symm.trans hpos⟩
    · exact .inr ⟨g, List.mem_cons_of_mem f hg, hpos⟩

end ClusterState

open ClusterState

section
variable (m : ClusterConfig) (g : Settings) {pre mid post : List Frame} {q : ℕ} {body : Bytes}
  {p : UpgradePin} {row : Row}

theorem pinHeld_of_accepted (hord : LogOrder (pre ++ [.cluster q body]))
    (hacc : (Frame.cluster q body).accepted ((genesis m g).walkAll pre) = some (.upgradePin p))
    (hrow : p.row = row) :
    ((genesis m g).walkAll (pre ++ [.cluster q body])).PinHeld row p q := by
  rw [walkAll_append, walkAll_cons, walkAll_nil]
  have hlisted : ∀ e ∈ ((genesis m g).walkAll pre).catalog, e.position < q := by
    intro e he
    rcases listed_position (genesis_catalogOk m g).sorted he with ⟨_, h, -⟩ | ⟨f, hf, hpos⟩
    · cases h
    · rw [← hpos]
      exact (List.pairwise_append.mp hord).2.2 f hf _ (List.mem_singleton_self _)
  generalize (genesis m g).walkAll pre = s at hacc hlisted ⊢
  have heff := accept_effect { s with applied := q } q (.upgradePin p)
  have hwalk : s.walk (.cluster q body) = { s with applied := q }.accept q (.upgradePin p) :=
    walk_accepted hacc
  rw [hwalk]
  generalize accept { s with applied := q } q (.upgradePin p) = t at heff
  cases heff
  refine ⟨?_, ?_, ?_⟩
  · simp [newestPin_pushPin, hrow]
  · simp [setRunning_running, hrow]
  · intro e he hlt
    have := hlisted e he
    omega

/-- A pin recorded at `q` is gated at `q` until the row's next pin, so no set at or
    below `q` completes it.  If its origin lies at or below `q` and every report on an
    agreed set agrees, then once complete it stays complete. -/
theorem pin_completion_stable (hord : LogOrder (pre ++ .cluster q body :: (mid ++ post)))
    (hacc : (Frame.cluster q body).accepted ((genesis m g).walkAll pre) = some (.upgradePin p))
    (hrow : p.row = row)
    (hno : ((genesis m g).walkAll (pre ++ [.cluster q body])).NoPin row (mid ++ post)) :
    let gate : PinGate := ⟨p.origin, p.to_, some q⟩
    let s := (genesis m g).walkAll (pre ++ .cluster q body :: mid)
    pinGate s.pins s.running row = some gate ∧
    (∀ e, e.position ≤ q → completesPin e row gate = false) ∧
    (p.origin ≤ q →
      ((genesis m g).walkAll (pre ++ [.cluster q body])).Along AgreesAgain (mid ++ post) →
      pinComplete s.catalog row gate = true →
      pinComplete (s.walkAll post).catalog row gate = true) := by
  intro gate s
  have happ : pre ++ .cluster q body :: mid = pre ++ [.cluster q body] ++ mid := by simp
  have hord' : LogOrder (pre ++ [.cluster q body]) := by
    refine hord.sublist (List.Sublist.append_left ?_ pre)
    exact List.cons_sublist_cons.mpr (List.nil_sublist _)
  have hheld := pinHeld_of_accepted m g hord' hacc hrow
  have hsound : ((genesis m g).walkAll (pre ++ [.cluster q body])).Sound :=
    walkAll_keeps (fun _ f h => h.walk f) (genesis_sound m g) _
  have hok : ((genesis m g).walkAll (pre ++ [.cluster q body])).CatalogOk :=
    walkAll_keeps (fun _ f h => h.walk f) (genesis_catalogOk m g) _
  simp only [s, happ, walkAll_append _ (pre ++ [.cluster q body]) mid]
  generalize (genesis m g).walkAll (pre ++ [.cluster q body]) = t at hheld hsound hok hno ⊢
  obtain ⟨hmid, hpost⟩ := noPin_append.mp hno
  obtain ⟨hnewest, hrunning⟩ := gate_walkAll hheld.declared hmid
  refine ⟨?_, ?_, ?_⟩
  · simp [pinGate, hnewest, hrunning, hheld.newest, hheld.recorded, gate]
  · intro e he
    refine Bool.eq_false_of_not_eq_true fun h => ?_
    have := completesPin_above (q := q) rfl h
    omega
  · intro horigin hagrees
    obtain ⟨hagrees₁, hagrees₂⟩ := along_append.mp hagrees
    obtain ⟨hheld', -⟩ := hheld.walkAll hsound hok horigin hmid hagrees₁
    exact (hheld'.walkAll (walkAll_keeps (fun _ f h => h.walk f) hsound mid)
      (walkAll_keeps (fun _ f h => h.walk f) hok mid) horigin hpost hagrees₂).2

end

/-- Row 0 runs a version, and an instant is commanded. -/
def beforePin : List Frame :=
  [.cluster 32 (ClusterCommand.rowGenesis ⟨0, 65536⟩).body, .snapshot 64 false 0]

def movedTo : UpgradePin := ⟨0, 65536, 131072, 64⟩

/-- The set at 128 completes the pin that is recorded at 96. -/
def completingSet : List Frame :=
  [.snapshot 128 false 0,
   .cluster 160 (ClusterCommand.snapshotReport ⟨0, 128, [(1, 7, 10), (2, 7, 10)]⟩).body,
   .cluster 192 (ClusterCommand.snapshotReport ⟨255, 128, [(1, 9, 10), (2, 9, 10)]⟩).body]

/-- The set at 224 is agreed as well, and retention drops the one at 128. -/
def nextSet : List Frame :=
  [.snapshot 224 false 0,
   .cluster 256 (ClusterCommand.snapshotReport ⟨0, 224, [(1, 5, 10), (2, 5, 10)]⟩).body,
   .cluster 288 (ClusterCommand.snapshotReport ⟨255, 224, [(1, 6, 10), (2, 6, 10)]⟩).body]

/-- A second report on the set at 128, in which the nodes differ. -/
def disagreement : Frame :=
  .cluster 224 (ClusterCommand.snapshotReport ⟨0, 128, [(1, 7, 10), (2, 8, 10)]⟩).body

def firstRow : Row := ⟨0, cncMaxServices_pos⟩

/-- The walk up to the completion. -/
def upToCompletion : List Frame :=
  beforePin ++ .cluster 96 (ClusterCommand.upgradePin movedTo).body :: completingSet

theorem pin_completion_stable_next_set :
    pinComplete (singleVoter.state.walkAll upToCompletion).catalog firstRow
      ⟨64, 131072, some 96⟩ = true ∧
    ((singleVoter.state.walkAll upToCompletion).walkAll nextSet).catalog.map SetEntry.position =
      [224] ∧
    pinComplete ((singleVoter.state.walkAll upToCompletion).walkAll nextSet).catalog firstRow
      ⟨64, 131072, some 96⟩ = true := by
  have hcomplete : pinComplete (singleVoter.state.walkAll upToCompletion).catalog firstRow
      ⟨64, 131072, some 96⟩ = true := by decide +kernel
  obtain ⟨-, -, hstable⟩ := @pin_completion_stable (ClusterConfig.genesis [(1, 0, 0)] [])
    Settings.genesisDefault beforePin completingSet nextSet 96
    (ClusterCommand.upgradePin movedTo).body movedTo firstRow
    (by decide +kernel) (by decide +kernel) rfl (by decide +kernel)
  exact ⟨hcomplete, by decide +kernel, hstable (by decide) (by decide +kernel) hcomplete⟩

theorem second_report_reopens_pin :
    LogOrder (upToCompletion ++ [disagreement]) ∧
    pinGate (singleVoter.state.walkAll upToCompletion).pins
      (singleVoter.state.walkAll upToCompletion).running firstRow = some ⟨64, 131072, some 96⟩ ∧
    pinComplete (singleVoter.state.walkAll upToCompletion).catalog firstRow
      ⟨64, 131072, some 96⟩ = true ∧
    (singleVoter.state.walkAll upToCompletion).NoPin firstRow [disagreement] ∧
    (disagreement.accepted (singleVoter.state.walkAll upToCompletion)).isSome = true ∧
    pinGate ((singleVoter.state.walkAll upToCompletion).walk disagreement).pins
      ((singleVoter.state.walkAll upToCompletion).walk disagreement).running firstRow =
        some ⟨64, 131072, some 96⟩ ∧
    pinComplete ((singleVoter.state.walkAll upToCompletion).walk disagreement).catalog firstRow
      ⟨64, 131072, some 96⟩ = false := by
  decide +kernel

end UltimaCluster
