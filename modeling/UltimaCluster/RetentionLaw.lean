/-
  What retention promises, over whole walks.

  The size cap evicts the oldest set that is not agreed without asking whether it
  is the origin of an incomplete pin, which `retire` and the drop of superseded
  instants do ask.  Everything else holds at every step; the pinned origins stay
  exactly as long as no set is commanded while the list is squeezed.
-/
import UltimaCluster.Floor

namespace UltimaCluster

open SetEntry (isAgreed state_of_isAgreed)

open Evict

namespace ClusterState

/-! ## Completions -/

variable {s : ClusterState}

theorem unpinned_of_completed (hs : CatalogSorted s.catalog) {r : SnapshotReport}
    (hbefore : s.completeAt r.position = false) {e : SetEntry} (he : e ∈ (s.putReport r).catalog)
    (hpos : e.position = r.position) (hagreed : e.isAgreed = true) :
    (s.putReport r).unpinned ≤ s.retainSets := by
  obtain ⟨m, hm, hpruned, -, -, hcount⟩ := putReport_pruned hs r
  have hem := hpruned.sublist.subset he
  refine hcount ?_ ⟨e, hem, hpos, hagreed⟩
  by_contra hrec
  rw [hm] at hem
  obtain ⟨e₀, he₀, rfl⟩ := List.mem_map.mp hem
  have hid : s.recordIn r e₀ = e₀ := by simp [recordIn, hrec]
  rw [hid] at hpos hagreed
  have hcomplete : s.completeAt r.position = true :=
    List.any_eq_true.mpr ⟨e₀, he₀, by simp [hpos, state_of_isAgreed hagreed]⟩
  rw [hbefore] at hcomplete
  cases hcomplete

/-- Pinned origins and the count that retention bounds read agreed sets only. -/
theorem unpinned_congr {s t : ClusterState} (hpins : s.pins = t.pins)
    (hrunning : s.running = t.running)
    (hagreed : s.catalog.filter isAgreed = t.catalog.filter isAgreed) :
    s.unpinned = t.unpinned := by
  have hcomplete : ∀ c row gate,
      pinComplete c row gate = pinComplete (c.filter isAgreed) row gate := by
    intro c row gate
    rw [pinComplete, pinComplete, List.any_filter]
    congr 1
    ext e
    cases h : e.isAgreed <;> simp [completesPin, h]
  have hpinned : s.pinnedOrigins = t.pinnedOrigins := by
    simp only [pinnedOrigins, hpins, hrunning]
    refine List.filterMap_congr fun row _ => ?_
    cases pinGate t.pins t.running row with
    | none => rfl
    | some gate => simp only [hcomplete s.catalog, hcomplete t.catalog, hagreed]
  have hcount : ∀ (c : List SetEntry) (pinned : List ℕ), c.countP (unpinnedAgreed pinned) =
      (c.filter isAgreed).countP (unpinnedAgreed pinned) := by
    intro c pinned
    rw [List.countP_filter]
    refine List.countP_congr fun e _ => ?_
    cases h : e.isAgreed <;> simp [unpinnedAgreed, h]
  rw [unpinned, unpinned, hcount, hcount t.catalog, hpinned, hagreed]

theorem unpinned_holdReport (s : ClusterState) (r : SnapshotReport) :
    (s.holdReport r).unpinned = s.unpinned := by
  simp only [unpinned, holdReport_catalog, holdReport_pinnedOrigins]

theorem unpinned_dropCommandedBelow (s : ClusterState) (position : ℕ) :
    (s.dropCommandedBelow position).unpinned = s.unpinned := by
  refine unpinned_congr rfl rfl ?_
  simp only [dropCommandedBelow, List.filter_filter]
  refine List.filter_congr fun e _ => ?_
  cases h : e.isAgreed with
  | false => rfl
  | true => simp [state_of_isAgreed h]

theorem unpinned_of_not_agreed (hs : CatalogSorted s.catalog) {r : SnapshotReport}
    (hbefore : ∀ e ∈ s.catalog, e.position = r.position → e.isAgreed = false)
    (hafter : ∀ e ∈ s.catalog, e.position = r.position → (s.recordIn r e).isAgreed = false) :
    (s.putReport r).unpinned = s.unpinned := by
  have hfold : s.foldIntoCatalog r = { s with catalog := s.catalog.map (s.recordIn r) } := by
    rcases foldIntoCatalog_cases hs r with ⟨-, -, e, he, hpos, hagreed⟩ | ⟨h, -⟩
    · obtain ⟨e₀, he₀, rfl⟩ := List.mem_map.mp he
      rw [hafter e₀ he₀ ((recordIn_position s r e₀).symm.trans hpos)] at hagreed
      cases hagreed
    · exact h
  have hrecord : ∀ c : List SetEntry, c ⊆ s.catalog →
      (c.map (s.recordIn r)).filter isAgreed = c.filter isAgreed := by
    intro c
    induction c with
    | nil => exact fun _ => rfl
    | cons e c ih =>
      intro hsub
      have he := hsub List.mem_cons_self
      have hrest := ih (List.subset_of_cons_subset hsub)
      by_cases hpos : e.position = r.position
      · rw [List.map_cons, List.filter_cons_of_neg (by simp [hafter e he hpos]),
          List.filter_cons_of_neg (by simp [hbefore e he hpos]), hrest]
      · have hid : s.recordIn r e = e := by simp [recordIn, hpos]
        rw [List.map_cons, hid, List.filter_cons, List.filter_cons, hrest]
  unfold putReport
  simp only [hfold, unpinned_holdReport]
  have hm : unpinned { s with catalog := s.catalog.map (s.recordIn r) } = s.unpinned :=
    unpinned_congr rfl rfl (hrecord s.catalog (List.Subset.refl _))
  split
  · rw [unpinned_dropCommandedBelow, hm]
  · exact hm

/-! ## A set commanded above the list -/

theorem pinnedOrigins_push {x : SetEntry} (hx : x.isAgreed = false) :
    { s with catalog := s.catalog ++ [x] }.pinnedOrigins = s.pinnedOrigins := by
  simp [pinnedOrigins, pinComplete, List.any_append, completesPin, hx]

/-- `retire` drops nothing exactly when few enough unpinned sets are agreed and all
    below the oldest agreed set is pinned. -/
theorem retire_catalog_eq_iff (hs : CatalogSorted s.catalog) :
    s.retire.catalog = s.catalog ↔ s.unpinned ≤ s.retainSets ∧
      ∀ floor, s.catalog.find? isAgreed = some floor → ∀ e ∈ s.catalog,
        e.position < floor.position → e.position ∈ s.pinnedOrigins := by
  have hloop := pruned_retireLoop s.pinnedOrigins s.retainSets s.catalog.length s.catalog
  have hdrop : ∀ c, dropBelowFloor s.pinnedOrigins c = c ↔
      ∀ floor, c.find? isAgreed = some floor → ∀ e ∈ c,
        e.position < floor.position → e.position ∈ s.pinnedOrigins := by
    intro c
    unfold dropBelowFloor
    split
    · rename_i floor hfloor
      rw [List.filter_eq_self]
      constructor
      · intro h floor' hfloor' e he hlt
        cases hfloor.symm.trans hfloor'
        have := h e he
        simp only [Bool.or_eq_true, decide_eq_true_eq, List.contains_iff_mem] at this
        exact this.resolve_left (Nat.not_le_of_lt hlt)
      · intro h e he
        simp only [Bool.or_eq_true, decide_eq_true_eq, List.contains_iff_mem]
        exact (Nat.lt_or_ge e.position floor.position).elim
          (fun hlt => .inr (h floor hfloor e he hlt)) .inl
    · rename_i hnone
      simp [hnone]
  constructor
  · intro h
    have hsub : s.retire.catalog.Sublist
        (retireLoop s.pinnedOrigins s.retainSets s.catalog.length s.catalog) :=
      (pruned_dropBelowFloor (hs.sublist hloop.sublist)).sublist
    have heq : retireLoop s.pinnedOrigins s.retainSets s.catalog.length s.catalog = s.catalog := by
      refine hloop.sublist.eq_of_length_le ?_
      calc s.catalog.length = s.retire.catalog.length := (congrArg List.length h).symm
        _ ≤ _ := hsub.length_le
    have hun := unpinned_retire hs
    rw [unpinned, h] at hun
    have hpin : s.retire.pinnedOrigins = s.pinnedOrigins := pinnedOrigins_congr rfl rfl h
    rw [hpin] at hun
    refine ⟨hun, (hdrop _).mp ?_⟩
    have hret : s.retire.catalog = dropBelowFloor s.pinnedOrigins
        (retireLoop s.pinnedOrigins s.retainSets s.catalog.length s.catalog) := rfl
    rw [← heq, ← hret, h, heq]
  · rintro ⟨hun, hfloor⟩
    have hstep : retireStep s.pinnedOrigins s.retainSets s.catalog = none := by
      have hlen : (indices (unpinnedAgreed s.pinnedOrigins) s.catalog).length ≤ s.retainSets := by
        rw [length_indices]
        exact hun
      exact if_pos hlen
    have hretired : retireLoop s.pinnedOrigins s.retainSets s.catalog.length s.catalog = s.catalog :=
      loop_of_none hstep _
    have hret : s.retire.catalog = dropBelowFloor s.pinnedOrigins
        (retireLoop s.pinnedOrigins s.retainSets s.catalog.length s.catalog) := rfl
    rw [hret, hretired]
    exact (hdrop _).mpr hfloor

/-! ## The squeezed list -/

/-- A set is commanded while the list is full, retention finds nothing to drop, and
    the oldest set that is not agreed is the origin of an incomplete pin. -/
structure Squeezed (s : ClusterState) (f : Frame) : Prop where
  commanded : ∃ end_ standby timeNs, f = .snapshot end_ standby timeNs ∧
    ∀ e ∈ s.catalog, e.position ≠ end_
  full : s.catalog.length = maxCatalogSets
  unpinned : s.unpinned ≤ s.retainSets
  floor : ∀ floor, s.catalog.find? SetEntry.isAgreed = some floor → ∀ e ∈ s.catalog,
    e.position < floor.position → e.position ∈ s.pinnedOrigins
  origin : ∃ e, s.catalog.find? (fun e => !e.isAgreed) = some e ∧ e.position ∈ s.pinnedOrigins

section
variable {s : ClusterState} {x : SetEntry}

/-- The list with `x` appended, and what the passes make of it. -/
theorem squeezed_iff_retire_eq (hs : s.CatalogOk) (hx : x.isAgreed = false)
    (hlt : ∀ e ∈ s.catalog, e.position < x.position) :
    (s.unpinned ≤ s.retainSets ∧
      ∀ floor, s.catalog.find? isAgreed = some floor → ∀ e ∈ s.catalog,
        e.position < floor.position → e.position ∈ s.pinnedOrigins) ↔
    { s with catalog := s.catalog ++ [x] }.retire.catalog = s.catalog ++ [x] := by
  have hsorted : CatalogSorted (s.catalog ++ [x]) := by
    refine List.pairwise_append.mpr ⟨hs.sorted, List.pairwise_singleton _ x, ?_⟩
    intro e he y hy
    rw [List.mem_singleton.mp hy]
    exact hlt e he
  have hun : ClusterState.unpinned { s with catalog := s.catalog ++ [x] } = s.unpinned := by
    rw [ClusterState.unpinned, ClusterState.unpinned, pinnedOrigins_push hx, List.countP_append]
    simp [unpinnedAgreed, hx]
  have hfind : (s.catalog ++ [x]).find? isAgreed = s.catalog.find? isAgreed := by
    rw [List.find?_append]
    simp [hx]
  have hiff := retire_catalog_eq_iff (s := { s with catalog := s.catalog ++ [x] }) hsorted
  simp only [hun, hfind, pinnedOrigins_push hx] at hiff
  rw [hiff]
  refine and_congr Iff.rfl ?_
  constructor
  · intro h floor hfloor e he hlt'
    rcases List.mem_append.mp he with he | he
    · exact h floor hfloor e he hlt'
    · rw [List.mem_singleton.mp he] at hlt'
      have := hlt floor (List.mem_of_find?_eq_some hfloor)
      omega
  · intro h floor hfloor e he
    exact h floor hfloor e (List.mem_append_left _ he)

theorem capCatalog_of_le (h : s.catalog.length ≤ maxCatalogSets) :
    s.capCatalog.catalog = s.catalog := by
  have hstop : capStep s.pinnedOrigins s.catalog = none := by
    exact if_pos h
  exact loop_of_none hstop _

/-- The only eviction: a full list that `retire` leaves as it is loses one entry. -/
theorem capCatalog_push (hsorted : CatalogSorted (s.catalog ++ [x]))
    (hfull : s.catalog.length = maxCatalogSets) :
    ∃ l₁ v l₂, s.catalog = l₁ ++ v :: l₂ ∧
      { s with catalog := s.catalog ++ [x] }.capCatalog.catalog = l₁ ++ l₂ ++ [x] ∧
      ((v.isAgreed = false ∧ ∀ b ∈ l₁, b.isAgreed = true) ∨
        (v.position ∉ { s with catalog := s.catalog ++ [x] }.pinnedOrigins ∧
          ∀ b ∈ s.catalog, b.isAgreed = true)) := by
  generalize ht : { s with catalog := s.catalog ++ [x] } = t
  have hcat : t.catalog = s.catalog ++ [x] := by rw [← ht]
  have hlen : t.catalog.length = maxCatalogSets + 1 := by
    rw [hcat, List.length_append, hfull]
    rfl
  rw [← hcat] at hsorted
  cases hstep : capStep t.pinnedOrigins t.catalog with
  | none =>
    have := capStep_eq_none hsorted t.length_pinnedOrigins hstep
    omega
  | some c' =>
    obtain ⟨l₁, v, l₂', heq, rfl, hne, -, hcase⟩ := capStep_eq_some hstep
    obtain ⟨l₂, y, hl₂⟩ := (List.eq_nil_or_concat l₂').resolve_left hne
    rw [List.concat_eq_append] at hl₂
    subst hl₂
    have hsplit : s.catalog = l₁ ++ v :: l₂ ∧ [x] = [y] := by
      refine List.append_inj' ?_ rfl
      rw [← hcat, heq]
      simp
    obtain ⟨hc, hy⟩ := hsplit
    cases hy
    have hlen' : (l₁ ++ (l₂ ++ [x])).length ≤ maxCatalogSets := by
      have := congrArg List.length heq
      simp only [List.length_append, List.length_cons, List.length_nil] at this ⊢
      omega
    have hstop : capStep t.pinnedOrigins (l₁ ++ (l₂ ++ [x])) = none := by
      exact if_pos hlen'
    have hcap : t.capCatalog.catalog = l₁ ++ (l₂ ++ [x]) := loop_of_some hstep hstop (by omega)
    refine ⟨l₁, v, l₂, hc, by rw [hcap, List.append_assoc], ?_⟩
    rcases hcase with h | ⟨hpin, hall, -⟩
    · exact .inl h
    · refine .inr ⟨hpin, ?_⟩
      have htake : t.catalog.take (t.catalog.length - 1) = s.catalog := by
        rw [hcat, List.length_append, List.length_singleton, Nat.add_sub_cancel, List.take_left]
      rwa [htake] at hall

end

theorem pinned_kept_iff (hs : s.CatalogOk) {f : Frame} (habove : s.Above f) :
    (∀ e ∈ s.staged f, e.position ∈ (s.stage f).pinnedOrigins → e ∈ (s.walk f).catalog) ↔
      ¬ s.Squeezed f := by
  by_cases hf : ∃ end_ standby timeNs, f = .snapshot end_ standby timeNs
  · obtain ⟨end_, standby, timeNs, rfl⟩ := hf
    have hlt := habove end_ standby timeNs rfl
    have hnew : ∀ e ∈ s.catalog, e.position ≠ end_ := fun e he => (hlt e he).ne
    obtain ⟨hstaged, hwalk⟩ := staged_snapshot standby timeNs hnew
    generalize hx : SetEntry.commanded end_ (if standby then .standby else .full) timeNs = x at hstaged
    have hxpos : x.position = end_ := by rw [← hx]; rfl
    have hxa : x.isAgreed = false := by rw [← hx]; rfl
    have hlt' : ∀ e ∈ s.catalog, e.position < x.position := hxpos ▸ hlt
    rw [insert_of_lt hs.sorted hlt'] at hstaged
    have hret := retained hs.sorted (.snapshot end_ standby timeNs)
    have hsorted := hret.sorted
    rw [hstaged] at hsorted hwalk
    have hpin : (s.stage (.snapshot end_ standby timeNs)).pinnedOrigins = s.pinnedOrigins := by
      refine (pinnedOrigins_congr ?_ ?_ hstaged).trans (pinnedOrigins_push hxa)
      · rw [stage, hwalk]; rfl
      · rw [stage, hwalk]; rfl
    rw [hstaged, hpin, hwalk]
    have hpush := pinnedOrigins_push (s := s) hxa
    have hnoop := squeezed_iff_retire_eq hs hxa hlt'
    generalize ht : { s with catalog := s.catalog ++ [x] } = t at hpush hnoop
    have hcat : t.catalog = s.catalog ++ [x] := by rw [← ht]
    have hsub := (pruned_retire (s := t) (hcat ▸ hsorted)).sublist
    by_cases hle : t.retire.catalog.length ≤ maxCatalogSets
    · -- the cap has nothing to do
      rw [capCatalog_of_le hle]
      refine ⟨fun _ hsq => ?_, fun _ e he hpos => mem_retire (hcat ▸ he) (hpush ▸ hpos)⟩
      have heq := hnoop.mp ⟨hsq.unpinned, hsq.floor⟩
      rw [heq, List.length_append, List.length_singleton, hsq.full] at hle
      omega
    · have heq : t.retire.catalog = s.catalog ++ [x] := by
        rw [← hcat]
        refine hsub.eq_of_length_le ?_
        rw [hcat, List.length_append, List.length_singleton]
        have := hs.bounded
        omega
      have hfull : s.catalog.length = maxCatalogSets := by
        have := hs.bounded
        rw [heq, List.length_append, List.length_singleton] at hle
        omega
      have hrt : t.retire = t := by
        have h : t.retire = { t with catalog := t.retire.catalog } := rfl
        rw [h, heq, ← hcat]
      obtain ⟨l₁, v, l₂, hc, hcap, hcase⟩ := capCatalog_push hsorted hfull
      rw [ht] at hcap hcase
      rw [hrt, hcap]
      rw [hpush] at hcase
      obtain ⟨hun, hfloor⟩ := hnoop.mpr heq
      constructor
      · -- the evicted set was the origin
        intro hkept hsq
        obtain ⟨e₀, hfind, hpos⟩ := hsq.origin
        rcases hcase with ⟨hv, hl₁⟩ | ⟨-, hall⟩
        · have hfirst : s.catalog.find? (fun e => !e.isAgreed) = some v := by
            rw [hc]
            refine List.find?_eq_some_iff_append.mpr ⟨by simp [hv], l₁, l₂, rfl, ?_⟩
            intro b hb
            simp [hl₁ b hb]
          cases hfirst.symm.trans hfind
          have hmem := hkept v (by rw [hc]; simp) hpos
          rw [hc, List.append_assoc, List.cons_append] at hsorted
          rw [List.append_assoc] at hmem
          have hnodup := hsorted.not_mem_of_split
          exact hnodup hmem
        · have hbad := List.find?_some hfind
          rw [hall e₀ (List.mem_of_find?_eq_some hfind)] at hbad
          cases hbad
      · intro hnot e he hpos
        have hne : e ≠ v := by
          rintro rfl
          rcases hcase with ⟨hv, hl₁⟩ | ⟨hvpin, -⟩
          · refine hnot ⟨⟨end_, standby, timeNs, rfl, hnew⟩, hfull, hun, hfloor, e, ?_, hpos⟩
            rw [hc]
            refine List.find?_eq_some_iff_append.mpr ⟨by simp [hv], l₁, l₂, rfl, ?_⟩
            intro b hb
            simp [hl₁ b hb]
          · exact hvpin hpos
        rw [hc] at he
        simp only [List.mem_append, List.mem_cons] at he ⊢
        tauto
  · constructor
    · rintro - hsq
      obtain ⟨end_, standby, timeNs, rfl, -⟩ := hsq.commanded
      exact hf ⟨end_, standby, timeNs, rfl⟩
    · intro _
      refine (retained hs.sorted f).pinned ?_
      rintro end_ standby timeNs rfl
      exact hf ⟨end_, standby, timeNs, rfl⟩

/-! ## Completions, whatever the frame -/

/-- A report completes a set without agreeing it, while more unpinned agreed sets are
    listed than retention keeps. -/
structure Overfull (s : ClusterState) (f : Frame) : Prop where
  completes : ∃ r, f.accepted s = some (.snapshotReport r) ∧ ∃ e ∈ s.catalog,
    e.position = r.position ∧ e.state ≠ .complete ∧ (s.recordIn r e).state = .complete ∧
      (s.recordIn r e).isAgreed = false
  unpinned : s.retainSets < s.unpinned

theorem completeAt_iff {position : ℕ} : s.completeAt position = true ↔
    ∃ e ∈ s.catalog, e.position = position ∧ e.state = .complete := by
  simp [completeAt]

theorem completes_cases (hs : CatalogSorted s.catalog) {f : Frame} {position : ℕ}
    (hbefore : s.completeAt position = false) (hafter : (s.walk f).completeAt position = true) :
    ∃ r, f.accepted s = some (.snapshotReport r) ∧ r.position = position ∧
      ∃ e ∈ s.catalog, e.position = position ∧ e.state ≠ .complete ∧
        (s.recordIn r e).state = .complete := by
  have hno : ∀ e ∈ s.catalog, e.position = position → e.state ≠ .complete := by
    intro e he hpos hstate
    rw [completeAt_iff.mpr ⟨e, he, hpos, hstate⟩] at hbefore
    cases hbefore
  obtain ⟨e, he, hpos, hstate⟩ := completeAt_iff.mp hafter
  have hstaged := (retained hs f).pruned.sublist.subset he
  unfold staged at hstaged
  split at hstaged
  · split at hstaged
    · exact absurd hstate (hno e hstaged hpos)
    · rw [List.mem_insertionSort, List.mem_append, List.mem_singleton] at hstaged
      rcases hstaged with h | rfl
      · exact absurd hstate (hno e h hpos)
      · cases hstate
  · split at hstaged
    · rename_i r hacc
      obtain ⟨e₀, he₀, rfl⟩ := List.mem_map.mp hstaged
      rw [recordIn_position] at hpos
      refine ⟨r, hacc, ?_, e₀, he₀, hpos, hno e₀ he₀ hpos, hstate⟩
      by_contra hne
      have hid : s.recordIn r e₀ = e₀ := by simp [recordIn, hpos, Ne.symm hne]
      exact hno e₀ he₀ hpos (hid ▸ hstate)
    · exact absurd hstate (hno e hstaged hpos)
  · exact absurd hstate (hno e hstaged hpos)

section
variable {s : ClusterState} {f : Frame} {r : SnapshotReport} {e : SetEntry}

theorem walk_report_retainSets (hacc : f.accepted s = some (.snapshotReport r)) :
    (s.walk f).retainSets = s.retainSets := by
  obtain ⟨catalog, reports, h⟩ := putReport_eq { s with applied := f.end_ } r
  rw [walk_report hacc, h]
  rfl

theorem walk_report_unpinned (hs : CatalogSorted s.catalog)
    (hacc : f.accepted s = some (.snapshotReport r)) (he : e ∈ s.catalog)
    (hpos : e.position = r.position) (hstate : e.state ≠ .complete)
    (hnot : (s.recordIn r e).isAgreed = false) : (s.walk f).unpinned = s.unpinned := by
  have hone : ∀ x ∈ s.catalog, x.position = r.position → x = e := fun x hx hxpos =>
    hs.eq_of_position hx he (hxpos.trans hpos.symm)
  rw [walk_report hacc]
  refine unpinned_of_not_agreed (s := { s with applied := f.end_ }) hs ?_ ?_
  · intro x hx hxpos
    rw [hone x hx hxpos]
    exact Bool.eq_false_of_not_eq_true fun h => hstate (state_of_isAgreed h)
  · intro x hx hxpos
    rw [hone x hx hxpos]
    exact hnot

end

theorem completions_iff (hs : CatalogSorted s.catalog) (f : Frame) :
    (∀ position, s.completeAt position = false → (s.walk f).completeAt position = true →
      (s.walk f).unpinned ≤ (s.walk f).retainSets) ↔ ¬ s.Overfull f := by
  constructor
  · rintro hfew ⟨⟨r, hacc, e, he, hpos, hstate, hcomplete, hnot⟩, hover⟩
    have hbefore : s.completeAt r.position = false := by
      refine Bool.eq_false_of_not_eq_true fun h => ?_
      obtain ⟨e', he', hpos', hstate'⟩ := completeAt_iff.mp h
      rw [hs.eq_of_position he' he (hpos'.trans hpos.symm)] at hstate'
      exact hstate hstate'
    have hafter : (s.walk f).completeAt r.position = true := by
      rw [walk_report hacc, completeAt_iff]
      have hmem := mem_putReport_of_not_agreed (s := { s with applied := f.end_ }) hs he hpos hnot
      exact ⟨_, hmem, (recordIn_position s r e).trans hpos, hcomplete⟩
    have hle := hfew r.position hbefore hafter
    rw [(walk_report_unpinned hs hacc he hpos hstate hnot), walk_report_retainSets hacc] at hle
    omega
  · intro hnot position hbefore hafter
    obtain ⟨r, hacc, rfl, e, he, hpos, hstate, hcomplete⟩ := completes_cases hs hbefore hafter
    rw [walk_report_retainSets hacc]
    cases hagreed : (s.recordIn r e).isAgreed with
    | true =>
      obtain ⟨x, hx, hxpos, -⟩ := completeAt_iff.mp hafter
      have hsub := (retained hs f).pruned.sublist.subset hx
      rw [walk_report hacc] at hx ⊢
      have hxe : x = s.recordIn r e := by
        rw [staged_report hacc] at hsub
        refine (sorted_map_recordIn r hs).eq_of_position hsub (List.mem_map_of_mem he) ?_
        rw [hxpos, recordIn_position, hpos]
      refine unpinned_of_completed (s := { s with applied := f.end_ }) hs hbefore hx hxpos ?_
      rw [hxe]
      exact hagreed
    | false =>
      rw [walk_report_unpinned hs hacc he hpos hstate hagreed]
      by_contra hover
      exact hnot ⟨⟨r, hacc, e, he, hpos, hstate, hcomplete, hagreed⟩, Nat.lt_of_not_le hover⟩

/-- What retention promises of one frame.  A set that the frame itself changes is
    judged as retention finds it. -/
structure RetentionUpheld (s : ClusterState) (f : Frame) : Prop where
  sorted : CatalogSorted (s.walk f).catalog
  bounded : (s.walk f).catalog.length ≤ maxCatalogSets
  newest : (s.walk f).catalog.getLast? = (s.staged f).getLast?
  newestAgreed : newestAgreed (s.walk f).catalog = newestAgreed (s.staged f)
  pinned : ∀ e ∈ s.staged f, e.position ∈ (s.stage f).pinnedOrigins → e ∈ (s.walk f).catalog
  completed : ∀ position, s.completeAt position = false → (s.walk f).completeAt position = true →
    (s.walk f).unpinned ≤ (s.walk f).retainSets

theorem retentionUpheld_iff (hs : s.CatalogOk) {f : Frame} (habove : s.Above f) :
    s.RetentionUpheld f ↔ ¬ s.Squeezed f ∧ ¬ s.Overfull f := by
  have hpinned := pinned_kept_iff hs habove
  have hcompleted := completions_iff hs.sorted f
  constructor
  · intro h
    exact ⟨hpinned.mp h.pinned, hcompleted.mp h.completed⟩
  · rintro ⟨hsqueezed, hoverfull⟩
    have hpruned := (retained hs.sorted f).pruned
    have hok := hs.walk f
    exact { hok with
      newest := hpruned.last
      newestAgreed := hpruned.newest
      pinned := hpinned.mpr hsqueezed
      completed := hcompleted.mpr hoverfull }

end ClusterState

/-! ## Whole walks -/

/-- Along the log from genesis, retention keeps its promises at every step exactly when
    no set is commanded at a squeezed list and none is completed without agreement at an
    overfull one. -/
theorem retention_upheld_iff (m : ClusterConfig) (g : Settings) {fs : List Frame}
    (hord : LogOrder fs) :
    (ClusterState.genesis m g).Along ClusterState.RetentionUpheld fs ↔
      (ClusterState.genesis m g).Along (fun s f => ¬ s.Squeezed f ∧ ¬ s.Overfull f) fs := by
  refine ClusterState.along_congr_of_logOrder
    (fun _ _ hs habove => ClusterState.retentionUpheld_iff hs habove)
    (ClusterState.genesis_catalogOk m g) ?_ hord
  intro f _ end_ standby timeNs _ e he
  cases he

/-- Row 0 runs a version and is pinned at the instant 64, for which no report arrives;
    63 more instants are commanded. -/
def pinnedInstant : List Frame :=
  [.cluster 32 (ClusterCommand.rowGenesis ⟨0, 65536⟩).body,
   .snapshot 64 false 0,
   .cluster 96 (ClusterCommand.upgradePin ⟨0, 65536, 65792, 64⟩).body] ++
  (List.range 63).map fun i => .snapshot (128 + 32 * i) false 0

/-- The 65th instant. -/
def oneInstantMore : Frame := .snapshot 2144 false 0

theorem retention_upheld_iff_instants :
    LogOrder (pinnedInstant ++ [oneInstantMore]) ∧
    (singleVoter.state.Along ClusterState.RetentionUpheld (pinnedInstant ++ [oneInstantMore]) ↔
      singleVoter.state.Along (fun s f => ¬ s.Squeezed f ∧ ¬ s.Overfull f)
        (pinnedInstant ++ [oneInstantMore])) := by
  have hord : LogOrder (pinnedInstant ++ [oneInstantMore]) := by decide +kernel
  exact ⟨hord, retention_upheld_iff _ _ hord⟩

/-- The last instant is listed in the place of the pinned one. -/
theorem cap_evicts_pinned_origin :
    LogOrder (pinnedInstant ++ [oneInstantMore]) ∧
    (singleVoter.state.walkAll (pinnedInstant ++ [oneInstantMore])).pinnedOrigins = [64] ∧
    (∃ e ∈ (singleVoter.state.walkAll pinnedInstant).catalog, e.position = 64) ∧
    (∀ e ∈ (singleVoter.state.walkAll (pinnedInstant ++ [oneInstantMore])).catalog,
      e.position ≠ 64) ∧
    ¬ singleVoter.state.Along ClusterState.RetentionUpheld (pinnedInstant ++ [oneInstantMore]) := by
  rw [ClusterState.walkAll_append, ClusterState.walkAll_cons, ClusterState.walkAll_nil]
  obtain ⟨hord, hlisted, hstaged, hpinned, hafter, hgone⟩ :
      LogOrder (pinnedInstant ++ [oneInstantMore]) ∧
      (∃ e ∈ (singleVoter.state.walkAll pinnedInstant).catalog, e.position = 64) ∧
      (∃ e ∈ (singleVoter.state.walkAll pinnedInstant).staged oneInstantMore, e.position = 64) ∧
      64 ∈ ((singleVoter.state.walkAll pinnedInstant).stage oneInstantMore).pinnedOrigins ∧
      ((singleVoter.state.walkAll pinnedInstant).walk oneInstantMore).pinnedOrigins = [64] ∧
      ∀ e ∈ ((singleVoter.state.walkAll pinnedInstant).walk oneInstantMore).catalog,
        e.position ≠ 64 := by decide +kernel
  refine ⟨hord, hafter, hlisted, hgone, ?_⟩
  intro h
  obtain ⟨e, he, hpos⟩ := hstaged
  exact hgone e (h.at.pinned e he (hpos ▸ hpinned)) hpos

end UltimaCluster
