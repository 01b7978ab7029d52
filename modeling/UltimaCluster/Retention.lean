/-
  Retention: what `retire`, `cap_catalog` and the drop of superseded instants
  leave of the catalog.

  Each pass leaves a sublist in which the newest listed entry and the newest
  agreed entry stand as before (`Pruned`).  `retire` and the drop of superseded
  instants also keep every pinned origin; `cap_catalog` keeps those that are
  agreed.
-/
import UltimaCluster.ClusterRun

namespace UltimaCluster

open Evict

/-- Positions strictly increase. -/
def CatalogSorted (catalog : List SetEntry) : Prop :=
  catalog.Pairwise fun a b => a.position < b.position

/-- The newest agreed set, which is the cluster's floor. -/
def newestAgreed (catalog : List SetEntry) : Option SetEntry :=
  catalog.reverse.find? SetEntry.isAgreed

/-- What a pass of retention may leave of `before`. -/
structure Pruned (before after : List SetEntry) : Prop where
  sublist : after.Sublist before
  last : after.getLast? = before.getLast?
  newest : newestAgreed after = newestAgreed before

theorem Pruned.refl (c : List SetEntry) : Pruned c c := ⟨List.Sublist.refl c, rfl, rfl⟩

theorem Pruned.trans {a b c : List SetEntry} (h : Pruned a b) (h' : Pruned b c) : Pruned a c :=
  ⟨h'.sublist.trans h.sublist, h'.last.trans h.last, h'.newest.trans h.newest⟩

variable {c c' : List SetEntry}

theorem CatalogSorted.sublist (h : CatalogSorted c) (hs : c'.Sublist c) : CatalogSorted c' :=
  List.Pairwise.sublist hs h

theorem CatalogSorted.eq_of_position (h : CatalogSorted c) {a b : SetEntry} (ha : a ∈ c)
    (hb : b ∈ c) (hab : a.position = b.position) : a = b := by
  have hinj := List.inj_on_of_nodup_map (f := SetEntry.position) (l := c) ?_
  · exact hinj ha hb hab
  · rw [List.Nodup, List.pairwise_map]
    exact h.imp fun hlt => hlt.ne

variable {l₁ l₂ : List SetEntry}

theorem CatalogSorted.not_mem_of_split {v : SetEntry} (h : CatalogSorted (l₁ ++ v :: l₂)) :
    v ∉ l₁ ++ l₂ := by
  obtain ⟨-, h₂, h₁⟩ := List.pairwise_append.mp h
  intro hv
  rcases List.mem_append.mp hv with hv | hv
  · exact (h₁ v hv v List.mem_cons_self).false
  · exact ((List.pairwise_cons.mp h₂).1 v hv).false

theorem CatalogSorted.le_getLast (h : CatalogSorted c) {e x : SetEntry} (he : e ∈ c)
    (hx : x ∈ c.getLast?) : e.position ≤ x.position := by
  obtain ⟨l, rfl⟩ := List.getLast?_eq_some_iff.mp hx
  rcases List.mem_append.mp he with he | he
  · exact ((List.pairwise_append.mp h).2.2 e he x (List.mem_singleton_self x)).le
  · rw [List.mem_singleton.mp he]

/-! ## One removal -/

theorem pruned_of_agreed_above {v b : SetEntry} (hb : b ∈ l₂) (hagreed : b.isAgreed = true) :
    Pruned (l₁ ++ v :: l₂) (l₁ ++ l₂) where
  sublist := (List.sublist_cons_self v l₂).append_left l₁
  last := by
    have hne : l₂ ≠ [] := List.ne_nil_of_mem hb
    rw [List.getLast?_append, List.getLast?_append, List.getLast?_cons_of_ne_nil hne]
  newest := by
    have hsome : (l₂.reverse.find? SetEntry.isAgreed).isSome = true := by
      rw [List.find?_isSome]
      exact ⟨b, List.mem_reverse.mpr hb, hagreed⟩
    obtain ⟨e, he⟩ := Option.isSome_iff_exists.mp hsome
    simp [newestAgreed, List.find?_append, he]

theorem pruned_of_not_agreed {v : SetEntry} (hl₂ : l₂ ≠ []) (hv : v.isAgreed = false) :
    Pruned (l₁ ++ v :: l₂) (l₁ ++ l₂) where
  sublist := (List.sublist_cons_self v l₂).append_left l₁
  last := by
    rw [List.getLast?_append, List.getLast?_append, List.getLast?_cons_of_ne_nil hl₂]
  newest := by
    simp [newestAgreed, List.find?_append, hv]

theorem pruned_filter {p : SetEntry → Bool} (hagreed : ∀ e ∈ c, e.isAgreed = true → p e = true)
    (hlast : ∀ e ∈ c.getLast?, p e = true) : Pruned c (c.filter p) where
  sublist := List.filter_sublist
  last := by
    cases hc : c.getLast? with
    | none =>
      rw [List.getLast?_eq_none_iff.mp hc]
      rfl
    | some x =>
      obtain ⟨l, rfl⟩ := List.getLast?_eq_some_iff.mp hc
      simp [List.filter_append, hlast x hc]
  newest := by
    rw [newestAgreed, newestAgreed, ← List.filter_reverse]
    exact List.find?_filter_of_imp fun e he => hagreed e (List.mem_reverse.mp he)

/-! ## The loop of `retire` -/

/-- Agreed and not pinned. -/
def unpinnedAgreed (pinned : List ℕ) (e : SetEntry) : Bool :=
  e.isAgreed && !pinned.contains e.position

variable {pinned : List ℕ}

/-- A round removes an unpinned agreed entry that has an agreed one above it. -/
theorem retireStep_eq_some {retain : ℕ} (h : retireStep pinned retain c = some c') :
    ∃ l₁ v l₂, c = l₁ ++ v :: l₂ ∧ c' = l₁ ++ l₂ ∧ v.position ∉ pinned ∧
      ∃ b ∈ l₂, b.isAgreed = true := by
  simp only [retireStep] at h
  split at h
  · cases h
  obtain ⟨i, hi, rfl⟩ := Option.map_eq_some_iff.mp h
  obtain ⟨v, hv, hunpinned⟩ := mem_indices.mp (List.mem_of_find?_eq_some hi)
  have hne := List.find?_some hi
  obtain ⟨l₁, l₂, rfl, rfl⟩ := getElem?_split hv
  obtain ⟨hagreed, hpin⟩ := Bool.and_eq_true_iff.mp hunpinned
  have hne' : rposition SetEntry.isAgreed (l₁ ++ v :: l₂) ≠ some l₁.length := by
    intro heq
    rw [heq] at hne
    simp at hne
  exact ⟨l₁, v, l₂, rfl, eraseIdx_append_cons l₁ l₂ v, by simpa using hpin,
    exists_of_rposition_ne hagreed hne'⟩

/-- The loop stops with no more unpinned agreed entries than are to be retained. -/
theorem retireStep_eq_none {retain : ℕ} (hretain : 1 ≤ retain)
    (h : retireStep pinned retain c = none) : c.countP (unpinnedAgreed pinned) ≤ retain := by
  simp only [retireStep] at h
  split at h
  · rename_i hle
    rw [← length_indices]
    exact hle
  · -- every index is the one of the newest agreed set
    rw [Option.map_eq_none_iff, List.find?_eq_none] at h
    have hone : c.countP (unpinnedAgreed pinned) ≤ 1 := by
      refine countP_le_one (k := rposition SetEntry.isAgreed c) ?_
      intro i hi
      simpa using h i hi
    omega

theorem retireStep_length {retain : ℕ} (c c' : List SetEntry)
    (h : retireStep pinned retain c = some c') : c'.length < c.length := by
  obtain ⟨l₁, v, l₂, rfl, rfl, -⟩ := retireStep_eq_some h
  simp

theorem pruned_retireLoop (pinned : List ℕ) (retain fuel : ℕ) (c : List SetEntry) :
    Pruned c (retireLoop pinned retain fuel c) := by
  refine loop_keeps (P := Pruned c) ?_ fuel (.refl c)
  intro l l' hl hstep
  obtain ⟨l₁, v, l₂, rfl, rfl, -, b, hb, hagreed⟩ := retireStep_eq_some hstep
  exact hl.trans (pruned_of_agreed_above hb hagreed)

variable {e : SetEntry}

theorem mem_retireLoop {retain fuel : ℕ} (he : e ∈ c) (hpin : e.position ∈ pinned) :
    e ∈ retireLoop pinned retain fuel c := by
  refine loop_keeps (P := (e ∈ ·)) ?_ fuel he
  intro l l' hl hstep
  obtain ⟨l₁, v, l₂, rfl, rfl, hv, -⟩ := retireStep_eq_some hstep
  have hne : e ≠ v := fun heq => hv (heq ▸ hpin)
  simpa [hne] using hl

/-! ## The drop below the oldest agreed set -/

theorem pruned_dropBelowFloor (hc : CatalogSorted c) : Pruned c (dropBelowFloor pinned c) := by
  unfold dropBelowFloor
  split
  · rename_i floor hfloor
    obtain ⟨hagreed, l₁, l₂, rfl, hl₁⟩ := List.find?_eq_some_iff_append.mp hfloor
    have hge : ∀ e ∈ l₁ ++ floor :: l₂, e.isAgreed = true → floor.position ≤ e.position := by
      intro e he hea
      rcases List.mem_append.mp he with he | he
      · have := hl₁ e he
        simp [hea] at this
      · rcases List.mem_cons.mp he with rfl | he
        · exact le_rfl
        · exact ((List.pairwise_cons.mp (List.pairwise_append.mp hc).2.1).1 e he).le
    refine pruned_filter ?_ ?_
    · intro e he hea
      simp [hge e he hea]
    · intro x hx
      have hle := hc.le_getLast (e := floor) (by simp) hx
      simp [hle]
  · exact .refl c

theorem mem_dropBelowFloor (he : e ∈ c) (hpin : e.position ∈ pinned) :
    e ∈ dropBelowFloor pinned c := by
  unfold dropBelowFloor
  split
  · exact List.mem_filter.mpr ⟨he, by simp [hpin]⟩
  · exact he

/-! ## The cap -/

/-- A round removes, from a list that is too long, the oldest entry that is not
    agreed, or, where all but the newest are agreed, an unpinned one below an agreed. -/
theorem capStep_eq_some (h : capStep pinned c = some c') :
    ∃ l₁ v l₂, c = l₁ ++ v :: l₂ ∧ c' = l₁ ++ l₂ ∧ l₂ ≠ [] ∧ maxCatalogSets < c.length ∧
      ((v.isAgreed = false ∧ ∀ b ∈ l₁, b.isAgreed = true) ∨
        (v.position ∉ pinned ∧ (∀ b ∈ c.take (c.length - 1), b.isAgreed = true) ∧
          ∃ b ∈ l₂, b.isAgreed = true)) := by
  unfold capStep at h
  split at h
  · cases h
  rename_i hlen
  obtain ⟨i, hi, rfl⟩ := Option.map_eq_some_iff.mp h
  have hlong : maxCatalogSets < c.length := Nat.lt_of_not_le hlen
  have hsplit : ∀ l₁ v l₂, c = l₁ ++ v :: l₂ → l₁.length < c.length - 1 → l₂ ≠ [] := by
    rintro l₁ v l₂ rfl hlt rfl
    simp at hlt
  rcases Option.or_eq_some_iff.mp hi with hi | ⟨hnone, hi⟩
  · obtain ⟨l₁, v, r, heq, hv, hl₁, rfl⟩ := List.findIdx?_split hi
    have hlt : l₁.length < c.length - 1 := by
      have := congrArg List.length heq
      simp only [List.length_take, List.length_append, List.length_cons] at this
      omega
    have hc : c = l₁ ++ v :: (r ++ c.drop (c.length - 1)) := by
      rw [← List.cons_append, ← List.append_assoc, ← heq, List.take_append_drop]
    refine ⟨l₁, v, _, hc, ?_, hsplit _ _ _ hc hlt, hlong, .inl ⟨by simpa using hv, ?_⟩⟩
    · conv_lhs => rw [hc]
      exact eraseIdx_append_cons l₁ _ v
    · intro b hb
      simpa using hl₁ b hb
  · have hmem := List.mem_range.mp (List.mem_of_find?_eq_some hi)
    have hfound := List.find?_some hi
    rw [Bool.and_eq_true_iff, Option.any_eq_true] at hfound
    obtain ⟨hne, v, hv, hpin⟩ := hfound
    obtain ⟨l₁, l₂, rfl, rfl⟩ := getElem?_split hv
    have hall : ∀ b ∈ (l₁ ++ v :: l₂).take ((l₁ ++ v :: l₂).length - 1), b.isAgreed = true := by
      intro b hb
      simpa using List.findIdx?_eq_none_iff.mp hnone b hb
    have hagreed : v.isAgreed = true := by
      refine hall v ?_
      rw [List.mem_take_iff_getElem]
      exact ⟨l₁.length, by omega, by simp⟩
    have hne' : rposition SetEntry.isAgreed (l₁ ++ v :: l₂) ≠ some l₁.length := by
      intro heq
      rw [heq] at hne
      simp at hne
    exact ⟨l₁, v, l₂, rfl, eraseIdx_append_cons l₁ l₂ v, hsplit l₁ v l₂ rfl hmem, hlong,
      .inr ⟨by simpa using hpin, hall, exists_of_rposition_ne hagreed hne'⟩⟩

theorem capStep_length (c c' : List SetEntry) (h : capStep pinned c = some c') :
    c'.length < c.length := by
  obtain ⟨l₁, v, l₂, rfl, rfl, -⟩ := capStep_eq_some h
  simp

theorem pruned_capLoop (pinned : List ℕ) (fuel : ℕ) (c : List SetEntry) :
    Pruned c (capLoop pinned fuel c) := by
  refine loop_keeps (P := Pruned c) ?_ fuel (.refl c)
  intro l l' hl hstep
  obtain ⟨l₁, v, l₂, rfl, rfl, hl₂, -, ⟨hv, -⟩ | ⟨-, -, b, hb, hagreed⟩⟩ := capStep_eq_some hstep
  · exact hl.trans (pruned_of_not_agreed hl₂ hv)
  · exact hl.trans (pruned_of_agreed_above hb hagreed)

theorem mem_capLoop {fuel : ℕ} (he : e ∈ c) (hagreed : e.isAgreed = true)
    (hpin : e.position ∈ pinned) : e ∈ capLoop pinned fuel c := by
  refine loop_keeps (P := (e ∈ ·)) ?_ fuel he
  intro l l' hl hstep
  obtain ⟨l₁, v, l₂, rfl, rfl, -, -, hcase⟩ := capStep_eq_some hstep
  have hne : e ≠ v := by
    rintro rfl
    rcases hcase with ⟨hv, -⟩ | ⟨hv, -⟩
    · rw [hagreed] at hv
      cases hv
    · exact hv hpin
  simpa [hne] using hl

/-- The cap does not stop before the list is short enough: only pinned origins,
    the newest agreed set and the newest entry are kept from it. -/
theorem capStep_eq_none (hc : CatalogSorted c) (hpinned : pinned.length ≤ cncMaxServices)
    (h : capStep pinned c = none) : c.length ≤ maxCatalogSets := by
  unfold capStep at h
  split at h
  · assumption
  rw [Option.map_eq_none_iff, Option.or_eq_none_iff] at h
  -- below the newest entry, all but one are pinned
  have hone : (c.take (c.length - 1)).countP (fun e => !pinned.contains e.position) ≤ 1 := by
    refine countP_le_one (k := rposition SetEntry.isAgreed c) ?_
    intro i hi
    obtain ⟨e, he, hpin⟩ := mem_indices.mp hi
    obtain ⟨hilt, -⟩ := List.getElem?_eq_some_iff.mp he
    rw [List.length_take] at hilt
    have hic : (c : List SetEntry)[i]? = some e := by
      rw [← he, List.getElem?_take_of_lt (by omega)]
    have hnone := List.find?_eq_none.mp h.2 i (List.mem_range.mpr (by omega))
    by_contra hne
    refine hnone ?_
    rw [hic, Option.any_some, hpin, Bool.and_true]
    simpa using hne
  have hpin : ((c.take (c.length - 1)).filter fun e => pinned.contains e.position).length ≤
      pinned.length := by
    have hsorted : CatalogSorted
        ((c.take (c.length - 1)).filter fun e => pinned.contains e.position) :=
      hc.sublist (List.filter_sublist.trans (List.take_sublist (c.length - 1) c))
    have hnodup : (((c.take (c.length - 1)).filter fun e => pinned.contains e.position).map
        SetEntry.position).Nodup := by
      rw [List.Nodup, List.pairwise_map]
      exact hsorted.imp fun hlt => hlt.ne
    have hsub : ((c.take (c.length - 1)).filter fun e => pinned.contains e.position).map
        SetEntry.position ⊆ pinned := by
      intro p hp
      obtain ⟨e, he, rfl⟩ := List.mem_map.mp hp
      simpa using (List.mem_filter.mp he).2
    simpa using (List.subperm_of_subset hnodup hsub).length_le
  have hsum := List.length_eq_countP_add_countP (fun e : SetEntry => pinned.contains e.position)
    (l := c.take (c.length - 1))
  rw [List.countP_eq_length_filter, List.length_take] at hsum
  have h8 : cncMaxServices = 8 := rfl
  have h64 : maxCatalogSets = 64 := rfl
  simp only [decide_not, Bool.decide_eq_true] at hsum
  omega

/-! ## The passes on the state -/

theorem SetEntry.state_of_isAgreed (h : e.isAgreed = true) : e.state = .complete := by
  simp only [SetEntry.isAgreed, Bool.and_eq_true, beq_iff_eq] at h
  exact h.1.1

namespace ClusterState

theorem length_pinnedOrigins (s : ClusterState) : s.pinnedOrigins.length ≤ cncMaxServices := by
  refine (List.length_filterMap_le _ _).trans ?_
  rw [List.length_finRange]

variable {position : ℕ} {s : ClusterState}

theorem mem_pinnedOrigins :
    position ∈ s.pinnedOrigins ↔ ∃ row gate, pinGate s.pins s.running row = some gate ∧
      pinComplete s.catalog row gate = false ∧ gate.origin = position := by
  simp only [pinnedOrigins, List.mem_filterMap, List.mem_finRange, true_and]
  constructor
  · rintro ⟨row, h⟩
    split at h
    · rename_i gate hgate
      split at h
      · cases h
      · rename_i hcomplete
        exact ⟨row, gate, hgate, Bool.eq_false_of_not_eq_true hcomplete, Option.some.inj h⟩
    · cases h
  · rintro ⟨row, gate, hgate, hcomplete, horigin⟩
    exact ⟨row, by simp [hgate, hcomplete, horigin]⟩

variable {catalog : List SetEntry}

theorem pinnedOrigins_of_subset (h : catalog ⊆ s.catalog) (hp : position ∈ s.pinnedOrigins) :
    position ∈ { s with catalog }.pinnedOrigins := by
  obtain ⟨row, gate, hgate, hcomplete, horigin⟩ := mem_pinnedOrigins.mp hp
  refine mem_pinnedOrigins.mpr ⟨row, gate, hgate, ?_, horigin⟩
  simp only [pinComplete, List.any_eq_false] at hcomplete ⊢
  exact fun e he => hcomplete e (h he)

theorem pruned_retire (hs : CatalogSorted s.catalog) : Pruned s.catalog s.retire.catalog := by
  have hloop := pruned_retireLoop s.pinnedOrigins s.retainSets s.catalog.length s.catalog
  exact hloop.trans (pruned_dropBelowFloor (hs.sublist hloop.sublist))

theorem mem_retire {e : SetEntry} (he : e ∈ s.catalog) (hpin : e.position ∈ s.pinnedOrigins) :
    e ∈ s.retire.catalog :=
  mem_dropBelowFloor (mem_retireLoop he hpin) hpin

/-- The number of agreed sets that are not pinned. -/
def unpinned (s : ClusterState) : ℕ := s.catalog.countP (unpinnedAgreed s.pinnedOrigins)

theorem unpinned_le_countP (h : catalog ⊆ s.catalog) :
    unpinned { s with catalog } ≤ catalog.countP (unpinnedAgreed s.pinnedOrigins) := by
  refine List.countP_mono_left ?_
  intro e _ he
  simp only [unpinnedAgreed, Bool.and_eq_true, Bool.not_eq_true', List.contains_eq_mem,
    decide_eq_false_iff_not] at he ⊢
  exact ⟨he.1, fun hpin => he.2 (pinnedOrigins_of_subset h hpin)⟩

theorem unpinned_le_of_sublist (h : catalog.Sublist s.catalog) :
    unpinned { s with catalog } ≤ s.unpinned :=
  (unpinned_le_countP h.subset).trans (h.countP_le (p := unpinnedAgreed s.pinnedOrigins))

/-- After `retire` no more unpinned agreed sets are left than are to be retained. -/
theorem unpinned_retire (hs : CatalogSorted s.catalog) : s.retire.unpinned ≤ s.retainSets := by
  have hloop := pruned_retireLoop s.pinnedOrigins s.retainSets s.catalog.length s.catalog
  have hdrop : Pruned (retireLoop s.pinnedOrigins s.retainSets s.catalog.length s.catalog)
      s.retire.catalog := pruned_dropBelowFloor (hs.sublist hloop.sublist)
  have hstop : retireStep s.pinnedOrigins s.retainSets
      (retireLoop s.pinnedOrigins s.retainSets s.catalog.length s.catalog) = none :=
    loop_stops retireStep_length le_rfl
  calc s.retire.unpinned
      ≤ s.retire.catalog.countP (unpinnedAgreed s.pinnedOrigins) :=
        unpinned_le_countP (pruned_retire hs).sublist.subset
    _ ≤ (retireLoop s.pinnedOrigins s.retainSets s.catalog.length s.catalog).countP
          (unpinnedAgreed s.pinnedOrigins) := hdrop.sublist.countP_le
    _ ≤ s.retainSets := retireStep_eq_none (le_max_right _ _) hstop

theorem pruned_capCatalog (s : ClusterState) : Pruned s.catalog s.capCatalog.catalog :=
  pruned_capLoop s.pinnedOrigins s.catalog.length s.catalog

theorem capCatalog_length (hs : CatalogSorted s.catalog) :
    s.capCatalog.catalog.length ≤ maxCatalogSets := by
  refine capStep_eq_none (hs.sublist s.pruned_capCatalog.sublist) s.length_pinnedOrigins ?_
  exact loop_stops capStep_length le_rfl

theorem mem_capCatalog {e : SetEntry} (he : e ∈ s.catalog) (hagreed : e.isAgreed = true)
    (hpin : e.position ∈ s.pinnedOrigins) : e ∈ s.capCatalog.catalog :=
  mem_capLoop he hagreed hpin

theorem pruned_dropCommandedBelow (hs : CatalogSorted s.catalog)
    (hlisted : ∃ e ∈ s.catalog, e.position = position) :
    Pruned s.catalog (s.dropCommandedBelow position).catalog := by
  obtain ⟨e₀, he₀, hpos⟩ := hlisted
  refine pruned_filter ?_ ?_
  · intro e _ hagreed
    simp [SetEntry.state_of_isAgreed hagreed]
  · intro x hx
    have hle := hs.le_getLast he₀ hx
    rw [hpos] at hle
    simp [hle]

theorem mem_dropCommandedBelow {e : SetEntry} (he : e ∈ s.catalog)
    (hpin : e.position ∈ s.pinnedOrigins) : e ∈ (s.dropCommandedBelow position).catalog :=
  List.mem_filter.mpr ⟨he, by simp [hpin]⟩

end ClusterState

end UltimaCluster
