/-
  Commit quorums against election majorities across one membership change.

  The tracker of a leader that is not a voter of its own config (the
  self-removal window) counts the leader's durable on top of the voters'
  reports, so with an even number of voters it ranks on half of them.  That is
  enough against every majority of a neighbouring config in which the leader
  itself is a voter, and not in general.
-/
import UltimaCluster.Lib.Quorum
import UltimaCluster.Ranking

namespace UltimaCluster

namespace ClusterConfig

/-- A genesis: some voter, no id twice, within the member cap. -/
structure ValidGenesis (c : ClusterConfig) : Prop where
  version : c.version = 0
  tombstones : c.tombstones = []
  voters : c.voters ≠ []
  nodup : (c.voterIds ++ c.learnerIds).Nodup
  cap : c.voters.length + c.learners.length ≤ maxMembers

/-- The configs that `apply` reaches from a valid genesis. -/
inductive Reachable : ClusterConfig → Prop
  | genesis {c} : ValidGenesis c → Reachable c
  | apply {c c'} (op : ConfigOp) : Reachable c → c.apply op = .ok c' → Reachable c'

/-! ## The voters of neighbouring configs -/

theorem map_fst_eraseP (l : List (NodeId × Addr)) (id : NodeId) :
    (l.eraseP fun e => e.1 == id).map Prod.fst = (l.map Prod.fst).erase id := by
  induction l with
  | nil => rfl
  | cons e l ih =>
    by_cases h : e.1 = id
    · simp [h]
    · rw [List.eraseP_cons_of_neg (by simpa using h), List.map_cons, List.map_cons,
        List.erase_cons_tail (by simpa using h), ih]

theorem mem_of_find? {l : List (NodeId × Addr)} {id : NodeId} {e : NodeId × Addr}
    (h : (l.find? fun e => e.1 == id) = some e) : id ∈ l.map Prod.fst := by
  have hmem := List.mem_of_find?_eq_some h
  have heq : e.1 = id := by simpa using List.find?_some h
  exact List.mem_map.mpr ⟨e, hmem, heq⟩

/-- The ids of a config, and that every operation keeps them apart. -/
def Distinct (c : ClusterConfig) : Prop := (c.voterIds ++ c.learnerIds).Nodup

variable {c c' : ClusterConfig}

theorem Distinct.voters (h : c.Distinct) : c.voterIds.Nodup :=
  (List.nodup_append.mp h).1

theorem adjacent_append (ids : List NodeId) (id : NodeId) :
    Quorum.Adjacent ids.toFinset (ids ++ [id]).toFinset := by
  have hinsert : (ids ++ [id]).toFinset = insert id ids.toFinset := by
    ext v
    simp
  by_cases hid : id ∈ ids.toFinset
  · exact .same (by rw [hinsert, Finset.insert_eq_of_mem hid])
  · exact .grow id hid hinsert

theorem adjacent_erase {ids : List NodeId} {id : NodeId} (h : id ∈ ids) :
    Quorum.Adjacent ids.toFinset (ids.erase id).toFinset := by
  have hinsert : ids.toFinset = insert id (ids.erase id).toFinset := by
    rw [← List.toFinset_cons, List.toFinset_eq_of_perm _ _ (List.perm_cons_erase h)]
  by_cases hid : id ∈ (ids.erase id).toFinset
  · exact .same (by rw [hinsert, Finset.insert_eq_of_mem hid])
  · exact .shrink id hid hinsert

/-- Whatever the config, one operation moves at most one voter. -/
theorem apply_adjacent {op : ConfigOp} (h : c.apply op = .ok c') :
    Quorum.Adjacent c.voterIds.toFinset c'.voterIds.toFinset := by
  have herase : ∀ {id e}, (c.voters.find? fun e => e.1 == id) = some e → Quorum.Adjacent
      c.voterIds.toFinset ((c.voters.eraseP fun e => e.1 == id).map Prod.fst).toFinset := by
    intro id e hfind
    rw [map_fst_eraseP]
    exact adjacent_erase (mem_of_find? hfind)
  cases apply_applied h with
  | addLearner _ _ _ => exact .same rfl
  | @promoteLearner id e _ _ =>
    have happend := adjacent_append c.voterIds id
    simpa [voterIds] using happend
  | demoteVoter _ hfind _ => exact herase hfind
  | removeLearner _ _ => exact .same rfl
  | removeVoter _ hfind _ => exact herase hfind

theorem contains_iff (c : ClusterConfig) (id : NodeId) :
    c.contains id ↔ id ∈ c.voterIds ++ c.learnerIds := by
  simp [contains, isVoter, isLearner, voterIds, learnerIds]

theorem not_mem_of_contains_false {id : NodeId} (h : c.contains id = false) :
    id ∉ c.voterIds ++ c.learnerIds := by
  intro hid
  rw [← contains_iff, h] at hid
  exact Bool.false_ne_true hid

/-- An accepted operation moves, adds or drops the id it targets. -/
inductive IdStep (c : ClusterConfig) (id : NodeId) (c' : ClusterConfig) : Prop
  | add : id ∉ c.voterIds ++ c.learnerIds → id ∉ c.tombstones →
      (c'.voterIds ++ c'.learnerIds).Perm (id :: (c.voterIds ++ c.learnerIds)) →
      c'.tombstones = c.tombstones → IdStep c id c'
  | move : (c'.voterIds ++ c'.learnerIds).Perm (c.voterIds ++ c.learnerIds) →
      c'.tombstones = c.tombstones → IdStep c id c'
  | drop : (c.voterIds ++ c.learnerIds).Perm (id :: (c'.voterIds ++ c'.learnerIds)) →
      c'.tombstones = c.tombstones ++ [id] → IdStep c id c'

theorem apply_idStep {op : ConfigOp} (h : c.apply op = .ok c') : IdStep c op.opId c' := by
  cases apply_applied h with
  | @addLearner id addr ht hc _ =>
    refine .add (not_mem_of_contains_false hc) ht ?_ rfl
    simp only [voterIds, learnerIds, List.map_append, List.map_cons, List.map_nil,
      ← List.append_assoc]
    exact List.perm_append_singleton _ _
  | @promoteLearner id e _ hfind =>
    refine .move ?_ rfl
    simp only [voterIds, learnerIds, map_fst_eraseP, List.map_append, List.map_cons, List.map_nil,
      List.append_assoc]
    exact (List.perm_cons_erase (mem_of_find? hfind)).symm.append_left _
  | @demoteVoter id e _ hfind _ =>
    refine .move ?_ rfl
    simp only [voterIds, learnerIds, map_fst_eraseP, List.map_append, List.map_cons, List.map_nil,
      ← List.append_assoc]
    refine (List.perm_append_singleton _ _).trans ?_
    exact (List.perm_cons_erase (mem_of_find? hfind)).symm.append_right _
  | @removeLearner id e _ hfind =>
    refine .drop ?_ rfl
    simp only [voterIds, learnerIds, map_fst_eraseP]
    exact ((List.perm_cons_erase (mem_of_find? hfind)).append_left _).trans List.perm_middle
  | @removeVoter id e _ hfind _ =>
    refine .drop ?_ rfl
    simp only [voterIds, learnerIds, map_fst_eraseP]
    exact (List.perm_cons_erase (mem_of_find? hfind)).append_right _

theorem apply_distinct {op : ConfigOp} (hd : c.Distinct) (h : c.apply op = .ok c') :
    c'.Distinct := by
  cases apply_idStep h with
  | add hid _ hperm _ => exact hperm.nodup_iff.mpr (List.nodup_cons.mpr ⟨hid, hd⟩)
  | move hperm _ => exact hperm.nodup_iff.mpr hd
  | drop hperm _ => exact (List.nodup_cons.mp (hperm.nodup_iff.mp hd)).2

theorem Reachable.distinct (h : Reachable c) : c.Distinct := by
  induction h with
  | genesis hg => exact hg.nodup
  | apply op _ happ ih => exact apply_distinct ih happ

end ClusterConfig

namespace ElectionSm

/-! ## Who stands behind a ranking -/

/-- The carried reports after a sequence of accepted reports. -/
def received (reports : List (NodeId × ℕ)) : List (NodeId × ℕ) :=
  reports.foldl (fun l r => upsertReport r.1 r.2 l) []

theorem received_keys (reports : List (NodeId × ℕ)) : ((received reports).map Prod.fst).Nodup := by
  unfold received
  induction reports using List.reverseRecOn with
  | nil => exact List.nodup_nil
  | append_singleton reports r ih =>
    rw [List.foldl_append]
    exact keys_upsert_nodup r.1 r.2 ih

/-- The node `s` evaluates `config` with the reports it has received. -/
def evaluating (config : ClusterConfig) (reports : List (NodeId × ℕ)) (s : ElectionSm) :
    ElectionSm :=
  rebuildMembership true { s with config, lastReports := received reports }

/-- `v` holds `p` durable, as the evaluating node counts it. -/
def Holds (s : ElectionSm) (p : ℕ) (v : NodeId) : Prop :=
  (v = s.id ∧ p ≤ s.durable) ∨ (v ∈ s.members ∧ v ≠ s.id ∧ p ≤ (s.lastReport v).getD 0)

/-- The voters other than the node itself that hold `p`. -/
def reporters (s : ElectionSm) (p : ℕ) : Finset NodeId :=
  ((s.members.filter (· ≠ s.id)).filter fun v => p ≤ reportOf s.lastReports v).toFinset

variable {s s' : ElectionSm}

theorem holds_of_mem_reporters {p : ℕ} {v : NodeId} (h : v ∈ s.reporters p) : s.Holds p v := by
  simp only [reporters, List.mem_toFinset, List.mem_filter, decide_eq_true_eq] at h
  exact .inr ⟨h.1.1, h.1.2, h.2⟩

theorem followers_eq (h : s.config.voterIds.Nodup) :
    s.followers = (s.config.voterIds.filter (· ≠ s.id)).length := by
  unfold followers
  split
  · rename_i hv
    have hmem := (ClusterConfig.isVoter_iff _ _).mp hv
    have hfilter : s.config.voterIds.filter (· ≠ s.id) = s.config.voterIds.erase s.id := by
      rw [h.erase_eq_filter]
      refine List.filter_congr ?_
      intro x _
      by_cases hx : x = s.id <;> simp [hx]
    rw [hfilter, List.length_erase_of_mem hmem]
  · rename_i hv
    have hnot : s.id ∉ s.config.voterIds := fun hm => hv ((ClusterConfig.isVoter_iff _ _).mpr hm)
    have hfilter : s.config.voterIds.filter (· ≠ s.id) = s.config.voterIds := by
      rw [List.filter_eq_self]
      intro x hx
      simp only [ne_eq, decide_not, Bool.not_eq_true', decide_eq_false_iff_not]
      rintro rfl
      exact hnot hx
    rw [hfilter]

theorem Rebuilt.reported_eq (hr : Rebuilt s s') (h : s.config.voterIds.Nodup) :
    s'.tracker.reported = (s'.members.filter (· ≠ s'.id)).map (reportOf s'.lastReports) := by
  obtain ⟨tr, heq⟩ := hr.frame
  have hmembers : s'.members.filter (· ≠ s'.id) = s.config.voterIds.filter (· ≠ s.id) := by
    rw [heq]
  have hnodup : (s'.members.filter (· ≠ s'.id)).Nodup := by
    rw [hmembers]
    exact h.filter _
  refine List.ext_getElem? ?_
  intro i
  by_cases hi : i < (s'.members.filter (· ≠ s'.id)).length
  · have hslot : s'.followerSlot (s'.members.filter (· ≠ s'.id))[i] = some i := by
      unfold followerSlot
      rw [List.findIdx?_eq_some_iff_getElem]
      refine ⟨hi, by simp, ?_⟩
      intro j hj
      simp only [decide_eq_true_eq]
      intro hji
      exact absurd ((List.Nodup.getElem_inj_iff hnodup).mp hji) hj.ne
    rw [hr.reports _ _ hslot, List.getElem?_map, List.getElem?_eq_getElem hi]
    rfl
  · have hlen : s'.tracker.reported.length = (s'.members.filter (· ≠ s'.id)).length := by
      rw [hr.slots, followers_eq h, hmembers]
    rw [List.getElem?_eq_none (by omega), List.getElem?_eq_none (by rw [List.length_map]; omega)]

theorem Rebuilt.countP_reported (hr : Rebuilt s s') (h : s.config.voterIds.Nodup) (p : ℕ) :
    s'.tracker.reported.countP (p ≤ ·) = (s'.reporters p).card := by
  obtain ⟨tr, heq⟩ := hr.frame
  have hnodup : (s'.members.filter (· ≠ s'.id)).Nodup := by
    rw [heq]
    exact h.filter _
  rw [hr.reported_eq h, List.countP_map, List.countP_eq_length_filter, reporters,
    List.toFinset_card_of_nodup (hnodup.filter _)]
  rfl

theorem evaluating_ranks {config : ClusterConfig} (hd : config.Distinct)
    (reports : List (NodeId × ℕ)) (s : ElectionSm) {p : ℕ} (hp : 0 < p)
    (h : p ≤ (s.evaluating config reports).tracker.ranked s.durable) :
    p ≤ s.durable ∧
      ((if s.id ∈ config.voterIds then config.voterIds.length - 1 else config.voterIds.length) + 1)
        / 2 ≤ ((s.evaluating config reports).reporters p).card := by
  have hr : Rebuilt { s with config, lastReports := received reports }
      (s.evaluating config reports) :=
    rebuildMembership_rebuilt true (received_keys reports) (.inl rfl)
  have hq := hr.quorum
  rw [CommitTracker.le_ranked_iff _ hp (by omega), hr.countP_reported hd.voters, hq] at h
  refine ⟨h.1, ?_⟩
  have hf : ({ s with config, lastReports := received reports } : ElectionSm).followers =
      if s.id ∈ config.voterIds then config.voterIds.length - 1 else config.voterIds.length := by
    simp only [followers, ClusterConfig.isVoter_iff]
  rw [hf] at h
  omega

/-! ## The intersection -/

open ClusterConfig in
/-- **A commit quorum meets every election majority of the two configs of a
    membership change in a voter that holds the position**, whenever the
    evaluating node is a voter of one of the two, or the change leaves the
    voters as they are, or the evaluated config has an odd number of voters. -/
theorem rank_meets_majority {c c' : ClusterConfig} {op : ConfigOp} (hc : Reachable c)
    (happ : c.apply op = .ok c') {config config' : ClusterConfig}
    (hx : config = c ∨ config = c') (hy : config' = c ∨ config' = c')
    (s : ElectionSm) (reports : List (NodeId × ℕ)) {p : ℕ} (hp : 0 < p)
    (hrank : p ≤ (s.evaluating config reports).tracker.ranked s.durable)
    (hnode : c.isVoter s.id ∨ c'.isVoter s.id ∨ c'.voterIds = c.voterIds ∨
      Odd config.voterIds.length)
    (elector : ElectionSm) (hmem : elector.members = config'.voterIds) {votes : Finset NodeId}
    (hvotes : ∀ v ∈ votes, v ∈ config'.voterIds) (hmaj : elector.majority ≤ votes.card) :
    ∃ v ∈ votes, (s.evaluating config reports).Holds p v := by
  have hd := hc.distinct
  have hd' := apply_distinct hd happ
  have hadj : Quorum.Adjacent c.voterIds.toFinset c'.voterIds.toFinset :=
    apply_adjacent happ
  have hdx : config.Distinct := by
    rcases hx with rfl | rfl <;> assumption
  have hdy : config'.Distinct := by
    rcases hy with rfl | rfl <;> assumption
  have hadjxy : Quorum.Adjacent config.voterIds.toFinset config'.voterIds.toFinset := by
    rcases hx with rfl | rfl <;> rcases hy with rfl | rfl
    · exact .same rfl
    · exact hadj
    · exact hadj.symm
    · exact .same rfl
  have hcard : config.voterIds.toFinset.card = config.voterIds.length :=
    List.toFinset_card_of_nodup hdx.voters
  have hcard' : config'.voterIds.toFinset.card = config'.voterIds.length :=
    List.toFinset_card_of_nodup hdy.voters
  obtain ⟨hdur, hcount⟩ := evaluating_ranks hdx reports s hp hrank
  have herase : (config.voterIds.toFinset.erase s.id).card =
      if s.id ∈ config.voterIds then config.voterIds.length - 1 else config.voterIds.length := by
    simp only [Finset.card_erase_eq_ite, List.mem_toFinset, hcard]
  -- who may be counted on top of the reporters
  have he : s.id ∈ config.voterIds.toFinset ∨ s.id ∈ config'.voterIds.toFinset ∨
      config.voterIds.toFinset = config'.voterIds.toFinset ∨
      Odd config.voterIds.toFinset.card := by
    simp only [List.mem_toFinset, hcard, ← ClusterConfig.isVoter_iff]
    rcases hx with rfl | rfl <;> rcases hy with rfl | rfl
    · exact .inr (.inr (.inl rfl))
    · rcases hnode with h | h | h | h
      · exact .inl h
      · exact .inr (.inl h)
      · exact .inr (.inr (.inl (by rw [h])))
      · exact .inr (.inr (.inr h))
    · rcases hnode with h | h | h | h
      · exact .inr (.inl h)
      · exact .inl h
      · exact .inr (.inr (.inl (by rw [h])))
      · exact .inr (.inr (.inr h))
    · exact .inr (.inr (.inl rfl))
  have hsub : (s.evaluating config reports).reporters p ⊆ config.voterIds.toFinset.erase s.id := by
    intro v hv
    simp only [reporters, List.mem_toFinset, List.mem_filter, decide_eq_true_eq] at hv
    exact Finset.mem_erase.mpr ⟨hv.1.2, List.mem_toFinset.mpr hv.1.1⟩
  have hvotes' : votes ⊆ config'.voterIds.toFinset := fun v hv => List.mem_toFinset.mpr (hvotes v hv)
  have hmaj' : config'.voterIds.toFinset.card / 2 < votes.card := by
    rw [hcard']
    unfold majority at hmaj
    rw [hmem] at hmaj
    omega
  obtain ⟨v, hv, hvB⟩ := Quorum.counted_meets_majority hadjxy hsub hvotes'
    (by rw [herase]; exact hcount) hmaj' he
  refine ⟨v, hvB, ?_⟩
  rcases Finset.mem_insert.mp hv with rfl | hv
  · exact .inl ⟨rfl, hdur⟩
  · exact holds_of_mem_reporters hv

/-- Leader 1 removes itself from `{1, 2, 3}`: its own durable and one report of
    two meet every majority of the old config. -/
theorem rank_meets_majority_self_removal :
    ∃ v ∈ ({1, 3} : Finset NodeId),
      ((genesisNode 1 [1, 2, 3] none [] 500).evaluating
        ⟨1, [(2, 0, 2), (3, 0, 3)], [], [1]⟩ [(3, 500)]).Holds 500 v := by
  have happ : (ClusterConfig.genesis [(1, 0, 1), (2, 0, 2), (3, 0, 3)] []).apply (.removeVoter 1) =
      .ok ⟨1, [(2, 0, 2), (3, 0, 3)], [], [1]⟩ := rfl
  exact rank_meets_majority (.genesis ⟨rfl, rfl, by decide, by decide, by decide⟩) happ
    (.inr rfl) (.inl rfl) _ _ (by decide) (by decide) (.inl (by decide))
    (genesisNode 2 [1, 2, 3] none [] 0) rfl (by decide) (by decide)

/-- Leader 1, removed from `{1, 2, 3}`, ranks 500 on its own durable and the
    report of 2.  Once 4 is promoted, `{3, 4}` elects without either. -/
theorem rank_misses_majority_after_promotion :
    ¬ ∀ (c c' : ClusterConfig) (op : ConfigOp), c.Reachable → c.apply op = .ok c' →
      ∀ config config', (config = c ∨ config = c') → (config' = c ∨ config' = c') →
      ∀ (s : ElectionSm) reports p, 0 < p →
      p ≤ (s.evaluating config reports).tracker.ranked s.durable →
      ∀ elector : ElectionSm, elector.members = config'.voterIds →
      ∀ votes : Finset NodeId, (∀ v ∈ votes, v ∈ config'.voterIds) →
      elector.majority ≤ votes.card → ∃ v ∈ votes, (s.evaluating config reports).Holds p v := by
  intro h
  have hreach : ClusterConfig.Reachable ⟨1, [(2, 0, 2), (3, 0, 3)], [(4, 0, 4)], [1]⟩ :=
    .apply (c := .genesis [(1, 0, 1), (2, 0, 2), (3, 0, 3)] [(4, 0, 4)]) (.removeVoter 1)
      (.genesis ⟨rfl, rfl, by decide, by decide, by decide⟩) rfl
  obtain ⟨v, hv, hholds⟩ := h _ ⟨2, [(2, 0, 2), (3, 0, 3), (4, 0, 4)], [], [1]⟩ (.promoteLearner 4)
    hreach rfl _ _ (.inl rfl) (.inr rfl) (genesisNode 1 [1, 2, 3] none [] 500) [(2, 500)] 500
    (by decide) (by decide) (genesisNode 3 [2, 3, 4] none [] 0) rfl {3, 4} (by decide) (by decide)
  have hv : v = 3 ∨ v = 4 := by simpa using hv
  rcases hv with rfl | rfl <;> exact absurd hholds (by unfold Holds; decide)

end ElectionSm

end UltimaCluster
