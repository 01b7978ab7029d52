/-
  Histories of membership changes.

  A history is any finite sequence of operations; an operation that `apply`
  refuses leaves the config as it is (`settle`).  `WellFormed` is what a valid
  genesis has and every operation keeps, and `history_wellFormed` collects what
  this says of a whole history.
-/
import UltimaCluster.Quorum

namespace UltimaCluster

namespace ClusterConfig

/-- The config after one proposal; a refused one changes nothing. -/
def settle (c : ClusterConfig) (op : ConfigOp) : ClusterConfig :=
  match c.apply op with
  | .ok c' => c'
  | .error _ => c

/-- The config after a history of proposals. -/
def after (c : ClusterConfig) (ops : List ConfigOp) : ClusterConfig := ops.foldl settle c

/-- The proposals of a history that are accepted. -/
def accepted (c : ClusterConfig) : List ConfigOp → List ConfigOp
  | [] => []
  | op :: ops => if (c.apply op).isOk then op :: (c.settle op).accepted ops
      else (c.settle op).accepted ops

@[simp] theorem after_nil (c : ClusterConfig) : c.after [] = c := rfl

@[simp] theorem after_cons (c : ClusterConfig) (op : ConfigOp) (ops : List ConfigOp) :
    c.after (op :: ops) = (c.settle op).after ops := rfl

theorem after_append (c : ClusterConfig) (ops ops' : List ConfigOp) :
    c.after (ops ++ ops') = (c.after ops).after ops' := List.foldl_append

variable {c c' : ClusterConfig} {op : ConfigOp}

theorem settle_of_ok (h : c.apply op = .ok c') : c.settle op = c' := by
  unfold settle
  rw [h]

theorem settle_cases (c : ClusterConfig) (op : ConfigOp) :
    c.apply op = .ok (c.settle op) ∨
      ((∃ e, c.apply op = .error e) ∧ c.settle op = c) := by
  unfold settle
  cases h : c.apply op with
  | ok c' => exact .inl rfl
  | error e => exact .inr ⟨⟨e, rfl⟩, rfl⟩

/-- Voters and learners apart and not among the tombstones, some voter, within
    the member cap. -/
structure WellFormed (c : ClusterConfig) : Prop where
  distinct : (c.voterIds ++ c.learnerIds).Nodup
  live : ∀ id ∈ c.voterIds ++ c.learnerIds, id ∉ c.tombstones
  voters : c.voters ≠ []
  cap : c.voters.length + c.learners.length ≤ maxMembers

theorem ValidGenesis.wellFormed (h : c.ValidGenesis) : c.WellFormed where
  distinct := h.nodup
  live := by simp [h.tombstones]
  voters := h.voters
  cap := h.cap

/-! ## One operation -/

theorem apply_version (h : c.apply op = .ok c') : c'.version = c.version + 1 := by
  cases apply_applied h <;> rfl

theorem apply_tombstones (h : c.apply op = .ok c') : c.tombstones <+: c'.tombstones := by
  cases apply_idStep h with
  | add _ _ _ ht => rw [ht]
  | move _ ht => rw [ht]
  | drop _ ht => exact ht ▸ List.prefix_append _ _

theorem length_eraseP_find? {l : List (NodeId × Addr)} {id : NodeId} {e : NodeId × Addr}
    (h : l.find? (·.1 == id) = some e) : (l.eraseP (·.1 == id)).length + 1 = l.length := by
  have hmem := List.mem_of_find?_eq_some h
  rw [List.length_eraseP_of_mem hmem (by simpa using List.find?_some h)]
  have hpos := List.length_pos_of_mem hmem
  omega

theorem apply_voters_ne_nil (hv : c.voters ≠ []) (h : c.apply op = .ok c') : c'.voters ≠ [] := by
  cases apply_applied h with
  | addLearner _ _ _ => exact hv
  | promoteLearner _ _ => simp
  | removeLearner _ _ => exact hv
  | demoteVoter _ hfind hlen | removeVoter _ hfind hlen =>
    intro hnil
    have hlen' := length_eraseP_find? hfind
    rw [show c.voters.eraseP _ = [] from hnil, List.length_nil] at hlen'
    omega

/-- Only an added learner makes the config larger, and that is what the cap is
    checked on. -/
theorem apply_cap (hcap : c.voters.length + c.learners.length ≤ maxMembers)
    (h : c.apply op = .ok c') : c'.voters.length + c'.learners.length ≤ maxMembers := by
  cases apply_applied h with
  | addLearner _ _ hroom =>
    simp only [List.length_append, List.length_singleton]
    omega
  | promoteLearner _ hfind | demoteVoter _ hfind _ | removeLearner _ hfind
  | removeVoter _ hfind _ =>
    have := length_eraseP_find? hfind
    simp only [List.length_append, List.length_singleton]
    omega

theorem apply_live (hc : c.WellFormed) (h : c.apply op = .ok c') :
    ∀ id ∈ c'.voterIds ++ c'.learnerIds, id ∉ c'.tombstones := by
  intro id hid
  cases apply_idStep h with
  | add _ ht hperm heq =>
    rw [heq]
    rcases List.mem_cons.mp (hperm.mem_iff.mp hid) with rfl | hold
    · exact ht
    · exact hc.live id hold
  | move hperm heq =>
    rw [heq]
    exact hc.live id (hperm.mem_iff.mp hid)
  | drop hperm heq =>
    have hnodup := List.nodup_cons.mp (hperm.nodup_iff.mp hc.distinct)
    have hold : id ∈ c.voterIds ++ c.learnerIds := hperm.mem_iff.mpr (List.mem_cons_of_mem _ hid)
    rw [heq, List.mem_append, List.mem_singleton]
    rintro (ht | rfl)
    · exact hc.live id hold ht
    · exact hnodup.1 hid

theorem WellFormed.apply (hc : c.WellFormed) (h : c.apply op = .ok c') : c'.WellFormed where
  distinct := apply_distinct hc.distinct h
  live := apply_live hc h
  voters := apply_voters_ne_nil hc.voters h
  cap := apply_cap hc.cap h

theorem WellFormed.settle (hc : c.WellFormed) (op : ConfigOp) : (c.settle op).WellFormed := by
  rcases settle_cases c op with hok | ⟨_, hsame⟩
  · exact hc.apply hok
  · exact hsame.symm ▸ hc

/-! ## A whole history -/

theorem WellFormed.after (hc : c.WellFormed) (ops : List ConfigOp) : (c.after ops).WellFormed := by
  induction ops generalizing c with
  | nil => exact hc
  | cons op ops ih => exact ih (hc.settle op)

theorem settle_tombstones (c : ClusterConfig) (op : ConfigOp) :
    c.tombstones <+: (c.settle op).tombstones := by
  rcases settle_cases c op with hok | ⟨_, hsame⟩
  · exact apply_tombstones hok
  · rw [hsame]

theorem after_tombstones (c : ClusterConfig) (ops : List ConfigOp) :
    c.tombstones <+: (c.after ops).tombstones := by
  induction ops generalizing c with
  | nil => exact List.prefix_rfl
  | cons op ops ih => exact (settle_tombstones c op).trans (ih _)

theorem after_version (c : ClusterConfig) (ops : List ConfigOp) :
    (c.after ops).version = c.version + (c.accepted ops).length := by
  induction ops generalizing c with
  | nil => rfl
  | cons op ops ih =>
    rw [after_cons, ih]
    rcases settle_cases c op with hok | ⟨⟨e, herr⟩, hsame⟩
    · have hv := apply_version hok
      simp only [accepted, hok, Except.isOk, Except.toBool, if_true, List.length_cons]
      omega
    · simp [accepted, herr, Except.isOk, Except.toBool, hsame]

/-- **Every history of proposals from a valid genesis** (any well-formed config
    will do) ends in a well-formed config: ids apart and not tombstoned, some
    voter, within the cap.  The version counts the accepted proposals, the
    tombstones only grow and a tombstoned id is never live again, and an
    accepted proposal changes at most one voter. -/
theorem history_wellFormed {g : ClusterConfig} (hg : g.WellFormed) (ops : List ConfigOp) :
    (g.after ops).WellFormed ∧
    (g.after ops).version = g.version + (g.accepted ops).length ∧
    (∀ ops', (g.after ops).tombstones <+: (g.after (ops ++ ops')).tombstones ∧
      ∀ id ∈ (g.after ops).tombstones, (g.after (ops ++ ops')).contains id = false) ∧
    (∀ op c', (g.after ops).apply op = .ok c' → g.after (ops ++ [op]) = c' ∧
      Quorum.Adjacent (g.after ops).voterIds.toFinset c'.voterIds.toFinset) ∧
    (∀ op e, (g.after ops).apply op = .error e → g.after (ops ++ [op]) = g.after ops) := by
  refine ⟨hg.after ops, after_version g ops, ?_, ?_, ?_⟩
  · intro ops'
    rw [after_append]
    have hgrow := after_tombstones (g.after ops) ops'
    refine ⟨hgrow, ?_⟩
    intro id hid
    by_contra hc
    refine ((hg.after ops).after ops').live id ?_ (hgrow.subset hid)
    rw [Bool.not_eq_false, contains_iff] at hc
    exact hc
  · intro op c' h
    rw [after_append]
    exact ⟨settle_of_ok h, apply_adjacent h⟩
  · intro op e h
    rw [after_append, after_cons, after_nil, settle, h]

/-- Adding, promoting and removing 4 next to two refused proposals, from the
    genesis `{1, 2, 3}`. -/
theorem history_wellFormed_removed :
    let g := genesis [(1, 0, 1), (2, 0, 2), (3, 0, 3)] []
    let ops : List ConfigOp := [.addLearner 4 (0, 4), .addLearner 4 (0, 5), .promoteLearner 4,
      .removeVoter 4, .addLearner 4 (0, 4)]
    (g.after ops).WellFormed ∧ (g.after ops).version = 3 := by
  intro g ops
  have hg : g.WellFormed :=
    ValidGenesis.wellFormed ⟨rfl, rfl, by decide, by decide, by decide⟩
  obtain ⟨hwf, hver, _⟩ := history_wellFormed hg ops
  exact ⟨hwf, hver⟩

end ClusterConfig

end UltimaCluster
