/-
  The validated frontier against the durable position.

  Every transition keeps `validatedUpTo ≤ durable` except the intake of a
  `Truncated` ack, which lowers `durable` and never `validatedUpTo`.
-/
import UltimaCluster.Run
import UltimaCluster.Trans

namespace UltimaCluster

/-! ## Reconciliation never validates above the durable position -/

theorem reconcileUnaligned_validUpTo_le {own : TermMap} {d : ℕ} {first : ℕ × ℕ} {o : Outcome}
    (h : reconcileUnaligned own d first = .ok o) : o.validUpTo ≤ d := by
  unfold reconcileUnaligned at h
  split_ifs at h
  · cases h; exact le_rfl
  · cases h
    split
    · exact (min_le_left _ _).trans (min_le_left _ _)
    · exact min_le_left _ _

theorem reconcileAligned_validUpTo_le (own : TermMap) (d : ℕ) (leader : TermMap) (j : ℕ) :
    (reconcileAligned own d leader j).validUpTo ≤ d := by
  unfold reconcileAligned
  dsimp only
  split
  · split_ifs
    · refine (min_le_left _ _).trans ?_
      split
      · exact min_le_left _ _
      · exact le_rfl
    · split
      · exact min_le_left _ _
      · exact le_rfl
  · split
    · exact min_le_left _ _
    · exact le_rfl

theorem reconcile_validUpTo_le {own : TermMap} {d : ℕ} {leader : TermMap} {o : Outcome}
    (h : reconcile own d leader = .ok o) : o.validUpTo ≤ d := by
  unfold reconcile at h
  split at h
  · cases h; exact le_rfl
  · split at h
    · exact reconcileUnaligned_validUpTo_le h
    · cases h; exact reconcileAligned_validUpTo_le _ _ _ _

namespace ElectionSm

/-- The bound of the validated frontier. -/
def ValidatedLe (sm : ElectionSm) : Prop := sm.validatedUpTo ≤ sm.durable

/-- The event is no truncation ack that lands below the validated frontier. -/
def AckCovers (sm : ElectionSm) : Input → Prop
  | .event (.truncated _ target) => sm.validatedUpTo ≤ target
  | _ => True

/-! ## The transitions -/

variable {s s' : ElectionSm}

theorem onDurableAdvanced_validatedLe (durable : ℕ) (hs : s.ValidatedLe) :
    (onDurableAdvanced durable s).ValidatedLe := by
  unfold onDurableAdvanced
  dsimp only
  split
  · exact le_rfl
  · exact hs.trans (le_max_left _ _)

theorem onDataTermObserved_validatedLe (term base : ℕ) (hs : s.ValidatedLe) :
    (onDataTermObserved term base s).1.ValidatedLe := by
  unfold onDataTermObserved
  split
  · exact (min_le_left _ _).trans hs
  · exact hs

/-- Every transition keeps the bound; the intake of an ack keeps it when the
    ack covers the frontier. -/
theorem Trans.validatedLe {ev : Event} {out : List Action} (h : Trans ev s s' out)
    (hev : s.AckCovers (.event ev)) (hs : s.ValidatedLe) : s'.ValidatedLe := by
  cases h with
  | rank nowNs _ _ =>
    rw [rankLeader_eq]; exact hs
  | durableAdvance durable _ => exact onDurableAdvanced_validatedLe durable hs
  | gossip _ _ =>
    rw [advanceGossipCommit_eq]; exact hs
  | cut entries o _ hrec hlt _ => exact hlt.le
  | clean entries o _ hrec _ _ => exact reconcile_validUpTo_le hrec
  | finish _ _ =>
    rw [finishValidation_eq]; exact hs
  | observeTerm term base _ _ _ => exact onDataTermObserved_validatedLe term base hs
  | clamp epoch target h =>
    subst h
    exact le_min hs hev
  | revert epoch target _ =>
    rw [revertConfig_eq]; exact hs
  | observeConfig position config _ _ =>
    rw [adoptConfig_eq]; exact hs
  | _ => exact hs

theorem Trans.validatedUpTo_of_truncated {epoch target : ℕ} {out : List Action}
    (h : Trans (.truncated epoch target) s s' out) : s'.validatedUpTo = s.validatedUpTo := by
  cases h with
  | rank nowNs _ _ =>
    rw [rankLeader_eq]
  | gossip _ _ =>
    rw [advanceGossipCommit_eq]
  | finish _ _ =>
    rw [finishValidation_eq]
  | revert _ t _ =>
    rw [revertConfig_eq]
  | durableAdvance _ h => cases h
  | cut _ _ h => cases h
  | clean _ _ h => cases h
  | observeTerm _ _ h => cases h
  | observeConfig _ _ h => cases h
  | _ => rfl

theorem step_validatedLe {ev : Event} (hs : s.ValidatedLe) (hev : s.AckCovers (.event ev)) :
    (s.step ev).1.ValidatedLe := by
  have hinv : (s.step ev).1.ValidatedLe ∧ (s.step ev).1.AckCovers (.event ev) := by
    refine (step_steps s ev).invariant (P := fun s => s.ValidatedLe ∧ s.AckCovers (.event ev))
      ?_ ⟨hs, hev⟩
    rintro s s' out ht ⟨hle, hcov⟩
    refine ⟨ht.validatedLe hcov hle, ?_⟩
    cases ev with
    | truncated epoch target =>
      unfold AckCovers
      rw [ht.validatedUpTo_of_truncated]
      exact hcov
    | _ => trivial
  exact hinv.1

theorem exec_validatedLe {i : Input} (hs : s.ValidatedLe) (hi : s.AckCovers i) :
    (s.exec i).1.ValidatedLe := by
  cases i with
  | event ev => exact step_validatedLe hs hi
  | snapshotLineage lineage =>
    dsimp only [exec, adoptSnapshotLineage]
    split <;> exact hs
  | snapshotConfig position config =>
    obtain ⟨_, h⟩ := rebuildMembership_frame { s with
      config, prevConfig := config, configPosition := position, prevPosition := position } false
    dsimp only [exec, adoptSnapshotConfig]
    rw [h]; exact hs

theorem step_truncated_not_validatedLe {epoch target : ℕ} (h : target < s.validatedUpTo) :
    ¬ (s.step (.truncated epoch target)).1.ValidatedLe := by
  intro hle
  have hinv : (s.step (.truncated epoch target)).1.validatedUpTo = s.validatedUpTo := by
    refine (step_steps s (.truncated epoch target)).invariant
      (P := fun s' => s'.validatedUpTo = s.validatedUpTo) ?_ rfl
    intro s1 s2 out ht heq
    rw [ht.validatedUpTo_of_truncated, heq]
  have hdur : (s.step (.truncated epoch target)).1.durable ≤ target := by
    rw [step_truncated, onTruncated_durable]
    exact min_le_right _ _
  unfold ValidatedLe at hle
  omega

/-! ## Whole runs -/

/-- **The validated frontier stays within the durable bytes in every state of a
    run exactly when no truncation ack of the run lands below it.** -/
theorem validated_le_durable_iff {sm : ElectionSm} (hb : Boot sm) (is : List Input) :
    (∀ before after, is = before ++ after → (sm.run before).ValidatedLe) ↔
      StepsMeet AckCovers sm is := by
  constructor
  · rintro h before i after rfl
    have hafter : (sm.run (before ++ [i])).ValidatedLe := h (before ++ [i]) after (by simp)
    rw [run_append, run_cons, run_nil] at hafter
    cases i with
    | event ev =>
      cases ev with
      | truncated epoch target =>
        by_contra hlt
        exact step_truncated_not_validatedLe (not_le.mp hlt) hafter
      | _ => trivial
    | _ => trivial
  · rintro h before after rfl
    refine run_invariant (C := AckCovers) (hb.state.validated.le) ?_ before ?_
    · intro s i hs hi
      exact exec_validatedLe hs hi
    · rintro b i a rfl
      exact h b i (a ++ after) (by simp)

/-- A node that reconciles clean, then cuts and acks at its new frontier. -/
theorem validated_le_durable_of_cut :
    ((genesisNode 1 [1, 2, 3] none [(1, 0)] 1000).run
      [.event (.termMapReceived 2 [(1, 0), (2, 600)]), .event (.truncated 1 600)]).ValidatedLe := by
  refine (validated_le_durable_iff (genesisNode_boot 1 1 [2, 3] none [(1, 0)] 1000) _).mpr ?_ _ []
    (List.append_nil _).symm
  refine stepsMeet_cons.mpr ⟨trivial, stepsMeet_cons.mpr ⟨?_, stepsMeet_nil _ _⟩⟩
  unfold AckCovers
  decide

/-- A wipe: the leader of term 70 ships a window that begins above our bytes,
    the ack clamps `durable` to 0 and the frontier stays at 1000. -/
theorem validated_exceeds_durable_after_wipe :
    ¬ ∀ sm, Boot sm → ∀ is, (sm.run is).ValidatedLe := by
  intro h
  have hle := h _ (genesisNode_boot 1 1 [2, 3] none [(1, 0)] 1000)
    [.event (.termMapReceived 70 (slidWindow 7 5000)), .event (.truncated 1 0)]
  revert hle
  unfold ValidatedLe
  decide

end ElectionSm

end UltimaCluster
