/-
  Self-removal of a leader.

  A leader that adopts its own removal serves on until the removal commits; the
  ranking that carries its commit over `configPosition` then pushes
  `StepDownRemoved`, and the node halts on it.  The latch that makes this happen
  once, `steppedDown`, is also set when a demoted leader turns follower, and
  nothing resets it.
-/
import UltimaCluster.Run
import UltimaCluster.Emission

namespace UltimaCluster

namespace ElectionSm

/-- The node leads after the inputs `is`: its state machine does, and no action
    has parked the node (`HaltRemoved` and `StepDownRemoved` both halt it for
    good and clear its leader flag). -/
def Leads (sm : ElectionSm) (is : List Input) : Prop :=
  (sm.run is).role = .leader ∧ .haltRemoved ∉ sm.outputs is ∧ .stepDownRemoved ∉ sm.outputs is

/-- The commit of a leader that is removed in its own config reaches the
    removal. -/
def CrossesTo (s s' : ElectionSm) : Prop :=
  s.role = .leader ∧ s.id ∈ s.config.tombstones ∧ s.commitSeen < s.configPosition ∧
    s.configPosition ≤ s'.commitSeen

/-- `CrossesTo` by one input. -/
def Crosses (s : ElectionSm) (i : Input) : Prop := CrossesTo s (s.exec i).1

/-- The leader turns follower within its term: its own demotion has committed. -/
def Relinquishes (s : ElectionSm) (i : Input) : Prop :=
  s.role = .leader ∧ (s.exec i).1.role = .follower ∧ (s.exec i).1.currentTerm = s.currentTerm

instance (s : ElectionSm) (i : Input) : Decidable (Relinquishes s i) :=
  inferInstanceAs (Decidable (_ ∧ _ ∧ _))

instance (s : ElectionSm) (i : Input) : Decidable (Crosses s i) :=
  inferInstanceAs (Decidable (_ ∧ _ ∧ _ ∧ _))

instance (sm : ElectionSm) (is : List Input) : Decidable (Leads sm is) :=
  inferInstanceAs (Decidable (_ ∧ _ ∧ _))

/-! ## The latch over one step -/

/-- What a step does to the latch. -/
inductive LatchStep (s s' : ElectionSm) (out : List Action) : Prop
  | kept : s'.steppedDown = s.steppedDown → out.count .stepDownRemoved = 0 →
      (s.role = .leader → s'.role = .leader ∨ s.currentTerm < s'.currentTerm) →
      (CrossesTo s s' → s.steppedDown) → LatchStep s s' out
  | removed : s.steppedDown = false → s'.steppedDown → out.count .stepDownRemoved = 1 →
      s'.role = .leader → LatchStep s s' out
  | demoted : s.steppedDown = false → s'.steppedDown → out.count .stepDownRemoved = 0 →
      s.role = .leader → s'.role = .follower → s'.currentTerm = s.currentTerm →
      ¬ CrossesTo s s' → LatchStep s s' out

/-- The fields the latch depends on. -/
def latchView (s : ElectionSm) : Role × Bool × ℕ × NodeId × ClusterConfig × ℕ × ℕ :=
  (s.role, s.steppedDown, s.currentTerm, s.id, s.config, s.commitSeen, s.configPosition)

theorem LatchStep.congr {s s' t t' : ElectionSm} {out out' : List Action}
    (h : LatchStep t t' out') (hs : s.latchView = t.latchView) (hs' : s'.latchView = t'.latchView)
    (hout : out.count .stepDownRemoved = out'.count .stepDownRemoved) : LatchStep s s' out := by
  simp only [latchView, Prod.mk.injEq] at hs hs'
  obtain ⟨h1, h2, h3, h4, h5, h6, h7⟩ := hs
  obtain ⟨h1', h2', h3', -, -, h6', -⟩ := hs'
  have hcross : CrossesTo s s' ↔ CrossesTo t t' := by
    simp only [CrossesTo, h1, h4, h5, h6, h7, h6']
  cases h with
  | kept hk hc hr hx =>
    refine .kept (by rw [h2, h2', hk]) (by rw [hout, hc]) ?_ ?_
    · rw [h1, h3, h1', h3']
      exact hr
    · rw [hcross, h2]
      exact hx
  | removed hf ht hc hr =>
    exact .removed (by rw [h2, hf]) (by rw [h2', ht]) (by rw [hout, hc]) (by rw [h1', hr])
  | demoted hf ht hc hr hr' hterm hx =>
    exact .demoted (by rw [h2, hf]) (by rw [h2', ht]) (by rw [hout, hc]) (by rw [h1, hr])
      (by rw [h1', hr']) (by rw [h3, h3', hterm]) (by rw [hcross]; exact hx)

variable {s s' : ElectionSm}

theorem rankLeader_latch (nowNs : ℕ) (hr : s.role = .leader) :
    LatchStep s (rankLeader nowNs s).1 (rankLeader nowNs s).2 := by
  unfold rankLeader
  dsimp only
  split
  · split_ifs with hadv hrem hdem
    · simp only [Bool.and_eq_true, Bool.not_eq_true'] at hrem
      exact .removed hrem.1.1 rfl (by simp [List.count]) hr
    · simp only [Bool.and_eq_true, Bool.not_eq_true'] at hdem
      refine .demoted hdem.1.1.1 rfl (by simp [List.count]) hr rfl rfl ?_
      rintro ⟨-, hid, -, hpos⟩
      refine hrem ?_
      simp only [Bool.and_eq_true, Bool.not_eq_true', List.contains_iff_mem, decide_eq_true_eq]
      exact ⟨⟨hdem.1.1.1, hid⟩, hpos⟩
    · refine .kept rfl (by simp [List.count]) (fun _ => .inl hr) ?_
      rintro ⟨-, hid, -, hpos⟩
      by_contra hsd
      refine hrem ?_
      simp only [Bool.and_eq_true, Bool.not_eq_true', List.contains_iff_mem, decide_eq_true_eq]
      exact ⟨⟨by simpa using hsd, hid⟩, hpos⟩
    · refine .kept rfl rfl (fun _ => .inl hr) ?_
      rintro ⟨-, -, hlt, hle⟩
      exact absurd hle (by simpa using hlt)
  · refine .kept rfl rfl (fun _ => .inl hr) ?_
    rintro ⟨-, -, hlt, hle⟩
    exact absurd hle (by simpa using hlt)

/-! ## Steps that do not rank -/

/-- Only a tick and a report rank. -/
def Unranked (ev : Event) : Prop :=
  (∀ nowNs, ev ≠ .tick nowNs) ∧ ∀ src term durable durableTerm, ev ≠ .report src term durable durableTerm

/-- The latch stays, and a leader stays one unless its term moves. -/
structure LatchKept (s s' : ElectionSm) : Prop where
  latch : s'.steppedDown = s.steppedDown
  role : s.role = .leader → s'.role = .leader ∨ s.currentTerm < s'.currentTerm
  term : s.currentTerm ≤ s'.currentTerm

theorem LatchKept.trans {s s' s'' : ElectionSm} (h : LatchKept s s') (h' : LatchKept s' s'') :
    LatchKept s s'' where
  latch := h'.latch.trans h.latch
  role := by
    intro hr
    rcases h.role hr with hr' | hlt
    · rcases h'.role hr' with hr'' | hlt
      · exact .inl hr''
      · exact .inr (h.term.trans_lt hlt)
    · exact .inr (hlt.trans_le h'.term)
  term := h.term.trans h'.term

variable {ev : Event} {out : List Action}

theorem Trans.latchKept (h : Trans ev s s' out) (hev : Unranked ev) : LatchKept s s' := by
  cases h with
  | adopt term hlt _ => exact ⟨rfl, fun _ => .inr hlt, hlt.le⟩
  | stepDown hr _ => exact ⟨rfl, fun hl => absurd (hl.symm.trans hr) (by decide), le_rfl⟩
  | candidacy _ h => exact absurd h (hev.1 _)
  | rank _ _ h =>
    rcases h with ⟨_, h⟩ | ⟨_, _, _, h⟩
    · exact absurd h (hev.1 _)
    · exact absurd h (hev.2 _ _ _ _)
  | gossip _ _ =>
    rw [advanceGossipCommit_eq]
    exact ⟨rfl, .inl, le_rfl⟩
  | finish _ _ =>
    rw [finishValidation_eq]
    exact ⟨rfl, .inl, le_rfl⟩
  | durableAdvance durable _ =>
    unfold onDurableAdvanced
    dsimp only
    split <;> exact ⟨rfl, .inl, le_rfl⟩
  | observeTerm term base _ _ _ =>
    unfold onDataTermObserved
    split <;> exact ⟨rfl, .inl, le_rfl⟩
  | revert epoch target _ =>
    rw [revertConfig_eq]
    exact ⟨rfl, .inl, le_rfl⟩
  | observeConfig position config _ _ =>
    rw [adoptConfig_eq]
    exact ⟨rfl, .inl, le_rfl⟩
  | win _ _ _ => exact ⟨rfl, fun _ => .inl rfl, le_rfl⟩
  | _ => exact ⟨rfl, .inl, le_rfl⟩

theorem Trans.not_mem_stepDownRemoved (h : Trans ev s s' out) (hev : Unranked ev) :
    .stepDownRemoved ∉ out := by
  intro ha
  cases h with
  | rank _ _ h =>
    rcases h with ⟨_, h⟩ | ⟨_, _, _, h⟩
    · exact absurd h (hev.1 _)
    · exact absurd h (hev.2 _ _ _ _)
  | adopt term _ _ => rcases adoptTerm_out _ _ _ _ ha with h | h <;> cases h
  | stepDown _ _ => rcases stepDownToFollower_out _ _ ha with h | h <;> cases h
  | gossip _ _ =>
    obtain ⟨_, h⟩ := advanceGossipCommit_out _ _ ha
    cases h
  | finish _ _ =>
    obtain ⟨_, h⟩ := finishValidation_out _ _ ha
    cases h
  | revert epoch target _ =>
    obtain ⟨_, _, _, _, h⟩ := revertConfig_out _ _ _ ha
    cases h
  | observeConfig position config _ _ =>
    rcases adoptConfig_out _ _ _ _ ha with ⟨_, _, _, _, h⟩ | h <;> cases h
  | observeTerm term base _ _ _ =>
    unfold onDataTermObserved at ha
    split at ha <;> simp at ha
  | _ => simp [becomeLeader, grantVote, issueTruncate] at ha

/-- A step that does not rank never pushes `StepDownRemoved`. -/
theorem Steps.unranked (h : Steps ev s s' out) (hev : Unranked ev) :
    LatchKept s s' ∧ .stepDownRemoved ∉ out := by
  induction h with
  | nil => exact ⟨⟨rfl, .inl, le_rfl⟩, List.not_mem_nil⟩
  | cons ht _ ih =>
    refine ⟨(ht.latchKept hev).trans ih.1, ?_⟩
    rw [List.mem_append]
    rintro (h | h)
    · exact ht.not_mem_stepDownRemoved hev h
    · exact ih.2 h

/-! ## The commit of a leader moves with its ranking only -/

/-- A leader has no gossiped commit left over. -/
def Undeferred (s : ElectionSm) : Prop := s.role = .leader → s.deferredCommit = 0

theorem Trans.undeferred (h : Trans ev s s' out) (hs : s.Undeferred) : s'.Undeferred := by
  intro hr
  cases h with
  | rank nowNs hrole _ =>
    rw [rankLeader_eq]
    exact hs hrole
  | gossip _ _ =>
    rw [advanceGossipCommit_eq] at hr ⊢
    exact hs hr
  | finish _ _ =>
    rw [finishValidation_eq] at hr ⊢
    exact hs hr
  | durableAdvance durable _ =>
    unfold onDurableAdvanced at hr ⊢
    dsimp only at hr ⊢
    split at hr <;> split <;> exact hs hr
  | observeTerm term base _ _ _ =>
    unfold onDataTermObserved at hr ⊢
    split at hr <;> split <;> exact hs hr
  | revert epoch target _ =>
    rw [revertConfig_eq] at hr ⊢
    exact hs hr
  | observeConfig position config _ _ =>
    rw [adoptConfig_eq] at hr ⊢
    exact hs hr
  | deferCommit commit _ hne _ => exact absurd hr hne
  | win _ _ _ => rfl
  | adopt _ _ _ | stepDown _ _ | candidacy _ _ _ _ _ => cases hr
  | _ => exact hs hr

theorem exec_undeferred (i : Input) (hs : s.Undeferred) : (s.exec i).1.Undeferred := by
  cases i with
  | event ev => exact (step_steps s ev).invariant (fun _ _ _ ht => ht.undeferred) hs
  | snapshotLineage lineage =>
    simp only [exec, adoptSnapshotLineage]
    split <;> exact hs
  | snapshotConfig position config =>
    simp only [exec, adoptSnapshotConfig]
    obtain ⟨_, h⟩ := rebuildMembership_frame { s with
      config, prevConfig := config, configPosition := position, prevPosition := position } false
    rw [h]
    exact hs

variable {sm : ElectionSm}

theorem Boot.undeferred (hb : Boot sm) (is : List Input) : (sm.run is).Undeferred := by
  refine run_invariant (C := fun _ _ => True) ?_ (fun s i hs _ => exec_undeferred i hs) is ?_
  · intro hr
    rw [hb.state.role] at hr
    cases hr
  · intro _ _ _ _
    trivial

theorem advanceGossipCommit_of_undeferred (h : s.deferredCommit = 0) :
    s.advanceGossipCommit = (s, []) := by
  unfold advanceGossipCommit
  split
  · rfl
  · simp [h]

theorem finishValidation_of_undeferred (h : s.deferredCommit = 0) :
    s.finishValidation.1.commitSeen = s.commitSeen := by
  unfold finishValidation
  split
  · rw [advanceGossipCommit_of_undeferred (by exact h)]
  · rfl

/-- Nothing is deferred and the commit is `c`. -/
theorem Trans.commit_of_undeferred (h : Trans ev s s' out) (hev : Unranked ev)
    (hg : ∀ term commit, ev ≠ .commitGossip term commit) {c : ℕ}
    (hs : s.deferredCommit = 0 ∧ s.commitSeen = c) : s'.deferredCommit = 0 ∧ s'.commitSeen = c := by
  cases h with
  | rank _ _ h =>
    rcases h with ⟨_, h⟩ | ⟨_, _, _, h⟩
    · exact absurd h (hev.1 _)
    · exact absurd h (hev.2 _ _ _ _)
  | gossip _ _ =>
    rw [advanceGossipCommit_of_undeferred hs.1]
    exact hs
  | finish _ _ =>
    refine ⟨?_, (finishValidation_of_undeferred hs.1).trans hs.2⟩
    rw [finishValidation_eq]
    exact hs.1
  | durableAdvance durable _ =>
    unfold onDurableAdvanced
    dsimp only
    split <;> exact hs
  | observeTerm term base _ _ _ =>
    unfold onDataTermObserved
    split <;> exact hs
  | revert epoch target _ =>
    rw [revertConfig_eq]
    exact hs
  | observeConfig position config _ _ =>
    rw [adoptConfig_eq]
    exact hs
  | deferCommit commit h _ _ => exact absurd h (hg _ _)
  | win _ _ _ => exact ⟨rfl, hs.2⟩
  | _ => exact hs

theorem Trans.commit_of_latched {term commit : ℕ} (h : Trans (.commitGossip term commit) s s' out)
    {c : ℕ} (hs : (s.role = .leader ∨ s.awaitingReconcile) ∧ s.commitSeen = c) :
    (s'.role = .leader ∨ s'.awaitingReconcile) ∧ s'.commitSeen = c := by
  cases h with
  | rank _ _ h => rcases h with ⟨_, h⟩ | ⟨_, _, _, h⟩ <;> cases h
  | gossip _ _ =>
    have hsame : s.advanceGossipCommit = (s, []) := by
      unfold advanceGossipCommit
      rw [if_pos hs.1.symm]
    rw [hsame]
    exact hs
  | finish _ h => rcases h with ⟨_, _, h, _⟩ | ⟨_, _, h⟩ <;> cases h
  | adopt _ _ _ => exact ⟨.inr rfl, hs.2⟩
  | stepDown hr _ =>
    refine ⟨.inr ?_, hs.2⟩
    exact hs.1.resolve_left (by rw [hr]; decide)
  | candidacy _ h => cases h
  | durableAdvance _ h | observeTerm _ _ h | revert _ _ h | observeConfig _ _ h => cases h
  | win h _ _ => rcases h with ⟨_, h⟩ | ⟨_, h⟩ <;> cases h
  | _ => exact hs

theorem step_commit_of_unranked (hev : Unranked ev) (hr : s.role = .leader) (hs : s.Undeferred) :
    (s.step ev).1.commitSeen = s.commitSeen := by
  by_cases hg : ∃ term commit, ev = .commitGossip term commit
  · obtain ⟨term, commit, rfl⟩ := hg
    exact ((step_steps s _).invariant (fun _ _ _ ht => ht.commit_of_latched)
      ⟨.inl hr, rfl⟩).2
  · have hg' : ∀ term commit, ev ≠ .commitGossip term commit :=
      fun term commit h => hg ⟨term, commit, h⟩
    exact ((step_steps s ev).invariant (fun _ _ _ ht => ht.commit_of_undeferred hev hg')
      ⟨hs hr, rfl⟩).2

/-! ## Every step -/

theorem onIdleTick_unlatched (nowNs : ℕ) (s : ElectionSm) :
    (onIdleTick nowNs s).1.steppedDown = s.steppedDown ∧
      .stepDownRemoved ∉ (onIdleTick nowNs s).2 := by
  have harm : ∀ t : ElectionSm, (t.armTimeout nowNs).steppedDown = t.steppedDown := by
    intro t
    obtain ⟨_, _, h⟩ := armTimeout_frame t nowNs
    rw [h]
  unfold onIdleTick
  split_ifs
  · exact ⟨harm _, List.not_mem_nil⟩
  · unfold startElection
    rw [andThen_fst, andThen_snd]
    split_ifs
    · exact ⟨harm _, by simp [becomeLeader]⟩
    · exact ⟨harm _, by simp⟩
  · exact ⟨harm _, List.not_mem_nil⟩
  · exact ⟨rfl, List.not_mem_nil⟩

theorem onTick_latch (nowNs : ℕ) (s : ElectionSm) :
    LatchStep s (onTick nowNs s).1 (onTick nowNs s).2 := by
  by_cases hr : s.role = .leader
  · rw [onTick_leader nowNs hr]
    have hl := rankLeader_latch nowNs (s := { s with lastTickNs := nowNs }) hr
    refine hl.congr rfl ?_ ?_
    · rw [andThen_fst]
      split <;> rfl
    · rw [andThen_snd, List.count_append]
      split <;> rfl
  · have hidle : onTick nowNs s = onIdleTick nowNs { s with lastTickNs := nowNs } := by
      unfold onTick
      dsimp only
      split
      · exact absurd ‹_› hr
      · rfl
      · rfl
    obtain ⟨hlatch, hout⟩ := onIdleTick_unlatched nowNs { s with lastTickNs := nowNs }
    rw [hidle]
    exact .kept hlatch (List.count_eq_zero.mpr hout) (fun h => absurd h hr)
      (fun h => absurd h.1 hr)

theorem LatchStep.same (hl : s'.steppedDown = s.steppedDown)
    (hr : s.role = .leader → s'.role = .leader ∨ s.currentTerm < s'.currentTerm)
    (hc : s'.commitSeen = s.commitSeen) : LatchStep s s' [] := by
  refine .kept hl rfl hr ?_
  rintro ⟨-, -, hlt, hle⟩
  rw [hc] at hle
  omega

theorem onReport_latch (src : NodeId) (durable durableTerm : ℕ) (s : ElectionSm) :
    LatchStep s (onReport src durable durableTerm s).1 (onReport src durable durableTerm s).2 := by
  rw [onReport_eq]
  split
  · exact .same rfl .inl rfl
  · dsimp only
    split
    · rename_i slot hr _
      exact LatchStep.congr (t := { s with
        lastReports := if s.config.contains src && src != s.id then
          upsertReport src durable s.lastReports else s.lastReports
        tracker := s.tracker.onDurable slot durable }) (rankLeader_latch _ hr) rfl rfl rfl
    · exact .same rfl .inl rfl

theorem step_latch (hs : s.Undeferred) (ev : Event) : LatchStep s (s.step ev).1 (s.step ev).2 := by
  by_cases hev : Unranked ev
  · obtain ⟨hk, hout⟩ := (step_steps s ev).unranked hev
    refine .kept hk.latch (List.count_eq_zero.mpr hout) hk.role ?_
    rintro ⟨hr, -, hlt, hle⟩
    rw [step_commit_of_unranked hev hr hs] at hle
    omega
  · unfold step
    split
    · exact .same rfl .inl rfl
    · cases ev with
      | tick nowNs => exact onTick_latch nowNs s
      | report src term durable durableTerm =>
        simp only [stepBody]
        split_ifs with hlow hhigh
        · exact .same rfl .inl rfl
        · refine .kept rfl ?_ (fun _ => .inr hhigh) ?_
          · rw [List.count_eq_zero]
            intro ha
            rcases adoptTerm_out _ _ _ _ ha with h | h <;> cases h
          · rintro ⟨-, -, hlt, hle⟩
            exact absurd hle (by simpa using hlt)
        · exact onReport_latch src durable durableTerm s
      | _ => exact absurd ⟨by simp, by simp⟩ hev

theorem exec_latch (hs : s.Undeferred) (i : Input) : LatchStep s (s.exec i).1 (s.exec i).2 := by
  cases i with
  | event ev => exact step_latch hs ev
  | snapshotLineage lineage =>
    simp only [exec, adoptSnapshotLineage]
    split
    · exact .same rfl .inl rfl
    · exact .same rfl .inl rfl
  | snapshotConfig position config =>
    simp only [exec, adoptSnapshotConfig]
    obtain ⟨_, h⟩ := rebuildMembership_frame { s with
      config, prevConfig := config, configPosition := position, prevPosition := position } false
    rw [h]
    exact .same rfl .inl rfl

/-! ## Runs -/

/-- The latch against the history: it is set by the one `StepDownRemoved`, or
    else by a demotion. -/
structure LatchHistory (sm : ElectionSm) (is : List Input) : Prop where
  once : (sm.outputs is).count .stepDownRemoved ≤ 1
  unset : (sm.run is).steppedDown = false → (sm.outputs is).count .stepDownRemoved = 0
  demoted : (sm.outputs is).count .stepDownRemoved = 0 →
    ((sm.run is).steppedDown = false ↔ StepsMeet (fun s i => ¬ s.Relinquishes i) sm is)

theorem latchHistory_step {is : List Input} (h : LatchHistory sm is) {i : Input}
    (hl : LatchStep (sm.run is) ((sm.run is).exec i).1 ((sm.run is).exec i).2) :
    LatchHistory sm (is ++ [i]) := by
  have hout : sm.outputs (is ++ [i]) = sm.outputs is ++ ((sm.run is).exec i).2 := by
    simp [outputs]
  have hrun : sm.run (is ++ [i]) = ((sm.run is).exec i).1 := by simp
  cases hl with
  | kept hlatch hcount hrole _ =>
    have hno : ¬ (sm.run is).Relinquishes i := by
      rintro ⟨hr, hr', hterm⟩
      rcases hrole hr with h | h
      · exact absurd (hr'.symm.trans h) (by decide)
      · omega
    refine ⟨?_, ?_, ?_⟩
    · rw [hout, List.count_append, hcount]
      exact h.once
    · rw [hrun, hlatch, hout, List.count_append, hcount]
      exact h.unset
    · rw [hrun, hlatch, hout, List.count_append, hcount, stepsMeet_concat]
      intro h0
      rw [h.demoted h0]
      exact ⟨fun hm => ⟨hm, hno⟩, And.left⟩
  | removed hf ht hcount _ =>
    have h0 := h.unset hf
    refine ⟨?_, ?_, ?_⟩
    · rw [hout, List.count_append, h0, hcount]
    · rw [hrun, ht]
      intro hf'
      cases hf'
    · rw [hout, List.count_append, h0, hcount]
      intro h1
      cases h1
  | demoted hf ht hcount hr hr' hterm _ =>
    have h0 := h.unset hf
    refine ⟨?_, ?_, ?_⟩
    · rw [hout, List.count_append, h0, hcount]
      exact Nat.zero_le _
    · rw [hrun, ht]
      intro hf'
      cases hf'
    · rw [hrun, ht, stepsMeet_concat]
      intro _
      constructor
      · intro hf'
        cases hf'
      · rintro ⟨-, hno⟩
        exact absurd ⟨hr, hr', hterm⟩ hno

theorem new_steppedDown {cfg : ElectionConfig} {vote : Option (ℕ × NodeId)} {map : TermMap}
    {durable nowNs : ℕ} (h : new cfg vote map durable nowNs = some sm) :
    sm.steppedDown = false := by
  unfold new at h
  dsimp only at h
  split_ifs at h
  cases h
  obtain ⟨_, _, hf⟩ := armTimeout_frame _ nowNs
  rw [hf]

theorem Boot.steppedDown (h : Boot sm) : sm.steppedDown = false := by
  cases h with
  | fresh h => exact new_steppedDown h
  | restored _ _ h =>
    have hs := new_steppedDown h
    exact hs

theorem Boot.latchHistory (hb : Boot sm) (is : List Input) : LatchHistory sm is := by
  induction is using List.reverseRecOn with
  | nil =>
    refine ⟨Nat.zero_le _, fun _ => rfl, fun _ => ?_⟩
    exact ⟨fun _ => stepsMeet_nil _ _, fun _ => hb.steppedDown⟩
  | append_singleton is i ih => exact latchHistory_step ih (exec_latch (hb.undeferred is) i)

/-- **Self-removal completes exactly when the node has not been demoted out of a
    leadership before.**  When the commit of a leading node reaches its own
    removal, the same step pushes `StepDownRemoved`, once in the whole run, and
    the node leads no more, if and only if no earlier step of this incarnation
    was the step-down of a demoted leader. -/
theorem self_removal_completes_iff {sm : ElectionSm} (hb : Boot sm) {is : List Input} {i : Input}
    (hlead : sm.Leads is) (hcross : (sm.run is).Crosses i) :
    (.stepDownRemoved ∈ ((sm.run is).exec i).2 ∧ ¬ sm.Leads (is ++ [i]) ∧
      ∀ more, (sm.outputs (is ++ i :: more)).count .stepDownRemoved = 1) ↔
    StepsMeet (fun s j => ¬ s.Relinquishes j) sm is := by
  have h0 : (sm.outputs is).count .stepDownRemoved = 0 := List.count_eq_zero.mpr hlead.2.2
  rw [← (hb.latchHistory is).demoted h0]
  cases exec_latch (hb.undeferred is) i with
  | kept _ hcount _ hx =>
    have hset := hx hcross
    constructor
    · rintro ⟨hmem, -⟩
      exact absurd hmem (List.count_eq_zero.mp hcount)
    · intro hf
      exact absurd (hset.symm.trans hf) (by decide)
  | removed hf _ hcount _ =>
    refine ⟨fun _ => hf, fun _ => ?_⟩
    have hmem : .stepDownRemoved ∈ ((sm.run is).exec i).2 :=
      List.count_pos_iff.mp (by omega)
    refine ⟨hmem, ?_, ?_⟩
    · rintro ⟨-, -, hno⟩
      rw [outputs_append, List.mem_append] at hno
      exact hno (.inr (by simpa [outputs] using hmem))
    · intro more
      have hle := (hb.latchHistory (is ++ i :: more)).once
      have hge : 1 ≤ (sm.outputs (is ++ i :: more)).count .stepDownRemoved := by
        simp only [outputs_append, outputs, List.count_append]
        omega
      omega
  | demoted _ _ _ _ _ _ hx => exact absurd hcross hx

/-- Node 1 wins term 1 of `{1, 2, 3}` and has 10 durable. -/
def firstReign : List Input :=
  [.event (.tick 20), .event (.vote 2 1 true), .event (.newTermAppended 4),
    .event (.durableAdvanced 10)]

theorem self_removal_completes_first_reign :
    let sm := genesisNode 1 [1, 2, 3] none [] 0
    let is := firstReign ++ [.event (.configObserved 8 ⟨1, [(2, 0, 2), (3, 0, 3)], [], [1]⟩)]
    .stepDownRemoved ∈ ((sm.run is).exec (.event (.report 2 1 10 1))).2 := by
  intro sm is
  have hmeet : StepsMeet (fun s j => ¬ s.Relinquishes j) sm is := by
    simp only [is, firstReign, List.cons_append, List.nil_append, stepsMeet_cons]
    exact ⟨by decide, by decide, by decide, by decide, by decide, stepsMeet_nil _ _⟩
  have hlead : sm.Leads is := by decide
  have hcross : (sm.run is).Crosses (.event (.report 2 1 10 1)) := by decide
  exact ((self_removal_completes_iff (genesisNode_boot 1 1 [2, 3] none [] 0) hlead hcross).mpr
    hmeet).1

/-- Node 1 is demoted in term 1 and steps down when that commits, node 2 promotes
    it again in term 2, node 1 wins term 3 and removes itself. -/
def demotedBefore : List Input :=
  firstReign ++
  [.event (.configObserved 8 ⟨1, [(2, 0, 2), (3, 0, 3)], [(1, 0, 1)], []⟩),
    .event (.report 2 1 10 1),
    .event (.requestVote 2 2 1 10), .event (.dataTermObserved 2 10),
    .event (.durableAdvanced 20), .event (.termMapReceived 2 [(1, 0), (2, 10)]),
    .event (.configObserved 18 ⟨2, [(2, 0, 2), (3, 0, 3), (1, 0, 1)], [], []⟩),
    .event (.commitGossip 2 20),
    .event (.tick 60), .event (.tick 100), .event (.vote 2 3 true),
    .event (.newTermAppended 24), .event (.durableAdvanced 30),
    .event (.configObserved 28 ⟨3, [(2, 0, 2), (3, 0, 3)], [], [1]⟩)]

/-- The removal of node 1 commits and nothing is pushed: the node leads on. -/
theorem self_removal_lost_after_demotion :
    ¬ ∀ (sm : ElectionSm) (is : List Input) (i : Input), Boot sm → sm.Leads is →
      (sm.run is).Crosses i →
      .stepDownRemoved ∈ ((sm.run is).exec i).2 ∧ ¬ sm.Leads (is ++ [i]) ∧
        ∀ more, (sm.outputs (is ++ i :: more)).count .stepDownRemoved = 1 := by
  intro h
  have hlead : (genesisNode 1 [1, 2, 3] none [] 0).Leads demotedBefore := by decide
  have hcross : ((genesisNode 1 [1, 2, 3] none [] 0).run demotedBefore).Crosses
      (.event (.report 2 3 30 3)) := by decide
  have hmem := (h _ _ _ (genesisNode_boot 1 1 [2, 3] none [] 0) hlead hcross).1
  exact absurd hmem (by decide)

end ElectionSm

end UltimaCluster
