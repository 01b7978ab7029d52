/-
  What each transition of the election state machine can change.  A frame
  lemma `f_frame` names the fields that `f` may write; every other field is
  unchanged.
-/
import UltimaCluster.Election

namespace UltimaCluster

namespace ElectionSm

variable (sm : ElectionSm)

theorem armTimeout_frame (nowNs : ℕ) :
    ∃ r d, sm.armTimeout nowNs = { sm with rng := r, timeoutDeadlineNs := d } := by
  unfold armTimeout
  dsimp only
  split
  · exact ⟨sm.rng, _, rfl⟩
  · exact ⟨_, _, rfl⟩

@[simp] theorem haltIfRemovedFollower_fst : sm.haltIfRemovedFollower.1 = sm := rfl

@[simp] theorem adoptTerm_fst (term : ℕ) (leader : Option NodeId) :
    (adoptTerm term leader sm).1 = { sm with
      currentTerm := term, role := .follower, serving := false, awaitingReconcile := true,
      newTermPos := none, votesReceived := [], votedFor := none } := rfl

@[simp] theorem stepDownToFollower_fst : sm.stepDownToFollower.1 = { sm with
      role := .follower, serving := false, newTermPos := none, votesReceived := [] } := rfl

@[simp] theorem grantVote_fst (dest : NodeId) : (grantVote dest sm).1 = { sm with
      votedFor := some (sm.currentTerm, dest), pendingLeaderActivity := true } := rfl

@[simp] theorem issueTruncate_fst (target : ℕ) (newMap : TermMap) :
    (issueTruncate target newMap sm).1 = { sm with
      truncationEpoch := sm.truncationEpoch + 1
      truncatingEpoch := some (sm.truncationEpoch + 1)
      pendingNewMap := some newMap } := rfl

theorem advanceGossipCommit_frame :
    ∃ c src, sm.advanceGossipCommit.1 = { sm with commitSeen := c, commitSource := src } := by
  unfold advanceGossipCommit
  split
  · exact ⟨sm.commitSeen, sm.commitSource, rfl⟩
  · dsimp only
    split
    · exact ⟨_, _, rfl⟩
    · exact ⟨sm.commitSeen, sm.commitSource, rfl⟩

theorem advanceGossipCommit_eq : sm.advanceGossipCommit.1 =
    { sm with
      commitSeen := sm.advanceGossipCommit.1.commitSeen
      commitSource := sm.advanceGossipCommit.1.commitSource } := by
  obtain ⟨_, _, h⟩ := advanceGossipCommit_frame sm
  rw [h]

theorem finishValidation_frame : ∃ c src, sm.finishValidation.1 =
      { sm with awaitingReconcile := false, commitSeen := c, commitSource := src } := by
  unfold finishValidation
  split
  · obtain ⟨c, src, h⟩ := advanceGossipCommit_frame { sm with awaitingReconcile := false }
    exact ⟨c, src, h⟩
  · exact ⟨sm.commitSeen, sm.commitSource, by cases sm; simp_all⟩

theorem finishValidation_eq : sm.finishValidation.1 =
    { sm with
      awaitingReconcile := false
      commitSeen := sm.finishValidation.1.commitSeen
      commitSource := sm.finishValidation.1.commitSource } := by
  obtain ⟨_, _, h⟩ := finishValidation_frame sm
  rw [h]

theorem advanceGossipCommit_leader {sm : ElectionSm} (h : sm.role = .leader) :
    sm.advanceGossipCommit = (sm, []) := by
  simp [advanceGossipCommit, h]

theorem finishValidation_leader {sm : ElectionSm} (h : sm.role = .leader) :
    sm.finishValidation.1 = { sm with awaitingReconcile := false } := by
  unfold finishValidation
  split
  · rw [advanceGossipCommit_leader (by exact h)]
  · cases sm
    simp_all

theorem becomeLeader_frame : sm.becomeLeader.1 = { sm with
      role := .leader, serving := false, newTermPos := none, awaitingReconcile := false
      deferredCommit := 0, lastGossipNs := sm.lastTickNs
      termMap := sm.termMap.rdropWhile (fun e => e.2 == sm.durable) ++ [(sm.currentTerm, sm.durable)]
      tracker := sm.tracker.resetReports, lastReports := [] } := rfl

theorem rebuildMembership_frame (carry : Bool) : ∃ tr, rebuildMembership carry sm = { sm with
      members := sm.config.voterIds
      canVote := sm.config.isVoter sm.id
      votesReceived := sm.votesReceived.filter fun v => sm.config.voterIds.contains v || v == sm.id
      lastReports := sm.lastReports.filter fun e => sm.config.contains e.1 && e.1 != sm.id
      tracker := tr } := by
  unfold rebuildMembership
  split
  · exact ⟨_, rfl⟩
  · exact ⟨_, rfl⟩

theorem advance_frame (t : CommitTracker) (own : ℕ) :
    ∃ m, (t.advance own).1 = { t with commit := m } := by
  unfold CommitTracker.advance
  split
  · exact ⟨_, rfl⟩
  · exact ⟨t.commit, rfl⟩

theorem rankLeader_frame (nowNs : ℕ) : ∃ m c src st lg sv sd ro, (rankLeader nowNs sm).1 = { sm with
      tracker := { sm.tracker with commit := m }
      commitSeen := c, commitSource := src, commitSourceTerm := st
      lastGossipNs := lg, serving := sv, steppedDown := sd, role := ro } := by
  obtain ⟨m, hm⟩ := advance_frame sm.tracker sm.durable
  unfold rankLeader
  dsimp only
  rw [hm]
  split
  · split
    · split
      · exact ⟨_, _, _, _, _, _, _, sm.role, rfl⟩
      · split
        · exact ⟨_, _, _, _, _, _, _, _, rfl⟩
        · exact ⟨_, _, _, _, _, _, sm.steppedDown, sm.role, rfl⟩
    · exact ⟨_, sm.commitSeen, sm.commitSource, sm.commitSourceTerm, sm.lastGossipNs, sm.serving,
        sm.steppedDown, sm.role, rfl⟩
  · exact ⟨_, sm.commitSeen, sm.commitSource, sm.commitSourceTerm, sm.lastGossipNs, sm.serving,
      sm.steppedDown, sm.role, rfl⟩

theorem rankLeader_eq (nowNs : ℕ) : (rankLeader nowNs sm).1 = { sm with
    tracker := { sm.tracker with commit := (rankLeader nowNs sm).1.tracker.commit }
    commitSeen := (rankLeader nowNs sm).1.commitSeen
    commitSource := (rankLeader nowNs sm).1.commitSource
    commitSourceTerm := (rankLeader nowNs sm).1.commitSourceTerm
    lastGossipNs := (rankLeader nowNs sm).1.lastGossipNs
    serving := (rankLeader nowNs sm).1.serving
    steppedDown := (rankLeader nowNs sm).1.steppedDown
    role := (rankLeader nowNs sm).1.role } := by
  obtain ⟨_, _, _, _, _, _, _, _, h⟩ := rankLeader_frame sm nowNs
  rw [h]

theorem rankLeader_role (nowNs : ℕ) :
    (rankLeader nowNs sm).1.role = sm.role ∨ (rankLeader nowNs sm).1.role = .follower := by
  unfold rankLeader
  dsimp only
  split
  · split_ifs
    · exact .inl rfl
    · exact .inr rfl
    · exact .inl rfl
    · exact .inl rfl
  · exact .inl rfl

theorem rankLeader_leads (nowNs : ℕ) :
    (rankLeader nowNs sm).1.role = sm.role ∨ sm.config.isVoter sm.id = false := by
  unfold rankLeader
  dsimp only
  split
  · split_ifs with h1 h2 h3
    · exact .inl rfl
    · refine .inr ?_
      simp only [Bool.and_eq_true, Bool.not_eq_true'] at h3
      exact h3.1.2
    · exact .inl rfl
    · exact .inl rfl
  · exact .inl rfl

theorem onReport_eq (src : NodeId) (durable durableTerm : ℕ) : onReport src durable durableTerm sm =
      if 0 < durable ∧ durableTerm ≠ sm.termAt durable then
        ({ sm with reportsUnattested := sm.reportsUnattested + 1 }, [])
      else
        let reports := if sm.config.contains src && src != sm.id then
          upsertReport src durable sm.lastReports else sm.lastReports
        match sm.role, sm.followerSlot src with
        | .leader, some slot => rankLeader sm.lastTickNs
            { sm with lastReports := reports, tracker := sm.tracker.onDurable slot durable }
        | _, _ => ({ sm with lastReports := reports }, []) := by
  unfold onReport
  cases hc : sm.config.contains src && src != sm.id with
  | true => rfl
  | false => rfl

theorem adoptConfig_frame (position : ℕ) (cfg : ClusterConfig) :
    ∃ tr sr, (adoptConfig position cfg sm).1 = { sm with
      prevConfig := sm.config, prevPosition := sm.configPosition
      config := cfg, configPosition := position
      members := cfg.voterIds
      canVote := cfg.isVoter sm.id
      votesReceived := sm.votesReceived.filter fun v => cfg.voterIds.contains v || v == sm.id
      lastReports := sm.lastReports.filter fun e => cfg.contains e.1 && e.1 != sm.id
      tracker := tr, selfRemoved := sr } := by
  obtain ⟨tr, h⟩ := rebuildMembership_frame { sm with
    prevConfig := sm.config, prevPosition := sm.configPosition
    config := cfg, configPosition := position } true
  unfold adoptConfig
  dsimp only
  rw [h]
  split
  · exact ⟨tr, true, rfl⟩
  · exact ⟨tr, sm.selfRemoved, rfl⟩

theorem adoptConfig_eq (position : ℕ) (cfg : ClusterConfig) : (adoptConfig position cfg sm).1 = { sm with
    prevConfig := sm.config, prevPosition := sm.configPosition
    config := cfg, configPosition := position
    members := cfg.voterIds
    canVote := cfg.isVoter sm.id
    votesReceived := sm.votesReceived.filter fun v => cfg.voterIds.contains v || v == sm.id
    lastReports := sm.lastReports.filter fun e => cfg.contains e.1 && e.1 != sm.id
    tracker := (adoptConfig position cfg sm).1.tracker
    selfRemoved := (adoptConfig position cfg sm).1.selfRemoved } := by
  obtain ⟨_, _, h⟩ := adoptConfig_frame sm position cfg
  rw [h]

/-- A clean reconcile: the frontier is ours, the latch is open, the map is what
    reconciliation kept of it. -/
theorem reconcileTermMap_clean {entries : TermMap} {o : Outcome}
    (hrec : reconcile sm.termMap sm.durable entries = .ok o) (hle : sm.durable ≤ o.validUpTo) :
    ∃ c src, (reconcileTermMap entries sm).1 = { sm with
      validatedUpTo := o.validUpTo, unconfirmedBoundary := false, awaitingReconcile := false
      commitSeen := c, commitSource := src, termMap := o.newMap } := by
  obtain ⟨c, src, hg⟩ := advanceGossipCommit_frame
    { sm with validatedUpTo := o.validUpTo, unconfirmedBoundary := false }
  obtain ⟨c', src', hf⟩ := finishValidation_frame { sm with
    validatedUpTo := o.validUpTo, unconfirmedBoundary := false
    commitSeen := c, commitSource := src }
  refine ⟨c', src', ?_⟩
  simp only [reconcileTermMap, hrec]
  rw [if_neg (not_lt.mpr hle), andThen_fst, andThen_fst, hg, hf]
  split
  · rename_i hsame
    rw [hsame]
  · rfl

theorem revertConfig_frame (target : ℕ) :
    ∃ c cp pc pp ms cv vr lr tr, (revertConfig target sm).1 = { sm with
      config := c, configPosition := cp, prevConfig := pc, prevPosition := pp
      members := ms, canVote := cv, votesReceived := vr, lastReports := lr, tracker := tr } := by
  unfold revertConfig
  dsimp only
  split
  · split
    · obtain ⟨tr, h⟩ := rebuildMembership_frame { sm with
        configPosition := 0, prevConfig := sm.config, prevPosition := 0 } false
      rw [h]
      exact ⟨_, _, _, _, _, _, _, _, _, rfl⟩
    · obtain ⟨tr, h⟩ := rebuildMembership_frame { sm with
        config := sm.prevConfig, configPosition := sm.prevPosition } false
      rw [h]
      exact ⟨_, _, _, _, _, _, _, _, _, rfl⟩
  · exact ⟨sm.config, sm.configPosition, sm.prevConfig, sm.prevPosition, sm.members, sm.canVote,
      sm.votesReceived, sm.lastReports, sm.tracker, rfl⟩

theorem revertConfig_eq (target : ℕ) : (revertConfig target sm).1 = { sm with
    config := (revertConfig target sm).1.config
    configPosition := (revertConfig target sm).1.configPosition
    prevConfig := (revertConfig target sm).1.prevConfig
    prevPosition := (revertConfig target sm).1.prevPosition
    members := (revertConfig target sm).1.members
    canVote := (revertConfig target sm).1.canVote
    votesReceived := (revertConfig target sm).1.votesReceived
    lastReports := (revertConfig target sm).1.lastReports
    tracker := (revertConfig target sm).1.tracker } := by
  obtain ⟨_, _, _, _, _, _, _, _, _, h⟩ := revertConfig_frame sm target
  rw [h]

/-- A stale ack clamps `durable` and does nothing else. -/
theorem onTruncated_stale {epoch : ℕ} (target : ℕ) (h : sm.truncatingEpoch ≠ some epoch) :
    onTruncated epoch target sm = ({ sm with durable := min sm.durable target }, []) := by
  unfold onTruncated
  rw [if_pos h]

/-- The matching ack also adopts the pending map and releases both latches. -/
theorem onTruncated_matching {epoch : ℕ} (target : ℕ) (h : sm.truncatingEpoch = some epoch) :
    ∃ c src, (sm.role = .leader → c = sm.commitSeen) ∧
      (onTruncated epoch target sm).1 = (revertConfig target { sm with
      durable := min sm.durable target
      termMap := sm.pendingNewMap.getD sm.termMap, pendingNewMap := none, truncatingEpoch := none
      awaitingReconcile := false, commitSeen := c, commitSource := src }).1 := by
  unfold onTruncated
  rw [if_neg (not_not.mpr h), andThen_fst]
  by_cases hrole : sm.role = .leader
  · refine ⟨sm.commitSeen, sm.commitSource, fun _ => rfl, ?_⟩
    rw [finishValidation_leader (by exact hrole)]
  · obtain ⟨c, src, hf⟩ := finishValidation_frame { sm with
      durable := min sm.durable target
      termMap := sm.pendingNewMap.getD sm.termMap, pendingNewMap := none, truncatingEpoch := none }
    exact ⟨c, src, fun hl => absurd hl hrole, by rw [hf]⟩

theorem onTruncated_durable (epoch target : ℕ) :
    (onTruncated epoch target sm).1.durable = min sm.durable target := by
  by_cases h : sm.truncatingEpoch = some epoch
  · obtain ⟨c, src, -, heq⟩ := onTruncated_matching sm target h
    rw [heq]
    rw [revertConfig_eq]
  · rw [onTruncated_stale sm target h]

theorem onTruncated_currentTerm (epoch target : ℕ) :
    (onTruncated epoch target sm).1.currentTerm = sm.currentTerm := by
  by_cases h : sm.truncatingEpoch = some epoch
  · obtain ⟨c, src, -, heq⟩ := onTruncated_matching sm target h
    rw [heq]
    rw [revertConfig_eq]
  · rw [onTruncated_stale sm target h]

theorem step_truncated (epoch target : ℕ) :
    sm.step (.truncated epoch target) = onTruncated epoch target sm := by
  simp [step, stepBody, Event.passesLatch]

theorem step_of_idle {s : ElectionSm} {ev : Event} (h : s.truncatingEpoch = none) :
    s.step ev = stepBody ev s := by
  simp [step, h]

theorem onTick_leader (nowNs : ℕ) {s : ElectionSm} (h : s.role = .leader) :
    onTick nowNs s = andThen (rankLeader nowNs { s with lastTickNs := nowNs }) fun sm =>
      if sm.gossipFloorNs ≤ nowNs - sm.lastGossipNs then
        ({ sm with lastGossipNs := nowNs },
          [.gossipCommit sm.commitSeen, .shipTermMap sm.termMapWireTail])
      else (sm, []) := by
  unfold onTick
  simp only [h]

end ElectionSm

end UltimaCluster
