/-
  What the steps emit.  `AdvanceCommit` comes from a leader's ranking, and from
  three paths of a follower, each bounded by the validated frontier.
-/
import UltimaCluster.Trans

namespace UltimaCluster

namespace ElectionSm

/-! ## What each function pushes -/

theorem rankLeader_out (nowNs : ℕ) (s : ElectionSm) :
    ∀ a ∈ (rankLeader nowNs s).2, (∃ c, a = .advanceCommit c ∨ a = .gossipCommit c) ∨
      a = .shipTermMap s.termMapWireTail ∨ a = .stepDownRemoved ∨
      a = .becomeFollower s.currentTerm none := by
  intro a ha
  unfold rankLeader at ha
  dsimp only at ha
  split at ha
  · split_ifs at ha
    all_goals
      simp only [List.mem_append, List.mem_cons, List.not_mem_nil, or_false] at ha
    · rcases ha with (rfl | rfl | rfl) | rfl
      · exact .inl ⟨_, .inl rfl⟩
      · exact .inl ⟨_, .inr rfl⟩
      · exact .inr (.inl rfl)
      · exact .inr (.inr (.inl rfl))
    · rcases ha with (rfl | rfl | rfl) | rfl
      · exact .inl ⟨_, .inl rfl⟩
      · exact .inl ⟨_, .inr rfl⟩
      · exact .inr (.inl rfl)
      · exact .inr (.inr (.inr rfl))
    · rcases ha with rfl | rfl | rfl
      · exact .inl ⟨_, .inl rfl⟩
      · exact .inl ⟨_, .inr rfl⟩
      · exact .inr (.inl rfl)
  · cases ha

theorem adoptTerm_out (term : ℕ) (leader : Option NodeId) (s : ElectionSm) :
    ∀ a ∈ (adoptTerm term leader s).2, a = .becomeFollower term leader ∨ a = .haltRemoved := by
  intro a ha
  simp only [adoptTerm, andThen_snd, haltIfRemovedFollower] at ha
  split at ha <;> simp at ha <;> tauto

theorem stepDownToFollower_out (s : ElectionSm) :
    ∀ a ∈ s.stepDownToFollower.2, a = .becomeFollower s.currentTerm none ∨ a = .haltRemoved := by
  intro a ha
  simp only [stepDownToFollower, andThen_snd, haltIfRemovedFollower] at ha
  split at ha <;> simp at ha <;> tauto

theorem advanceGossipCommit_out (s : ElectionSm) :
    ∀ a ∈ s.advanceGossipCommit.2, ∃ c, a = .advanceCommit c := by
  intro a ha
  unfold advanceGossipCommit at ha
  dsimp only at ha
  split_ifs at ha <;> simp at ha
  exact ⟨_, ha⟩

theorem finishValidation_out (s : ElectionSm) :
    ∀ a ∈ s.finishValidation.2, ∃ c, a = .advanceCommit c := by
  intro a ha
  unfold finishValidation at ha
  split at ha
  · exact advanceGossipCommit_out _ a ha
  · cases ha

theorem revertConfig_out (target : ℕ) (s : ElectionSm) :
    ∀ a ∈ (revertConfig target s).2, ∃ p c p' c', a = .configAdopted p c p' c' := by
  intro a ha
  unfold revertConfig at ha
  dsimp only at ha
  split_ifs at ha <;> simp at ha <;> exact ⟨_, _, _, _, ha⟩

theorem adoptConfig_out (position : ℕ) (config : ClusterConfig) (s : ElectionSm) :
    ∀ a ∈ (adoptConfig position config s).2,
      (∃ p c p' c', a = .configAdopted p c p' c') ∨ a = .haltRemoved := by
  intro a ha
  unfold adoptConfig at ha
  dsimp only at ha
  split_ifs at ha <;> simp at ha
  · exact .inl ⟨_, _, _, _, ha⟩
  · exact ha.imp_left fun h => ⟨_, _, _, _, h⟩
  · exact .inl ⟨_, _, _, _, ha⟩

/-! ## What an action says -/

/-- What an action says about the transition that emits it. -/
def Emits (ev : Event) (s s' : ElectionSm) : Action → Prop
  | .startElection newTerm lastTerm lastDurable =>
    newTerm = s.currentTerm + 1 ∧ lastTerm = s.termMap.lastTerm ∧ lastDurable = s.durable ∧
      s.truncatingEpoch = none ∧ s' = { s with
        currentTerm := s.currentTerm + 1, role := .candidate, serving := false
        newTermPos := none, votedFor := some (s.currentTerm + 1, s.id), votesReceived := [s.id] }
  | .becomeLeader term base =>
    ((∃ src, ev = .vote src s.currentTerm true) ∨ ∃ nowNs, ev = .tick nowNs) ∧
      term = s.currentTerm ∧ base = s.durable ∧ s.role = .candidate ∧
      s.majority ≤ s.votesReceived.length ∧ s' = s.becomeLeader.1
  | .shipTermMap entries =>
    entries = s'.termMapWireTail ∧ s'.currentTerm = s.currentTerm ∧
      (s' = s.becomeLeader.1 ∨
        (s'.termMap = s.termMap ∧ (s.role = .leader ∨ s.config.isVoter s.id = false)))
  | .truncate epoch _ newMap =>
    (∃ entries, ev = .termMapReceived s.currentTerm entries) ∧ s.truncatingEpoch = none ∧
      s'.truncatingEpoch = some epoch ∧ s'.pendingNewMap = some newMap
  | _ => True

variable {s s' : ElectionSm}

theorem Trans.emits {ev : Event} {out : List Action} (h : Trans ev s s' out) :
    ∀ a ∈ out, Emits ev s s' a := by
  intro a ha
  cases h with
  | floor nowNs _ hrole =>
    simp only [List.mem_cons, List.not_mem_nil, or_false] at ha
    rcases ha with rfl | rfl
    · trivial
    · exact ⟨rfl, rfl, .inr ⟨rfl, hrole⟩⟩
  | adopt term _ _ => rcases adoptTerm_out _ _ _ a ha with rfl | rfl <;> trivial
  | stepDown _ _ => rcases stepDownToFollower_out _ a ha with rfl | rfl <;> trivial
  | candidacy nowNs _ _ _ hnt =>
    simp only [List.mem_cons, List.not_mem_nil, or_false] at ha
    rcases ha with rfl | rfl
    · trivial
    · exact ⟨rfl, rfl, rfl, hnt, rfl⟩
  | win hev hrole hmaj =>
    simp only [becomeLeader, List.mem_cons, List.not_mem_nil, or_false] at ha
    rcases ha with rfl | rfl
    · exact ⟨hev, rfl, rfl, hrole, hmaj, rfl⟩
    · exact ⟨rfl, rfl, .inl rfl⟩
  | grant src lastTerm lastDurable _ _ _ _ =>
    rw [List.mem_singleton.mp ha]
    trivial
  | reject src =>
    rw [List.mem_singleton.mp ha]
    trivial
  | rank nowNs hrole _ =>
    obtain ⟨_, _, _, _, _, _, _, _, hf⟩ := rankLeader_frame s nowNs
    rcases rankLeader_out nowNs s a ha with ⟨c, rfl | rfl⟩ | rfl | rfl | rfl
    · trivial
    · trivial
    · refine ⟨?_, ?_, .inr ⟨?_, .inl hrole⟩⟩ <;> rw [hf]
      rfl
    · trivial
    · trivial
  | gossip _ _ =>
    obtain ⟨c, rfl⟩ := advanceGossipCommit_out _ a ha
    trivial
  | cut entries o hev _ _ hnt =>
    rw [List.mem_singleton.mp ha]
    exact ⟨⟨entries, hev⟩, hnt, rfl, rfl⟩
  | wipe entries hev _ hnt =>
    simp only [issueTruncate, List.mem_cons, List.not_mem_nil, or_false] at ha
    rcases ha with rfl | rfl
    · trivial
    · exact ⟨⟨entries, hev⟩, hnt, rfl, rfl⟩
  | fatal =>
    rw [List.mem_singleton.mp ha]
    trivial
  | finish _ _ =>
    obtain ⟨c, rfl⟩ := finishValidation_out _ a ha
    trivial
  | shrink entries o _ _ _ =>
    rw [List.mem_singleton.mp ha]
    trivial
  | observeTerm term base _ hlt _ =>
    simp only [onDataTermObserved, hlt, if_true] at ha
    rw [List.mem_singleton.mp ha]
    trivial
  | revert epoch target _ =>
    obtain ⟨_, _, _, _, rfl⟩ := revertConfig_out _ _ a ha
    trivial
  | observeConfig position config _ _ =>
    rcases adoptConfig_out _ _ _ a ha with ⟨_, _, _, _, rfl⟩ | rfl <;> trivial
  | _ => cases ha
theorem Steps.mem_split {ev : Event} {out : List Action} (h : Steps ev s s' out) {a : Action}
    (ha : a ∈ out) :
    ∃ s1 s2 out1 out2 out3, Steps ev s s1 out1 ∧ Trans ev s1 s2 out2 ∧ a ∈ out2 ∧
      Steps ev s2 s' out3 ∧ out = out1 ++ out2 ++ out3 := by
  induction h with
  | nil => cases ha
  | @cons s s1 s2 out out' ht hs ih =>
    rcases List.mem_append.mp ha with ha | ha
    · exact ⟨s, s1, [], out, out', .nil, ht, ha, hs, rfl⟩
    · obtain ⟨t1, t2, o1, o2, o3, h1, h2, h3, h4, rfl⟩ := ih ha
      exact ⟨t1, t2, out ++ o1, o2, o3, .cons ht h1, h2, h3, h4, by simp⟩

/-! ## Commits -/

variable {c term : ℕ}

theorem not_mem_adoptTerm (s : ElectionSm) : .advanceCommit c ∉ (adoptTerm term none s).2 := by
  intro h
  rcases adoptTerm_out _ _ _ _ h with h | h <;> cases h

theorem not_mem_adoptIfHigher (s : ElectionSm) : .advanceCommit c ∉ (adoptIfHigher term s).2 := by
  unfold adoptIfHigher
  split
  · exact not_mem_adoptTerm s
  · simp

theorem not_mem_stepDown (s : ElectionSm) : .advanceCommit c ∉ s.stepDownToFollower.2 := by
  intro h
  rcases stepDownToFollower_out _ _ h with h | h <;> cases h

theorem not_mem_onIdleTick {c nowNs : ℕ} (s : ElectionSm) :
    .advanceCommit c ∉ (onIdleTick nowNs s).2 := by
  unfold onIdleTick
  split_ifs
  · simp
  · simp only [startElection, andThen_snd]
    split_ifs <;> simp [becomeLeader]
  · simp
  · simp

theorem not_mem_handleRequestVote {c lastTerm lastDurable : ℕ} {src : NodeId} (s : ElectionSm) :
    .advanceCommit c ∉ (handleRequestVote src lastTerm lastDurable s).2 := by
  unfold handleRequestVote
  dsimp only
  split <;> split_ifs <;> simp [grantVote]

theorem not_mem_onVote {src : NodeId} {granted : Bool} (s : ElectionSm) :
    .advanceCommit c ∉ (onVote src granted s).2 := by
  unfold onVote
  dsimp only
  split_ifs <;> simp [becomeLeader]

theorem not_mem_revertConfig {c target : ℕ} (s : ElectionSm) :
    .advanceCommit c ∉ (revertConfig target s).2 := by
  intro h
  obtain ⟨_, _, _, _, h⟩ := revertConfig_out _ _ _ h
  cases h

theorem not_mem_adoptConfig {c position : ℕ} {config : ClusterConfig} (s : ElectionSm) :
    .advanceCommit c ∉ (adoptConfig position config s).2 := by
  intro h
  rcases adoptConfig_out _ _ _ _ h with ⟨_, _, _, _, h⟩ | h <;> cases h

theorem mem_advanceGossipCommit (h : .advanceCommit c ∈ s.advanceGossipCommit.2) :
    s.awaitingReconcile = false ∧ s.role ≠ .leader ∧ c ≤ s.validatedUpTo := by
  unfold advanceGossipCommit at h
  split at h
  · simp at h
  · rename_i hno
    push Not at hno
    dsimp only at h
    split at h
    · simp at h
      exact ⟨by simpa using hno.1, hno.2, by omega⟩
    · simp at h

theorem mem_finishValidation (h : .advanceCommit c ∈ s.finishValidation.2) :
    s.awaitingReconcile ∧ s.role ≠ .leader ∧ c ≤ s.validatedUpTo := by
  unfold finishValidation at h
  split at h
  · obtain ⟨-, hr, hc⟩ := mem_advanceGossipCommit h
    exact ⟨‹_›, hr, hc⟩
  · simp at h

/-- The ways in which a step emits `AdvanceCommit(c)`. -/
inductive CommitBy (s : ElectionSm) (c : ℕ) : Event → Prop
  /-- A leader ranks; its term stays. -/
  | rank {ev} : s.role = .leader → (s.step ev).1.currentTerm = s.currentTerm → CommitBy s c ev
  /-- A follower's gossip, under the latch and the frontier. -/
  | gossip (commit : ℕ) : s.truncatingEpoch = none → s.awaitingReconcile = false →
      s.role ≠ .leader → c ≤ s.validatedUpTo → CommitBy s c (.commitGossip s.currentTerm commit)
  /-- A clean reconcile. -/
  | clean (term : ℕ) (entries : TermMap) (o : Outcome) : s.truncatingEpoch = none →
      s.currentTerm ≤ term → reconcile s.termMap s.durable entries = .ok o →
      s.durable ≤ o.validUpTo → c ≤ o.validUpTo → CommitBy s c (.termMapReceived term entries)
  /-- The matching ack of a cut. -/
  | ack (epoch target : ℕ) : s.truncatingEpoch = some epoch → c ≤ s.validatedUpTo →
      CommitBy s c (.truncated epoch target)

theorem rankLeader_currentTerm (nowNs : ℕ) (s : ElectionSm) :
    (rankLeader nowNs s).1.currentTerm = s.currentTerm := by
  rw [rankLeader_eq]

theorem onTick_currentTerm (nowNs : ℕ) (h : s.role = .leader) :
    (onTick nowNs s).1.currentTerm = s.currentTerm := by
  rw [onTick_leader nowNs h, andThen_fst]
  split <;> exact rankLeader_currentTerm nowNs _

theorem not_mem_onTick {c nowNs : ℕ} (h : s.role ≠ .leader) :
    .advanceCommit c ∉ (onTick nowNs s).2 := by
  unfold onTick
  dsimp only
  split
  · exact absurd ‹_› h
  · exact not_mem_onIdleTick _
  · exact not_mem_onIdleTick _

theorem onReport_currentTerm (src : NodeId) (durable durableTerm : ℕ) (s : ElectionSm) :
    (onReport src durable durableTerm s).1.currentTerm = s.currentTerm := by
  rw [onReport_eq]
  split
  · rfl
  · dsimp only
    split
    · exact rankLeader_currentTerm _ _
    · rfl

theorem not_mem_onReport {c durable durableTerm : ℕ} {src : NodeId} (h : s.role ≠ .leader) :
    .advanceCommit c ∉ (onReport src durable durableTerm s).2 := by
  rw [onReport_eq]
  split
  · simp
  · dsimp only
    split
    · exact absurd ‹_› h
    · simp

theorem mem_onCommitGossip {c term commit : ℕ}
    (h : .advanceCommit c ∈ (onCommitGossip term commit s).2) :
    s.awaitingReconcile = false ∧ s.role ≠ .leader ∧ c ≤ s.validatedUpTo := by
  unfold onCommitGossip at h
  simp only [andThen_snd, List.mem_append] at h
  by_cases hr : s.role = .candidate
  · simp only [hr, if_true] at h
    rcases h with h | h
    · exact absurd h (not_mem_stepDown _)
    · split at h
      · obtain ⟨ha, -, hc⟩ := mem_advanceGossipCommit h
        exact ⟨ha, by simp [hr], hc⟩
      · simp at h
  · simp only [hr, if_false] at h
    rcases h with h | h
    · simp at h
    · split at h
      · obtain ⟨ha, hr', hc⟩ := mem_advanceGossipCommit h
        exact ⟨ha, hr', hc⟩
      · simp at h

theorem mem_reconcileTermMap {entries : TermMap}
    (h : .advanceCommit c ∈ (reconcileTermMap entries s).2) :
    ∃ o, reconcile s.termMap s.durable entries = .ok o ∧ s.durable ≤ o.validUpTo ∧
      c ≤ o.validUpTo := by
  unfold reconcileTermMap at h
  split at h
  · split at h <;> simp [issueTruncate] at h
  · rename_i o hrec
    split at h
    · simp [issueTruncate] at h
    · rename_i hlt
      refine ⟨o, hrec, not_lt.mp hlt, ?_⟩
      obtain ⟨c', src, hg⟩ := advanceGossipCommit_frame
        { s with validatedUpTo := o.validUpTo, unconfirmedBoundary := false }
      simp only [andThen_snd, List.mem_append] at h
      rcases h with (h | h) | h
      · exact (mem_advanceGossipCommit h).2.2
      · rw [hg] at h
        exact (mem_finishValidation h).2.2
      · split at h <;> simp at h

theorem mem_onTruncated {c epoch target : ℕ} (h : .advanceCommit c ∈ (onTruncated epoch target s).2) :
    s.truncatingEpoch = some epoch ∧ c ≤ s.validatedUpTo := by
  by_cases hmatch : s.truncatingEpoch = some epoch
  · refine ⟨hmatch, ?_⟩
    unfold onTruncated at h
    dsimp only at h
    rw [if_neg (not_not.mpr hmatch), andThen_snd, List.mem_append] at h
    rcases h with h | h
    · exact (mem_finishValidation h).2.2
    · exact absurd h (not_mem_revertConfig _)
  · rw [onTruncated_stale s target hmatch] at h
    simp at h

theorem commitBy_of_mem {ev : Event} (h : .advanceCommit c ∈ (s.step ev).2) : CommitBy s c ev := by
  by_cases hl : s.truncatingEpoch.isSome && !ev.passesLatch
  · rw [step, if_pos hl] at h
    simp at h
  have hbody : s.step ev = stepBody ev s := by rw [step, if_neg hl]
  rw [hbody] at h
  cases ev with
  | tick nowNs =>
    by_cases hrole : s.role = .leader
    · refine .rank hrole ?_
      rw [hbody]
      exact onTick_currentTerm nowNs hrole
    · exact absurd h (not_mem_onTick hrole)
  | durableAdvanced durable => simp [stepBody] at h
  | newTermAppended position =>
    simp only [stepBody] at h
    split at h <;> simp at h
  | leaderSeen term =>
    simp only [stepBody] at h
    split_ifs at h
    · simp at h
    · simp only [andThen_snd, List.mem_append] at h
      rcases h with h | h
      · exact absurd h (not_mem_adoptIfHigher s)
      · split_ifs at h
        · exact absurd h (not_mem_stepDown _)
        · simp at h
  | report src term durable durableTerm =>
    by_cases hrole : s.role = .leader
    · simp only [stepBody] at h
      split_ifs at h with h1 h2
      · simp at h
      · exact absurd h (not_mem_adoptTerm s)
      · refine .rank hrole ?_
        rw [hbody]
        simp only [stepBody, h1, h2, if_false]
        exact onReport_currentTerm src durable durableTerm s
    · simp only [stepBody] at h
      split_ifs at h
      · simp at h
      · exact absurd h (not_mem_adoptTerm s)
      · exact absurd h (not_mem_onReport hrole)
  | commitGossip term commit =>
    have hnt : s.truncatingEpoch = none := by simpa [Event.passesLatch] using hl
    simp only [stepBody] at h
    split_ifs at h with hlt
    · simp at h
    · simp only [andThen_snd, List.mem_append] at h
      rcases h with h | h
      · exact absurd h (not_mem_adoptIfHigher s)
      obtain ⟨ha, hr, hc⟩ := mem_onCommitGossip h
      by_cases hgt : s.currentTerm < term
      · simp [adoptIfHigher, hgt] at ha
      · obtain rfl : s.currentTerm = term := by omega
        simp only [adoptIfHigher, lt_irrefl, if_false] at ha hr hc
        exact .gossip commit hnt ha hr hc
  | requestVote src newTerm lastTerm lastDurable =>
    simp only [stepBody] at h
    split_ifs at h
    · simp at h
    · simp only [andThen_snd, List.mem_append] at h
      rcases h with h | h
      · exact absurd h (not_mem_adoptIfHigher s)
      · exact absurd h (not_mem_handleRequestVote _)
    · exact absurd h (not_mem_adoptIfHigher s)
    · simp at h
  | vote src term granted =>
    simp only [stepBody] at h
    split_ifs at h
    · simp at h
    · exact absurd h (not_mem_adoptTerm s)
    · exact absurd h (not_mem_onVote s)
  | termMapReceived term entries =>
    have hnt : s.truncatingEpoch = none := by simpa [Event.passesLatch] using hl
    simp only [stepBody] at h
    split_ifs at h with hlt
    · simp at h
    · simp only [andThen_snd, List.mem_append] at h
      rcases h with h | h
      · exact absurd h (not_mem_adoptIfHigher s)
      obtain ⟨o, hrec, hle, hc⟩ := mem_reconcileTermMap h
      rw [adoptIfHigher_termMap, adoptIfHigher_durable] at hrec
      rw [adoptIfHigher_durable] at hle
      exact .clean term entries o hnt (not_lt.mp hlt) hrec hle hc
  | dataTermObserved term base =>
    simp only [stepBody, onDataTermObserved] at h
    split at h <;> simp at h
  | truncated epoch target =>
    obtain ⟨hmatch, hc⟩ := mem_onTruncated h
    exact .ack epoch target hmatch hc
  | configObserved position config =>
    simp only [stepBody] at h
    split_ifs at h
    · simp at h
    · exact absurd h (not_mem_adoptConfig s)

end ElectionSm

end UltimaCluster
