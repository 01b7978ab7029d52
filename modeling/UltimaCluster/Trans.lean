/-
  A step of the election state machine as a sequence of elementary
  transitions.

  `Trans ev s s' out` lists once what can happen while `ev` is processed, with
  the guards under which it happens; `step_steps` says that every step is a
  sequence of such transitions.  Invariants are proved per transition.
-/
import UltimaCluster.Effects

namespace UltimaCluster

/-- The term that an event carries into the term comparison of `step`. -/
def Event.term? : Event → Option ℕ
  | .leaderSeen term | .report _ term _ _ | .commitGossip term _ | .requestVote _ term _ _
  | .vote _ term _ | .termMapReceived term _ => some term
  | _ => none

namespace ElectionSm

/-- The truncations that a list of actions issues, as `(epoch, target)`. -/
def truncates (out : List Action) : List (ℕ × ℕ) :=
  out.filterMap fun a => match a with
    | .truncate epoch target _ => some (epoch, target)
    | _ => none

/-- All that a `step` can do. -/
inductive Trans (ev : Event) : ElectionSm → ElectionSm → List Action → Prop
  /-- Clocks, timers and diagnostics. -/
  | timers {s} (rng : XorShift64) (deadline tick gossip unattested sourceTerm : ℕ) (pla : Bool) :
      Trans ev s { s with
        rng, timeoutDeadlineNs := deadline, lastTickNs := tick, lastGossipNs := gossip
        reportsUnattested := unattested, commitSourceTerm := sourceTerm
        pendingLeaderActivity := pla } []
  /-- The idle re-gossip floor; the ranking before it may have ended the
      leadership of a demoted node. -/
  | floor {s} (nowNs : ℕ) : ev = .tick nowNs →
      s.role = .leader ∨ s.config.isVoter s.id = false →
      Trans ev s { s with lastGossipNs := nowNs }
        [.gossipCommit s.commitSeen, .shipTermMap s.termMapWireTail]
  | adopt {s} (term : ℕ) : s.currentTerm < term → ev.term? = some term →
      Trans ev s (adoptTerm term none s).1 (adoptTerm term none s).2
  | stepDown {s} : s.role = .candidate → ev.term? = some s.currentTerm →
      Trans ev s s.stepDownToFollower.1 s.stepDownToFollower.2
  | candidacy {s} (nowNs : ℕ) : ev = .tick nowNs → s.role ≠ .leader → s.canVote →
      s.truncatingEpoch = none →
      Trans ev s { s with
          currentTerm := s.currentTerm + 1, role := .candidate, serving := false
          newTermPos := none, votedFor := some (s.currentTerm + 1, s.id), votesReceived := [s.id] }
        [.persistAndSendVote s.id ⟨s.currentTerm + 1, s.id, s.id⟩,
          .startElection (s.currentTerm + 1) s.termMap.lastTerm s.durable]
  | win {s} : (∃ src, ev = .vote src s.currentTerm true) ∨ (∃ nowNs, ev = .tick nowNs) →
      s.role = .candidate → s.majority ≤ s.votesReceived.length →
      Trans ev s s.becomeLeader.1 s.becomeLeader.2
  | countVote {s} (src : NodeId) : ev = .vote src s.currentTerm true → s.role = .candidate →
      src ∈ s.members → src ∉ s.votesReceived →
      Trans ev s { s with votesReceived := s.votesReceived ++ [src] } []
  | grant {s} (src : NodeId) (lastTerm lastDurable : ℕ) :
      ev = .requestVote src s.currentTerm lastTerm lastDurable → src ∈ s.members → s.canVote →
      s.votedFor = some (s.currentTerm, src) ∨
        ((∀ v, s.votedFor ≠ some (s.currentTerm, v)) ∧ s.logOk lastTerm lastDurable) →
      Trans ev s (grantVote src s).1 (grantVote src s).2
  | reject {s} (src : NodeId) : Trans ev s s [.sendVoteRejection src s.currentTerm]
  | rank {s} (nowNs : ℕ) : s.role = .leader →
      (∃ tick, ev = .tick tick) ∨
        (∃ src durable durableTerm, ev = .report src s.currentTerm durable durableTerm) →
      Trans ev s (rankLeader nowNs s).1 (rankLeader nowNs s).2
  | carryReport {s} (src : NodeId) (durable durableTerm : ℕ) :
      ev = .report src s.currentTerm durable durableTerm →
      (0 < durable → durableTerm = s.termAt durable) → s.config.contains src → src ≠ s.id →
      (s.role = .leader → s.followerSlot src = none) →
      Trans ev s { s with lastReports := upsertReport src durable s.lastReports } []
  | trackReport {s} (src : NodeId) (durable durableTerm slot : ℕ) :
      ev = .report src s.currentTerm durable durableTerm →
      (0 < durable → durableTerm = s.termAt durable) → s.role = .leader →
      s.followerSlot src = some slot →
      Trans ev s { s with
        lastReports := if s.config.contains src && src != s.id then
          upsertReport src durable s.lastReports else s.lastReports
        tracker := s.tracker.onDurable slot durable } []
  | durableAdvance {s} (durable : ℕ) : ev = .durableAdvanced durable →
      Trans ev s (onDurableAdvanced durable s) []
  | openTerm {s} (position : ℕ) : ev = .newTermAppended position → s.role = .leader →
      Trans ev s { s with
        newTermPos := some position
        serving := s.serving || decide (position ≤ s.commitSeen) } []
  | deferCommit {s} (commit : ℕ) : ev = .commitGossip s.currentTerm commit → s.role ≠ .leader →
      s.commitSeen < commit →
      Trans ev s { s with deferredCommit := max s.deferredCommit commit } []
  | gossip {s} : s.truncatingEpoch = none →
      (∃ commit, ev = .commitGossip s.currentTerm commit) ∨
        (∃ entries o, ev = .termMapReceived s.currentTerm entries ∧
          reconcile s.termMap s.durable entries = .ok o ∧ s.validatedUpTo = o.validUpTo) →
      Trans ev s s.advanceGossipCommit.1 s.advanceGossipCommit.2
  | cut {s} (entries : TermMap) (o : Outcome) : ev = .termMapReceived s.currentTerm entries →
      reconcile s.termMap s.durable entries = .ok o → o.validUpTo < s.durable →
      s.truncatingEpoch = none →
      Trans ev s { (issueTruncate o.validUpTo o.newMap s).1 with
          validatedUpTo := o.validUpTo, unconfirmedBoundary := false }
        (issueTruncate o.validUpTo o.newMap s).2
  | wipe {s} (entries : TermMap) : ev = .termMapReceived s.currentTerm entries →
      reconcile s.termMap s.durable entries = .noCommonPrefix → s.truncatingEpoch = none →
      Trans ev s (issueTruncate 0 [] s).1 (.countWipe :: (issueTruncate 0 [] s).2)
  | fatal {s} : Trans ev s s [.fatal noCommonPrefixReason]
  /-- A clean reconcile: the frontier, the deferred gossip, the map. -/
  | clean {s} (entries : TermMap) (o : Outcome) : ev = .termMapReceived s.currentTerm entries →
      reconcile s.termMap s.durable entries = .ok o → s.durable ≤ o.validUpTo →
      s.truncatingEpoch = none →
      Trans ev s { s with validatedUpTo := o.validUpTo, unconfirmedBoundary := false } []
  | finish {s} : s.awaitingReconcile →
      (∃ entries o, ev = .termMapReceived s.currentTerm entries ∧
          reconcile s.termMap s.durable entries = .ok o ∧ s.durable ≤ o.validUpTo ∧
          s.validatedUpTo = o.validUpTo) ∨
        (∃ epoch target, ev = .truncated epoch target) →
      Trans ev s s.finishValidation.1 s.finishValidation.2
  | shrink {s} (entries : TermMap) (o : Outcome) : ev = .termMapReceived s.currentTerm entries →
      reconcile s.termMap s.durable entries = .ok o → s.durable ≤ o.validUpTo →
      Trans ev s { s with termMap := o.newMap } [.persistTermMap o.newMap]
  | observeTerm {s} (term base : ℕ) : ev = .dataTermObserved term base →
      s.termMap.lastTerm < term → s.truncatingEpoch = none →
      Trans ev s (onDataTermObserved term base s).1 (onDataTermObserved term base s).2
  | clamp {s} (epoch target : ℕ) : ev = .truncated epoch target →
      Trans ev s { s with durable := min s.durable target } []
  /-- The matching ack: adopt the pending map and release the latch. -/
  | settle {s} (epoch target : ℕ) : ev = .truncated epoch target →
      s.truncatingEpoch = some epoch →
      Trans ev s { s with
        termMap := s.pendingNewMap.getD s.termMap, pendingNewMap := none
        truncatingEpoch := none } []
  | revert {s} (epoch target : ℕ) : ev = .truncated epoch target →
      Trans ev s (revertConfig target s).1 (revertConfig target s).2
  | observeConfig {s} (position : ℕ) (config : ClusterConfig) :
      ev = .configObserved position config → s.config.version < config.version →
      Trans ev s (adoptConfig position config s).1 (adoptConfig position config s).2

/-- A sequence of transitions, with the actions in order. -/
inductive Steps (ev : Event) : ElectionSm → ElectionSm → List Action → Prop
  | nil {s} : Steps ev s s []
  | cons {s s' s'' out out'} : Trans ev s s' out → Steps ev s' s'' out' →
      Steps ev s s'' (out ++ out')

namespace Steps

variable {ev : Event} {s s' s'' : ElectionSm} {out out' : List Action}

theorem single (h : Trans ev s s' out) : Steps ev s s' out := by
  have := Steps.cons h .nil
  rwa [List.append_nil] at this

theorem trans (h : Steps ev s s' out) (h' : Steps ev s' s'' out') :
    Steps ev s s'' (out ++ out') := by
  induction h with
  | nil => exact h'
  | cons ht _ ih => rw [List.append_assoc]; exact .cons ht (ih h')

theorem invariant {P : ElectionSm → Prop} (hP : ∀ s s' out, Trans ev s s' out → P s → P s')
    (h : Steps ev s s' out) (hs : P s) : P s' := by
  induction h with
  | nil => exact hs
  | cons ht _ ih => exact ih (hP _ _ _ ht hs)

end Steps

/-! ## Every step is a sequence of transitions -/

section

variable {ev : Event}

variable {s s' : ElectionSm}

theorem Steps.andThen {r : ElectionSm × List Action} {f : ElectionSm → ElectionSm × List Action}
    (h : Steps ev s r.1 r.2) (hf : Steps ev r.1 (f r.1).1 (f r.1).2) :
    Steps ev s (ElectionSm.andThen r f).1 (ElectionSm.andThen r f).2 :=
  h.trans hf

variable {out : List Action}

theorem Steps.silent {s s' s'' : ElectionSm} (h : Trans ev s s' []) (h' : Steps ev s' s'' out) :
    Steps ev s s'' out :=
  .cons h h'

theorem Trans.heard (s : ElectionSm) : Trans ev s { s with pendingLeaderActivity := true } [] :=
  .timers s.rng s.timeoutDeadlineNs s.lastTickNs s.lastGossipNs s.reportsUnattested
    s.commitSourceTerm true

theorem Steps.timers (rng : XorShift64) (deadline tick gossip unattested sourceTerm : ℕ)
    (pla : Bool) :
    Steps ev s { s with
        rng, timeoutDeadlineNs := deadline, lastTickNs := tick, lastGossipNs := gossip
        reportsUnattested := unattested, commitSourceTerm := sourceTerm
        pendingLeaderActivity := pla } [] :=
  .single (.timers rng deadline tick gossip unattested sourceTerm pla)

theorem adoptIfHigher_steps {term : ℕ} (hev : ev.term? = some term) :
    Steps ev s (adoptIfHigher term s).1 (adoptIfHigher term s).2 := by
  unfold adoptIfHigher
  split
  · exact .single (.adopt term ‹_› hev)
  · exact .nil

theorem adoptIfHigher_currentTerm {term : ℕ} (h : ¬ term < s.currentTerm) :
    (adoptIfHigher term s).1.currentTerm = term := by
  unfold adoptIfHigher
  split
  · rfl
  · dsimp only; omega

section

variable (s : ElectionSm) (term : ℕ)

@[simp] theorem adoptIfHigher_truncatingEpoch :
    (adoptIfHigher term s).1.truncatingEpoch = s.truncatingEpoch := by
  unfold adoptIfHigher
  split <;> rfl

@[simp] theorem adoptIfHigher_members : (adoptIfHigher term s).1.members = s.members := by
  unfold adoptIfHigher
  split <;> rfl

@[simp] theorem adoptIfHigher_canVote : (adoptIfHigher term s).1.canVote = s.canVote := by
  unfold adoptIfHigher
  split <;> rfl

@[simp] theorem adoptIfHigher_termMap : (adoptIfHigher term s).1.termMap = s.termMap := by
  unfold adoptIfHigher
  split <;> rfl

@[simp] theorem adoptIfHigher_durable : (adoptIfHigher term s).1.durable = s.durable := by
  unfold adoptIfHigher
  split <;> rfl

end

theorem armTimeout_steps (s : ElectionSm) (nowNs : ℕ) : Steps ev s (s.armTimeout nowNs) [] := by
  obtain ⟨r, d, h⟩ := armTimeout_frame s nowNs
  rw [h]
  exact .timers r d s.lastTickNs s.lastGossipNs s.reportsUnattested s.commitSourceTerm
    s.pendingLeaderActivity

theorem startElection_steps {nowNs : ℕ} (hev : ev = .tick nowNs) (hr : s.role ≠ .leader)
    (hv : s.canVote) (hnt : s.truncatingEpoch = none) :
    Steps ev s (startElection nowNs s).1 (startElection nowNs s).2 := by
  refine Steps.andThen ?_ ?_
  · have hcand := Steps.single (Trans.candidacy nowNs hev hr hv hnt)
    exact (hcand.trans (armTimeout_steps _ nowNs)).trans (Steps.timers _ _ _ _ _ _ false)
  · split
    · refine .single (.win (.inr ⟨nowNs, hev⟩) ?_ ‹_›)
      obtain ⟨r, d, h⟩ := armTimeout_frame { s with
        currentTerm := s.currentTerm + 1, role := .candidate, serving := false
        newTermPos := none, votedFor := some (s.currentTerm + 1, s.id)
        votesReceived := [s.id] } nowNs
      rw [h]
    · exact .nil

theorem onIdleTick_steps {nowNs : ℕ} (hev : ev = .tick nowNs) (hr : s.role ≠ .leader)
    (hnt : s.truncatingEpoch = none) :
    Steps ev s (onIdleTick nowNs s).1 (onIdleTick nowNs s).2 := by
  unfold onIdleTick
  split_ifs
  · have hp : Steps ev s { s with pendingLeaderActivity := false } [] :=
      .timers s.rng s.timeoutDeadlineNs s.lastTickNs s.lastGossipNs s.reportsUnattested
        s.commitSourceTerm false
    exact hp.trans (armTimeout_steps _ nowNs)
  · exact startElection_steps hev hr ‹_› hnt
  · exact armTimeout_steps _ nowNs
  · exact .nil

theorem onTick_steps {nowNs : ℕ} (hev : ev = .tick nowNs) (hnt : s.truncatingEpoch = none) :
    Steps ev s (onTick nowNs s).1 (onTick nowNs s).2 := by
  have ht : Steps ev s { s with lastTickNs := nowNs } [] :=
    .timers s.rng s.timeoutDeadlineNs nowNs s.lastGossipNs s.reportsUnattested
      s.commitSourceTerm s.pendingLeaderActivity
  unfold onTick
  dsimp only
  split
  · rename_i hr
    refine Steps.andThen (ht.trans (.single (.rank nowNs hr (.inl ⟨nowNs, hev⟩)))) ?_
    split
    · refine .single (.floor nowNs hev ?_)
      obtain ⟨_, _, _, _, _, _, _, _, hf⟩ := rankLeader_frame { s with lastTickNs := nowNs } nowNs
      rcases rankLeader_leads { s with lastTickNs := nowNs } nowNs with h | h
      · exact .inl (h.trans hr)
      · right
        rw [hf]
        exact h
    · exact .nil
  · rename_i hr
    exact ht.trans (onIdleTick_steps hev (by simp [hr]) hnt)
  · rename_i hr
    exact ht.trans (onIdleTick_steps hev (by simp [hr]) hnt)

theorem onReport_steps {src : NodeId} {durable durableTerm : ℕ}
    (hev : ev = .report src s.currentTerm durable durableTerm) :
    Steps ev s (onReport src durable durableTerm s).1 (onReport src durable durableTerm s).2 := by
  rw [onReport_eq]
  split
  · exact .timers s.rng s.timeoutDeadlineNs s.lastTickNs s.lastGossipNs _ s.commitSourceTerm
      s.pendingLeaderActivity
  · rename_i hatt
    have hatt : 0 < durable → durableTerm = s.termAt durable := by
      intro h0
      by_contra hne
      exact hatt ⟨h0, hne⟩
    dsimp only
    split
    · rename_i hrole hslot
      exact .silent (.trackReport src durable durableTerm _ hev hatt hrole hslot)
        (.single (.rank _ hrole (.inr ⟨src, durable, durableTerm, hev⟩)))
    · rename_i hno
      split
      · rename_i hc
        rw [Bool.and_eq_true, bne_iff_ne] at hc
        refine .single (.carryReport src durable durableTerm hev hatt hc.1 hc.2 ?_)
        intro hrole
        by_contra hsome
        obtain ⟨slot, hslot⟩ := Option.ne_none_iff_exists'.mp hsome
        exact hno slot hrole hslot
      · exact .nil

theorem onCommitGossip_steps {term commit : ℕ} (hterm : s.currentTerm = term)
    (hev : ev = .commitGossip term commit) (hnt : s.truncatingEpoch = none) :
    Steps ev s (onCommitGossip term commit s).1 (onCommitGossip term commit s).2 := by
  have ht : Steps ev s { s with pendingLeaderActivity := true } [] := .single (.heard s)
  unfold onCommitGossip
  have hdown : ∃ s', (if s.role = .candidate then
        stepDownToFollower { s with pendingLeaderActivity := true }
        else ({ s with pendingLeaderActivity := true }, [])).1 = s' ∧ s'.currentTerm = term ∧
      s'.truncatingEpoch = none ∧
      Steps ev s s' (if s.role = .candidate then
        stepDownToFollower { s with pendingLeaderActivity := true }
        else ({ s with pendingLeaderActivity := true }, [])).2 := by
    refine ⟨_, rfl, ?_, ?_, ?_⟩
    · split <;> exact hterm
    · split <;> exact hnt
    · split
      · refine ht.trans (.single (.stepDown ‹_› ?_))
        rw [hev, ← hterm]
        rfl
      · exact ht
  obtain ⟨s', hs', ht', hnt', hsteps⟩ := hdown
  refine Steps.andThen (by rw [hs']; exact hsteps) ?_
  rw [hs']
  split
  · rename_i hg
    have hdefer : Trans ev s' { s' with deferredCommit := max s'.deferredCommit commit } [] :=
      .deferCommit commit (by rw [hev, ht']) hg.1 hg.2
    exact .silent hdefer (.silent (.timers s'.rng s'.timeoutDeadlineNs s'.lastTickNs s'.lastGossipNs
      s'.reportsUnattested term s'.pendingLeaderActivity)
      (.single (.gossip hnt' (.inl ⟨commit, by rw [hev, ht']⟩))))
  · exact .nil

theorem handleRequestVote_steps {src : NodeId} {lastTerm lastDurable : ℕ}
    (hev : ev = .requestVote src s.currentTerm lastTerm lastDurable) (hm : src ∈ s.members)
    (hv : s.canVote) :
    Steps ev s (handleRequestVote src lastTerm lastDurable s).1
      (handleRequestVote src lastTerm lastDurable s).2 := by
  have hfresh : (∀ v, s.votedFor ≠ some (s.currentTerm, v)) → Steps ev s
      (if s.logOk lastTerm lastDurable then grantVote src s
        else (s, [.sendVoteRejection src s.currentTerm])).1
      (if s.logOk lastTerm lastDurable then grantVote src s
        else (s, [.sendVoteRejection src s.currentTerm])).2 := by
    intro hno
    split
    · exact .single (.grant src lastTerm lastDurable hev hm hv (.inr ⟨hno, ‹_›⟩))
    · exact .single (.reject src)
  unfold handleRequestVote
  dsimp only
  split
  · rename_i vt vid hvote
    split
    · rename_i hvt
      split
      · rename_i hvid
        refine .single (.grant src lastTerm lastDurable hev hm hv (.inl ?_))
        rw [hvote, hvt, hvid]
      · exact .single (.reject src)
    · rename_i hvt
      refine hfresh ?_
      intro v hv'
      rw [hvote] at hv'
      simp at hv'
      exact hvt hv'.1
  · rename_i hvote
    exact hfresh (by simp [hvote])

theorem onVote_steps {src : NodeId} {granted : Bool} (hev : ev = .vote src s.currentTerm granted) :
    Steps ev s (onVote src granted s).1 (onVote src granted s).2 := by
  unfold onVote
  split
  · exact .nil
  · rename_i hm
    split
    · rename_i hg
      obtain ⟨hg, hrole⟩ := hg
      subst hg
      have hcount : ∃ vr, (if s.votesReceived.contains src then s
            else { s with votesReceived := s.votesReceived ++ [src] }) =
            { s with votesReceived := vr } ∧ Steps ev s { s with votesReceived := vr } [] := by
        split
        · exact ⟨s.votesReceived, rfl, .nil⟩
        · rename_i hnot
          exact ⟨_, rfl, .single (.countVote src hev hrole (by simpa using hm)
            (by simpa using hnot))⟩
      obtain ⟨vr, heq, hvr⟩ := hcount
      rw [heq]
      dsimp only
      split
      · exact hvr.trans (.single (.win (.inl ⟨src, hev⟩) hrole ‹_›))
      · exact hvr
    · exact .nil

theorem finishValidation_steps (h : (∃ entries o, ev = .termMapReceived s.currentTerm entries ∧
          reconcile s.termMap s.durable entries = .ok o ∧ s.durable ≤ o.validUpTo ∧
          s.validatedUpTo = o.validUpTo) ∨
        (∃ epoch target, ev = .truncated epoch target)) :
    Steps ev s s.finishValidation.1 s.finishValidation.2 := by
  by_cases ha : s.awaitingReconcile
  · exact .single (.finish ha h)
  · simp only [finishValidation, ha]
    exact .nil

theorem reconcileTermMap_steps {entries : TermMap}
    (hev : ev = .termMapReceived s.currentTerm entries) (hnt : s.truncatingEpoch = none) :
    Steps ev s (reconcileTermMap entries s).1 (reconcileTermMap entries s).2 := by
  unfold reconcileTermMap
  split
  · rename_i hrec
    split
    · exact .single (.wipe entries hev hrec hnt)
    · exact .single .fatal
  · rename_i o hrec
    split
    · rename_i hlt
      refine Steps.single ?_
      rw [andThen_snd, List.append_nil]
      exact .cut entries o hev hrec hlt hnt
    · rename_i hlt
      have hle : s.durable ≤ o.validUpTo := not_lt.mp hlt
      obtain ⟨c, src, hg⟩ := advanceGossipCommit_frame
        { s with validatedUpTo := o.validUpTo, unconfirmedBoundary := false }
      refine Steps.andThen (Steps.andThen (.silent (.clean entries o hev hrec hle hnt)
        (.single (.gossip hnt (.inr ⟨entries, o, hev, hrec, rfl⟩)))) ?_) ?_
      · rw [hg]
        exact finishValidation_steps (.inl ⟨entries, o, hev, hrec, hle, rfl⟩)
      · rw [andThen_fst, hg]
        obtain ⟨c', src', hf⟩ := finishValidation_frame { s with
          validatedUpTo := o.validUpTo, unconfirmedBoundary := false
          commitSeen := c, commitSource := src }
        rw [hf]
        split
        · exact .nil
        · exact .single (.shrink entries o hev hrec hle)

theorem onTruncated_steps {epoch target : ℕ} (hev : ev = .truncated epoch target) :
    Steps ev s (onTruncated epoch target s).1 (onTruncated epoch target s).2 := by
  have hclamp : Steps ev s { s with durable := min s.durable target } [] :=
    .single (.clamp epoch target hev)
  unfold onTruncated
  dsimp only
  split
  · exact hclamp
  · rename_i hmatch
    refine Steps.andThen (hclamp.trans (.silent (.settle epoch target hev (not_not.mp hmatch)) ?_))
      (.single (.revert epoch target hev))
    exact finishValidation_steps (.inr ⟨epoch, target, hev⟩)

theorem stepBody_steps (hl : s.truncatingEpoch = none ∨ ev.passesLatch) :
    Steps ev s (stepBody ev s).1 (stepBody ev s).2 := by
  cases ev with
  | tick nowNs => exact onTick_steps rfl (by simpa [Event.passesLatch] using hl)
  | durableAdvanced durable => exact .single (.durableAdvance durable rfl)
  | newTermAppended position =>
    dsimp only [stepBody]
    split
    · exact .single (.openTerm position rfl ‹_›)
    · exact .nil
  | leaderSeen term =>
    dsimp only [stepBody]
    split
    · exact .nil
    · rename_i hlt
      refine Steps.andThen (adoptIfHigher_steps rfl) ?_
      have hterm := adoptIfHigher_currentTerm hlt
      split
      · exact .silent (.heard _) (.single (.stepDown ‹_› (by rw [hterm]; rfl)))
      · exact .single (.heard _)
  | report src term durable durableTerm =>
    dsimp only [stepBody]
    split_ifs with h1 h2
    · exact .nil
    · exact .single (.adopt term h2 rfl)
    · obtain rfl : s.currentTerm = term := by omega
      exact onReport_steps rfl
  | commitGossip term commit =>
    dsimp only [stepBody]
    split
    · exact .nil
    · rename_i hlt
      refine Steps.andThen (adoptIfHigher_steps rfl)
        (onCommitGossip_steps (adoptIfHigher_currentTerm hlt) rfl ?_)
      rw [adoptIfHigher_truncatingEpoch]
      simpa [Event.passesLatch] using hl
  | requestVote src newTerm lastTerm lastDurable =>
    dsimp only [stepBody]
    split_ifs with hm hv hlt
    · exact .single (.reject src)
    · refine Steps.andThen (adoptIfHigher_steps rfl) (handleRequestVote_steps ?_ ?_ ?_)
      · rw [adoptIfHigher_currentTerm hlt]
      · rw [adoptIfHigher_members]
        exact List.contains_iff_mem.mp hm
      · rw [adoptIfHigher_canVote]
        exact hv
    · exact adoptIfHigher_steps rfl
    · exact .nil
  | vote src term granted =>
    dsimp only [stepBody]
    split_ifs with h1 h2
    · exact .nil
    · exact .single (.adopt term h2 rfl)
    · obtain rfl : s.currentTerm = term := by omega
      exact onVote_steps rfl
  | termMapReceived term entries =>
    dsimp only [stepBody]
    split
    · exact .nil
    · rename_i hlt
      refine Steps.andThen (adoptIfHigher_steps rfl) (reconcileTermMap_steps ?_ ?_)
      · rw [adoptIfHigher_currentTerm hlt]
      · rw [adoptIfHigher_truncatingEpoch]
        simpa [Event.passesLatch] using hl
  | dataTermObserved term base =>
    have hnt : s.truncatingEpoch = none := by simpa [Event.passesLatch] using hl
    by_cases ht : s.termMap.lastTerm < term
    · exact .single (.observeTerm term base rfl ht hnt)
    · simp only [stepBody, onDataTermObserved, ht]
      exact .nil
  | truncated epoch target => exact onTruncated_steps rfl
  | configObserved position config =>
    dsimp only [stepBody]
    split
    · exact .nil
    · exact .single (.observeConfig position config rfl (not_le.mp ‹_›))

/-- **Every step is a sequence of transitions.** -/
theorem step_steps (s : ElectionSm) (ev : Event) : Steps ev s (s.step ev).1 (s.step ev).2 := by
  unfold step
  split
  · exact .nil
  · refine stepBody_steps ?_
    cases h : s.truncatingEpoch <;> simp_all

theorem Trans.currentTerm (h : Trans ev s s' out) :
    s'.currentTerm = s.currentTerm ∨
      (s.currentTerm < s'.currentTerm ∧ ev.term? = some s'.currentTerm) ∨
      (s'.currentTerm = s.currentTerm + 1 ∧ ∃ nowNs, ev = .tick nowNs) := by
  cases h with
  | adopt term hlt hev => exact .inr (.inl ⟨hlt, hev⟩)
  | candidacy nowNs hev => exact .inr (.inr ⟨rfl, nowNs, hev⟩)
  | rank nowNs _ _ =>
    rw [rankLeader_eq]
    exact .inl rfl
  | durableAdvance durable _ =>
    unfold onDurableAdvanced
    dsimp only
    split <;> exact .inl rfl
  | gossip _ _ =>
    rw [advanceGossipCommit_eq]
    exact .inl rfl
  | finish _ _ =>
    rw [finishValidation_eq]
    exact .inl rfl
  | observeTerm term base _ _ _ =>
    unfold onDataTermObserved
    split <;> exact .inl rfl
  | revert _ target _ =>
    rw [revertConfig_eq]
    exact .inl rfl
  | observeConfig position config _ _ =>
    rw [adoptConfig_eq]
    exact .inl rfl
  | _ => exact .inl rfl

theorem Trans.currentTerm_le (h : Trans ev s s' out) : s.currentTerm ≤ s'.currentTerm := by
  rcases h.currentTerm with h | ⟨h, -⟩ | ⟨h, -⟩ <;> omega

theorem step_currentTerm (hev : ev.term? = some s.currentTerm) :
    (s.step ev).1.currentTerm = s.currentTerm := by
  refine (step_steps s ev).invariant (P := fun s' => s'.currentTerm = s.currentTerm) ?_ rfl
  intro s1 s2 out ht h1
  rcases ht.currentTerm with h | ⟨h, h'⟩ | ⟨-, nowNs, rfl⟩
  · rw [h, h1]
  · rw [hev] at h'
    have := Option.some.inj h'
    omega
  · cases hev

end

end ElectionSm

end UltimaCluster
