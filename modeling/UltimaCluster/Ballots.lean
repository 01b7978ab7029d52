/-
  Votes: what a node stores, what a candidate counts, and that no two nodes
  lead one term.

  A vote is stored before it is sent, so it survives a crash; a candidate
  counts each voter once.  Two leaders of one term are then two majorities
  without a common voter.
-/
import UltimaCluster.Cluster
import UltimaCluster.Emission
import UltimaCluster.MapInvariant
import UltimaCluster.Lib.Quorum

namespace UltimaCluster

/-- The vote that an action stores. -/
def Action.ballot? : Action → Option (ℕ × NodeId)
  | .persistAndSendVote _ vote => some (vote.term, vote.votedFor)
  | _ => none

namespace ElectionSm

/-- The votes that a list of actions stores, as `(term, candidate)`. -/
def ballots (out : List Action) : List (ℕ × NodeId) := out.filterMap Action.ballot?

@[simp] theorem ballots_append (out out' : List Action) :
    ballots (out ++ out') = ballots out ++ ballots out' := List.filterMap_append

variable {out : List Action}

theorem mem_ballots {b : ℕ × NodeId} :
    b ∈ ballots out ↔ ∃ a ∈ out, a.ballot? = some b := List.mem_filterMap

/-- The stored vote after a list of actions. -/
def storedVote (vote : Option (ℕ × NodeId)) (out : List Action) : Option (ℕ × NodeId) :=
  out.foldl (fun vote a => a.ballot?.or vote) vote

theorem storedVote_eq (vote : Option (ℕ × NodeId)) (out : List Action) :
    storedVote vote out = (ballots out).getLast?.or vote := by
  induction out generalizing vote with
  | nil => rfl
  | cons a out ih =>
    have hstep : storedVote vote (a :: out) = storedVote (a.ballot?.or vote) out := rfl
    rw [hstep, ih]
    cases h : a.ballot? with
    | none => simp [ballots, h]
    | some b =>
      simp only [ballots, List.filterMap_cons, h, Option.some_or, List.getLast?_cons]
      cases (List.filterMap Action.ballot? out).getLast? <;> rfl

/-! ## What a transition votes -/

theorem ballots_eq_nil (h : ∀ a ∈ out, a.ballot? = none) : ballots out = [] := by
  rw [ballots, List.filterMap_eq_nil_iff]
  exact h

/-- What can happen to the vote in one transition. -/
inductive VoteStep (s s' : ElectionSm) (cast : List (ℕ × NodeId)) : Prop
  | keep : cast = [] → s'.votedFor = s.votedFor → s'.currentTerm = s.currentTerm → VoteStep s s' cast
  | clear : cast = [] → s'.votedFor = none → s.currentTerm < s'.currentTerm → VoteStep s s' cast
  | stand (x : NodeId) : cast = [(s'.currentTerm, x)] → s'.votedFor = some (s'.currentTerm, x) →
      s.currentTerm < s'.currentTerm → VoteStep s s' cast
  | grant (x : NodeId) : cast = [(s'.currentTerm, x)] → s'.votedFor = some (s'.currentTerm, x) →
      s.currentTerm = s'.currentTerm →
      s.votedFor = some (s.currentTerm, x) ∨ (∀ y, s.votedFor ≠ some (s.currentTerm, y)) →
      VoteStep s s' cast

variable {ev : Event} {s s' : ElectionSm}

theorem Trans.voteStep (h : Trans ev s s' out) : VoteStep s s' (ballots out) := by
  cases h with
  | adopt term hlt _ =>
    refine .clear (ballots_eq_nil ?_) rfl hlt
    intro a ha
    rcases adoptTerm_out _ _ _ a ha with rfl | rfl <;> rfl
  | stepDown _ _ =>
    refine .keep (ballots_eq_nil ?_) rfl rfl
    intro a ha
    rcases stepDownToFollower_out _ a ha with rfl | rfl <;> rfl
  | candidacy nowNs _ _ _ _ => exact .stand s.id rfl rfl (Nat.lt_succ_self _)
  | grant src lastTerm lastDurable _ _ _ hvote =>
    refine .grant src rfl rfl rfl ?_
    exact hvote.imp_right And.left
  | rank nowNs _ _ =>
    rw [rankLeader_eq]
    refine .keep (ballots_eq_nil ?_) rfl rfl
    intro a ha
    rcases rankLeader_out nowNs s a ha with ⟨c, rfl | rfl⟩ | rfl | rfl | rfl <;> rfl
  | durableAdvance durable _ =>
    unfold onDurableAdvanced
    dsimp only
    split <;> exact .keep rfl rfl rfl
  | gossip _ _ =>
    rw [advanceGossipCommit_eq]
    refine .keep (ballots_eq_nil ?_) rfl rfl
    intro a ha
    obtain ⟨c, rfl⟩ := advanceGossipCommit_out s a ha
    rfl
  | finish _ _ =>
    rw [finishValidation_eq]
    refine .keep (ballots_eq_nil ?_) rfl rfl
    intro a ha
    obtain ⟨c, rfl⟩ := finishValidation_out s a ha
    rfl
  | observeTerm term base _ _ _ =>
    unfold onDataTermObserved
    split <;> exact .keep rfl rfl rfl
  | revert _ target _ =>
    rw [revertConfig_eq]
    refine .keep (ballots_eq_nil ?_) rfl rfl
    intro a ha
    obtain ⟨_, _, _, _, rfl⟩ := revertConfig_out target s a ha
    rfl
  | observeConfig position config _ _ =>
    rw [adoptConfig_eq]
    refine .keep (ballots_eq_nil ?_) rfl rfl
    intro a ha
    rcases adoptConfig_out position config s a ha with ⟨_, _, _, _, rfl⟩ | rfl <;> rfl
  | _ => exact .keep rfl rfl rfl

/-! ## One vote per term -/

/-- The votes that a node has ever cast, against the vote it remembers and the
    one it has stored. -/
structure Voted (cast : ℕ → NodeId → Prop) (disk : Option (ℕ × NodeId)) (s : ElectionSm) :
    Prop where
  unique : ∀ {t x y}, cast t x → cast t y → x = y
  bound : ∀ {t x}, cast t x → t ≤ s.currentTerm
  current : ∀ {x}, cast s.currentTerm x → s.votedFor = some (s.currentTerm, x)
  known : ∀ {t x}, s.votedFor = some (t, x) → cast t x
  stored : ∀ {t x}, cast t x → ∃ t' y, disk = some (t', y) ∧ t ≤ t'
  storedKnown : ∀ {t x}, disk = some (t, x) → cast t x

/-- `cast` with the votes of `b` added. -/
def addBallots (cast : ℕ → NodeId → Prop) (b : List (ℕ × NodeId)) (t : ℕ) (x : NodeId) : Prop :=
  cast t x ∨ (t, x) ∈ b

variable {disk : Option (ℕ × NodeId)}

theorem Voted.add {cast : ℕ → NodeId → Prop} (h : Voted cast disk s) {x : NodeId}
    (hle : s.currentTerm ≤ s'.currentTerm) (hold : ∀ {y}, cast s'.currentTerm y → y = x)
    (hvote : s'.votedFor = some (s'.currentTerm, x)) :
    Voted (addBallots cast [(s'.currentTerm, x)]) (some (s'.currentTerm, x)) s' := by
  have hone : ∀ {t y}, (t, y) ∈ [(s'.currentTerm, x)] → t = s'.currentTerm ∧ y = x := by
    intro t y hy
    simpa using hy
  constructor
  · rintro t y z (hy | hy) (hz | hz)
    · exact h.unique hy hz
    · obtain ⟨rfl, rfl⟩ := hone hz
      exact hold hy
    · obtain ⟨rfl, rfl⟩ := hone hy
      exact (hold hz).symm
    · rw [(hone hy).2, (hone hz).2]
  · rintro t y (hy | hy)
    · exact (h.bound hy).trans hle
    · exact (hone hy).1.le
  · rintro y (hy | hy)
    · rw [hvote, hold hy]
    · rw [hvote, (hone hy).2]
  · intro t y hy
    rw [hvote] at hy
    cases hy
    exact .inr List.mem_cons_self
  · rintro t y (hy | hy)
    · exact ⟨_, _, rfl, (h.bound hy).trans hle⟩
    · exact ⟨_, _, rfl, (hone hy).1.le⟩
  · intro t y hy
    cases hy
    exact .inr List.mem_cons_self

theorem VoteStep.voted {cast : ℕ → NodeId → Prop} {b : List (ℕ × NodeId)} (hs : VoteStep s s' b)
    (h : Voted cast disk s) : Voted (addBallots cast b) (b.getLast?.or disk) s' := by
  have hnil : ∀ {t x}, addBallots cast [] t x ↔ cast t x := by
    intro t x
    simp [addBallots]
  cases hs with
  | keep hb hv ht =>
    subst hb
    constructor
    · intro t x y hx hy
      exact h.unique (hnil.mp hx) (hnil.mp hy)
    · intro t x hx
      exact (h.bound (hnil.mp hx)).trans ht.ge
    · intro x hx
      rw [hv, ht]
      rw [ht] at hx
      exact h.current (hnil.mp hx)
    · intro t x hx
      rw [hv] at hx
      exact hnil.mpr (h.known hx)
    · intro t x hx
      exact h.stored (hnil.mp hx)
    · intro t x hx
      exact hnil.mpr (h.storedKnown hx)
  | clear hb hv ht =>
    subst hb
    constructor
    · intro t x y hx hy
      exact h.unique (hnil.mp hx) (hnil.mp hy)
    · intro t x hx
      exact (h.bound (hnil.mp hx)).trans ht.le
    · intro x hx
      have := h.bound (hnil.mp hx)
      omega
    · intro t x hx
      rw [hv] at hx
      cases hx
    · intro t x hx
      exact h.stored (hnil.mp hx)
    · intro t x hx
      exact hnil.mpr (h.storedKnown hx)
  | stand x hb hv ht =>
    subst hb
    refine h.add ht.le ?_ hv
    intro y hy
    have := h.bound hy
    omega
  | grant x hb hv ht hold =>
    subst hb
    refine h.add ht.le ?_ hv
    intro y hy
    rw [← ht] at hy
    have hcur := h.current hy
    rcases hold with hold | hold
    · rw [hcur] at hold
      exact (Prod.mk.inj (Option.some.inj hold)).2
    · exact absurd hcur (hold y)

theorem Steps.voted (h : Steps ev s s' out) {cast : ℕ → NodeId → Prop} (hv : Voted cast disk s) :
    Voted (addBallots cast (ballots out)) (storedVote disk out) s' := by
  induction h generalizing cast disk with
  | nil =>
    have heq : addBallots cast (ballots []) = cast := by
      funext t x
      simp [addBallots, ballots]
    rw [heq]
    exact hv
  | @cons s s1 s2 out out' ht _ ih =>
    have h1 := ih (ht.voteStep.voted hv)
    have heq : addBallots (addBallots cast (ballots out)) (ballots out') =
        addBallots cast (ballots (out ++ out')) := by
      funext t x
      simp [addBallots, or_assoc]
    have hst : storedVote ((ballots out).getLast?.or disk) out' =
        storedVote disk (out ++ out') := by
      rw [← storedVote_eq]
      exact (List.foldl_append ..).symm
    rw [heq, hst] at h1
    exact h1

/-! ## What a candidate counts -/

/-- Each counted vote was cast for us in our term, by a voter or by ourselves,
    and is counted once.  `cast v t` says that `v` voted for us in `t`. -/
structure Tallied (cast : NodeId → ℕ → Prop) (s : ElectionSm) : Prop where
  nodup : s.votesReceived.Nodup
  counted : s.role = .candidate → ∀ v ∈ s.votesReceived, cast v s.currentTerm
  within : ∀ v ∈ s.votesReceived, v ∈ s.members ∨ v = s.id

theorem Tallied.mono {cast cast' : NodeId → ℕ → Prop} (h : Tallied cast s)
    (hle : ∀ v t, cast v t → cast' v t) : Tallied cast' s :=
  ⟨h.nodup, fun hr v hv => hle _ _ (h.counted hr v hv), h.within⟩

variable {cast : NodeId → ℕ → Prop}

theorem tallied_of_nil (h : s.votesReceived = []) : Tallied cast s := by
  constructor
  · rw [h]
    exact List.nodup_nil
  · intro _ v hv
    rw [h] at hv
    cases hv
  · intro v hv
    rw [h] at hv
    cases hv

theorem rebuildMembership_tallied (carry : Bool) (hnd : s.votesReceived.Nodup)
    (hc : s.role = .candidate → ∀ v ∈ s.votesReceived, cast v s.currentTerm) :
    Tallied cast (rebuildMembership carry s) := by
  obtain ⟨tr, h⟩ := rebuildMembership_frame s carry
  rw [h]
  constructor
  · exact hnd.filter _
  · intro hr v hv
    exact hc hr v (List.mem_filter.mp hv).1
  · intro v hv
    simpa using (List.mem_filter.mp hv).2

theorem Tallied.adoptConfig (h : Tallied cast s) (position : ℕ) (config : ClusterConfig) :
    Tallied cast (adoptConfig position config s).1 := by
  have hre : Tallied cast (rebuildMembership true { s with
      prevConfig := s.config, prevPosition := s.configPosition
      config, configPosition := position }) :=
    rebuildMembership_tallied true h.nodup h.counted
  unfold ElectionSm.adoptConfig
  dsimp only
  split
  · exact ⟨hre.nodup, hre.counted, hre.within⟩
  · exact hre

theorem Tallied.revertConfig (h : Tallied cast s) (target : ℕ) :
    Tallied cast (revertConfig target s).1 := by
  unfold ElectionSm.revertConfig
  split_ifs
  · exact rebuildMembership_tallied false h.nodup h.counted
  · exact rebuildMembership_tallied false h.nodup h.counted
  · exact h

theorem Trans.tallied (h : Trans ev s s' out) (ht : Tallied cast s)
    (hown : ∀ t, (t, s.id) ∈ ballots out → cast s.id t)
    (hev : ∀ src, ev = .vote src s.currentTerm true → cast src s.currentTerm) :
    Tallied cast s' := by
  cases h with
  | adopt term _ _ => exact tallied_of_nil rfl
  | stepDown _ _ => exact tallied_of_nil rfl
  | candidacy nowNs _ _ _ _ =>
    refine ⟨List.nodup_singleton _, ?_, ?_⟩
    · intro _ v hv
      rw [List.mem_singleton.mp hv]
      exact hown _ List.mem_cons_self
    · intro v hv
      exact .inr (List.mem_singleton.mp hv)
  | win _ hr _ =>
    refine ⟨ht.nodup, ?_, ht.within⟩
    intro hcand
    cases hcand
  | countVote src he hr hmem hnew =>
    refine ⟨?_, ?_, ?_⟩
    · rw [List.nodup_append]
      refine ⟨ht.nodup, List.nodup_singleton _, ?_⟩
      intro a ha b hb
      rw [List.mem_singleton.mp hb]
      rintro rfl
      exact hnew ha
    · intro _ v hv
      rcases List.mem_append.mp hv with hv | hv
      · exact ht.counted hr v hv
      · rw [List.mem_singleton.mp hv]
        exact hev src he
    · intro v hv
      rcases List.mem_append.mp hv with hv | hv
      · exact ht.within v hv
      · exact .inl (List.mem_singleton.mp hv ▸ hmem)
  | rank nowNs hr _ =>
    obtain ⟨_, _, _, _, _, _, _, _, hf⟩ := rankLeader_frame s nowNs
    have hro := rankLeader_role s nowNs
    rw [hf] at hro ⊢
    refine ⟨ht.nodup, ?_, ht.within⟩
    intro hcand
    rcases hro with h | h
    · have : s.role = .candidate := h ▸ hcand
      rw [hr] at this
      cases this
    · rw [h] at hcand
      cases hcand
  | durableAdvance durable _ =>
    unfold onDurableAdvanced
    dsimp only
    split <;> exact ⟨ht.nodup, ht.counted, ht.within⟩
  | gossip _ _ =>
    rw [advanceGossipCommit_eq]
    exact ⟨ht.nodup, ht.counted, ht.within⟩
  | finish _ _ =>
    rw [finishValidation_eq]
    exact ⟨ht.nodup, ht.counted, ht.within⟩
  | observeTerm term base _ _ _ =>
    unfold onDataTermObserved
    split <;> exact ⟨ht.nodup, ht.counted, ht.within⟩
  | revert _ target _ => exact ht.revertConfig target
  | observeConfig position config _ _ => exact ht.adoptConfig position config
  | _ => exact ⟨ht.nodup, ht.counted, ht.within⟩

theorem Trans.id_eq (h : Trans ev s s' out) : s'.id = s.id := by
  cases h with
  | rank nowNs _ _ =>
    rw [rankLeader_eq]
  | durableAdvance durable _ =>
    unfold onDurableAdvanced
    dsimp only
    split <;> rfl
  | gossip _ _ =>
    rw [advanceGossipCommit_eq]
  | finish _ _ =>
    rw [finishValidation_eq]
  | observeTerm term base _ _ _ =>
    unfold onDataTermObserved
    split <;> rfl
  | revert _ target _ =>
    rw [revertConfig_eq]
  | observeConfig position config _ _ =>
    rw [adoptConfig_eq]
  | _ => rfl

theorem Steps.id_eq (h : Steps ev s s' out) : s'.id = s.id := by
  induction h with
  | nil => rfl
  | cons ht _ ih => rw [ih, ht.id_eq]

theorem Steps.tallied (h : Steps ev s s' out) (ht : Tallied cast s)
    (hown : ∀ t, (t, s.id) ∈ ballots out → cast s.id t)
    (hev : ∀ src term, ev = .vote src term true → cast src term) : Tallied cast s' := by
  induction h with
  | nil => exact ht
  | @cons s s1 s2 out out' htr _ ih =>
    have h1 : Tallied cast s1 := by
      refine htr.tallied ht ?_ fun src h => hev src _ h
      intro t hmem
      exact hown t (by rw [ballots_append]; exact List.mem_append_left _ hmem)
    refine ih h1 ?_
    intro t hmem
    rw [htr.id_eq] at hmem ⊢
    exact hown t (by rw [ballots_append]; exact List.mem_append_right _ hmem)

/-! ## Winning -/

/-- The term that an event which wins an election wins. -/
def wonTerm (s : ElectionSm) : Event → ℕ
  | .tick _ => s.currentTerm + 1
  | _ => s.currentTerm

/-- The election that a step wins: `s1` is the candidate whose tally is full. -/
structure Victory (s : ElectionSm) (ev : Event) (s1 : ElectionSm) (out : List Action) : Prop where
  winsOn : s.WinsOn ev
  steps : Steps ev s s1 out
  silent : ∀ term base, .becomeLeader term base ∉ out
  eq : s.step ev = (s1.becomeLeader.1, out ++ s1.becomeLeader.2)
  candidate : s1.role = .candidate
  majority : s1.majority ≤ s1.votesReceived.length
  members : s1.members = s.members
  termMap : s1.termMap = s.termMap
  durable : s1.durable = s.durable
  term : s1.currentTerm = s.wonTerm ev

theorem victory_of_tick {nowNs term base : ℕ}
    (h : .becomeLeader term base ∈ (s.step (.tick nowNs)).2) :
    ∃ s1 out, Victory s (.tick nowNs) s1 out := by
  have hnt : s.truncatingEpoch = none := by
    by_contra hsome
    obtain ⟨epoch, he⟩ := Option.ne_none_iff_exists'.mp hsome
    simp [step, he, Event.passesLatch] at h
  have hbody : s.step (.tick nowNs) = onTick nowNs s := step_of_idle hnt
  rw [hbody] at h
  by_cases hrole : s.role = .leader
  · -- a ranking and the re-gossip floor
    rw [onTick_leader nowNs hrole, andThen_snd, List.mem_append] at h
    rcases h with h | h
    · rcases rankLeader_out _ _ _ h with ⟨c, h | h⟩ | h | h | h <;> cases h
    · split at h <;> simp at h
  have hidle : onTick nowNs s = onIdleTick nowNs { s with lastTickNs := nowNs } := by
    unfold onTick
    dsimp only
    split
    · exact absurd ‹_› hrole
    · rfl
    · rfl
  rw [hidle] at h hbody
  unfold onIdleTick at h hbody
  dsimp only at h hbody
  split_ifs at h hbody with hpla hdl hcv
  · cases h
  · obtain ⟨r, d, hf⟩ := armTimeout_frame { s with
      lastTickNs := nowNs, currentTerm := s.currentTerm + 1, role := .candidate, serving := false
      newTermPos := none, votedFor := some (s.currentTerm + 1, s.id), votesReceived := [s.id] }
      nowNs
    simp only [startElection, andThen, hf] at h hbody
    split_ifs at h hbody with hmaj
    · refine ⟨_, _, ⟨hnt, hrole, by simpa using hpla, hdl, hcv, hmaj⟩, ?_, ?_, hbody, rfl, hmaj, rfl,
        rfl, rfl, rfl⟩
      · have htick : Steps (.tick nowNs) s { s with lastTickNs := nowNs } [] :=
          .timers s.rng s.timeoutDeadlineNs nowNs s.lastGossipNs s.reportsUnattested
            s.commitSourceTerm s.pendingLeaderActivity
        refine htick.trans (.cons (.candidacy (s := { s with lastTickNs := nowNs }) nowNs rfl
          hrole hcv hnt) ?_)
        exact .timers r d nowNs s.lastGossipNs s.reportsUnattested s.commitSourceTerm false
      · intro t b hmem
        simp at hmem
    · simp at h
  · cases h
  · cases h

theorem victory_of_vote {src : NodeId} {t : ℕ} {granted : Bool} {term base : ℕ}
    (h : .becomeLeader term base ∈ (s.step (.vote src t granted)).2) :
    ∃ s1 out, Victory s (.vote src t granted) s1 out := by
  have hbody : s.step (.vote src t granted) = stepBody (.vote src t granted) s := by
    simp [step, Event.passesLatch]
  rw [hbody] at h
  simp only [stepBody] at h hbody
  split_ifs at h hbody with h1 h2
  · cases h
  · rcases adoptTerm_out _ _ _ _ h with h | h <;> cases h
  obtain rfl : t = s.currentTerm := by omega
  by_cases hg : src ∈ s.members ∧ granted ∧ s.role = .candidate
  · obtain ⟨hmem, rfl, hrole⟩ := hg
    by_cases hnew : src ∈ s.votesReceived
    · have hon : onVote src true s =
          if s.majority ≤ s.votesReceived.length then s.becomeLeader else (s, []) := by
        simp [onVote, hmem, hrole, hnew]
      rw [hon] at h hbody
      split_ifs at h hbody with hmaj
      · refine ⟨s, [], ⟨rfl, rfl, hmem, hrole, ?_⟩, .nil, by simp, hbody, hrole, hmaj, rfl, rfl, rfl,
          rfl⟩
        rw [if_pos hnew]
        exact hmaj
      · cases h
    · have hon : onVote src true s =
          if s.majority ≤ s.votesReceived.length + 1 then
            becomeLeader { s with votesReceived := s.votesReceived ++ [src] }
          else ({ s with votesReceived := s.votesReceived ++ [src] }, []) := by
        simp [onVote, hmem, hrole, hnew, ElectionSm.majority]
      rw [hon] at h hbody
      split_ifs at h hbody with hmaj
      · refine ⟨{ s with votesReceived := s.votesReceived ++ [src] }, [],
          ⟨rfl, rfl, hmem, hrole, ?_⟩, .single (.countVote src rfl hrole hmem hnew), by simp, hbody,
          hrole, ?_, rfl, rfl, rfl, rfl⟩
        · rw [if_neg hnew]
          exact hmaj
        · rw [List.length_append]
          exact hmaj
      · cases h
  · have hon : onVote src granted s = (s, []) := by
      by_cases hmem : src ∈ s.members
      · have : ¬ (granted ∧ s.role = .candidate) := fun h => hg ⟨hmem, h⟩
        simp [onVote, hmem, this]
      · simp [onVote, hmem]
    rw [hon] at h
    cases h

theorem victory_of_mem {term base : ℕ} (h : .becomeLeader term base ∈ (s.step ev).2) :
    ∃ s1 out, Victory s ev s1 out := by
  obtain ⟨s1, s2, _, _, _, -, ht, ha, -, -⟩ := (step_steps s ev).mem_split h
  obtain ⟨⟨src, rfl⟩ | ⟨nowNs, rfl⟩, -⟩ := ht.emits _ ha
  · exact victory_of_vote h
  · exact victory_of_tick h

theorem Trans.leads (h : Trans ev s s' out) (hr : s'.role = .leader) :
    (s.role = .leader ∧ s'.currentTerm = s.currentTerm) ∨
      ∃ base, .becomeLeader s'.currentTerm base ∈ out := by
  cases h with
  | adopt term _ _ => cases hr
  | stepDown _ _ => cases hr
  | candidacy nowNs _ _ _ _ => cases hr
  | win _ _ _ => exact .inr ⟨s.durable, List.mem_cons_self⟩
  | rank nowNs hrole _ =>
    rw [rankLeader_eq]
    exact .inl ⟨hrole, rfl⟩
  | durableAdvance durable _ =>
    unfold onDurableAdvanced at hr ⊢
    dsimp only at hr ⊢
    split at hr <;> exact .inl ⟨hr, by split <;> rfl⟩
  | gossip _ _ =>
    rw [advanceGossipCommit_eq] at hr ⊢
    exact .inl ⟨hr, rfl⟩
  | finish _ _ =>
    rw [finishValidation_eq] at hr ⊢
    exact .inl ⟨hr, rfl⟩
  | observeTerm term base _ hlt _ =>
    rw [onDataTermObserved, if_pos hlt] at hr ⊢
    exact .inl ⟨hr, rfl⟩
  | revert _ target _ =>
    rw [revertConfig_eq] at hr ⊢
    exact .inl ⟨hr, rfl⟩
  | observeConfig position config _ _ =>
    rw [adoptConfig_eq] at hr ⊢
    exact .inl ⟨hr, rfl⟩
  | _ => exact .inl ⟨hr, rfl⟩

theorem Steps.leads (h : Steps ev s s' out) (hr : s'.role = .leader) :
    (s.role = .leader ∧ s'.currentTerm = s.currentTerm) ∨
      ∃ term base, .becomeLeader term base ∈ out := by
  induction h with
  | nil => exact .inl ⟨hr, rfl⟩
  | cons ht _ ih =>
    rcases ih hr with ⟨h1, h2⟩ | ⟨term, base, hmem⟩
    · rcases ht.leads h1 with ⟨h3, h4⟩ | ⟨base, hmem⟩
      · exact .inl ⟨h3, h2.trans h4⟩
      · exact .inr ⟨_, base, List.mem_append_left _ hmem⟩
    · exact .inr ⟨term, base, List.mem_append_right _ hmem⟩

theorem new_recovers {cfg : ElectionConfig} {vote : Option (ℕ × NodeId)} {map : TermMap}
    {durable nowNs : ℕ} {sm : ElectionSm} (h : new cfg vote map durable nowNs = some sm) :
    sm.id = cfg.id ∧ sm.votedFor = vote ∧ sm.termMap = map ∧ sm.durable = durable ∧
      sm.votesReceived = [] ∧ sm.config = cfg.config ∧ sm.configPosition = cfg.configPosition ∧
      sm.currentTerm = max ((vote.map Prod.fst).getD 0) map.lastTerm := by
  unfold new at h
  dsimp only at h
  split_ifs at h
  cases h
  obtain ⟨r, d, hf⟩ := armTimeout_frame _ nowNs
  rw [hf]
  exact ⟨rfl, rfl, rfl, rfl, rfl, rfl, rfl, rfl⟩

/-- The stored vote is enough to vote once: a boot may forget a term, never a
    vote. -/
theorem Voted.boot {cast : ℕ → NodeId → Prop} (h : Voted cast disk s) (hv : s'.votedFor = disk)
    (ht : (disk.map Prod.fst).getD 0 ≤ s'.currentTerm) : Voted cast disk s' := by
  have hle : ∀ {t y}, disk = some (t, y) → t ≤ s'.currentTerm := by
    rintro t y rfl
    exact ht
  refine { h with bound := ?_, current := ?_, known := ?_ }
  · intro t x hx
    obtain ⟨t', y, hd, htt⟩ := h.stored hx
    exact htt.trans (hle hd)
  · intro x hx
    obtain ⟨t', y, hd, htt⟩ := h.stored hx
    obtain rfl : t' = s'.currentTerm := le_antisymm (hle hd) htt
    rw [hv, hd, h.unique hx (h.storedKnown hd)]
  · intro t x hx
    exact h.storedKnown (hv ▸ hx)

end ElectionSm

end UltimaCluster
