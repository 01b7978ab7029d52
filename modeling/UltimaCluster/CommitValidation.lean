/-
  The commit-validation latch of a follower.

  A monitor watches one node from outside: which map of the current term it
  has reconciled, which cut is still to be acked, and up to where its bytes
  are validated in this term.  The latch of the code follows the monitor,
  except that a term entered by the node's own election does not arm it and
  that the ack of an earlier term's cut releases it.
-/
import UltimaCluster.Run
import UltimaCluster.Emission

namespace UltimaCluster

/-- What the monitor knows of a node's validation in its current term. -/
inductive Check where
  /-- The term was entered and no map of it has been reconciled since. -/
  | entered
  /-- A map of the term refuted our bytes from `target` on; the ack of `epoch` is
      awaited. -/
  | cutting (epoch target : ℕ)
  /-- Validated up to `frontier`; `boundary` while a term boundary observed since
      the last map is unconfirmed. -/
  | validated (frontier : ℕ) (boundary : Bool)
deriving DecidableEq

/-- The events on which the monitor only looks at the term. -/
def Event.plain : Event → Bool
  | .termMapReceived .. | .truncated .. | .durableAdvanced .. | .dataTermObserved .. => false
  | _ => true

namespace ElectionSm

/-- At boot a term whose bytes we hold counts as validated up to our durable;
    a term known from our vote only has just been entered. -/
def bootCheck (sm : ElectionSm) : Check :=
  if sm.termMap.lastTerm < sm.currentTerm then .entered else .validated sm.durable false

/-- The monitor's move on a term map that the node processes. -/
def checkMap (s : ElectionSm) (entries : TermMap) (m : Check) : Check :=
  match reconcile s.termMap s.durable entries with
  | .ok o =>
    if o.validUpTo < s.durable then .cutting (s.truncationEpoch + 1) o.validUpTo
    else .validated o.validUpTo false
  | .noCommonPrefix => if s.wipeOnNoCommonPrefix then .cutting (s.truncationEpoch + 1) 0 else m

/-- The monitor's move inside a term. -/
def checkEvent (s : ElectionSm) (ev : Event) (m : Check) : Check :=
  match ev, m with
  | .termMapReceived term entries, m =>
    if s.truncatingEpoch = none ∧ s.currentTerm ≤ term then checkMap s entries m else m
  | .truncated epoch target, .cutting e cut =>
    if e = epoch ∧ target ≤ cut then .validated cut false else m
  | .durableAdvanced durable, .validated f false =>
    -- bytes that extend a validated log are the current leader's own stream
    if s.truncatingEpoch = none ∧ s.termMap.lastTerm = s.currentTerm ∧ s.durable ≤ f then
      .validated (max f durable) false
    else m
  | .dataTermObserved term base, .validated f _ =>
    if s.truncatingEpoch = none ∧ s.termMap.lastTerm < term then .validated (min f base) true
    else m
  | _, m => m

/-- One move of the monitor: a change of term starts over. -/
def watch (s : ElectionSm) (ev : Event) (m : Check) : Check :=
  checkEvent s ev (if (s.step ev).1.currentTerm = s.currentTerm then m else .entered)

/-- The node and its monitor after a sequence of events. -/
def watched (sm : ElectionSm) (evs : List Event) : ElectionSm × Check :=
  evs.foldl (fun p ev => ((p.1.step ev).1, watch p.1 ev p.2)) (sm, sm.bootCheck)

/-- `AdvanceCommit(c)` is emitted by a node that is not leader: it was not, or
    it left its term before. -/
def EmitsAsFollower (s : ElectionSm) (ev : Event) (c : ℕ) : Prop :=
  .advanceCommit c ∈ (s.step ev).2 ∧
    (s.role = .leader → s.currentTerm < (s.step ev).1.currentTerm)

/-- We started our own election in the current term. -/
def SelfVoted (s : ElectionSm) : Prop := s.votedFor = some (s.currentTerm, s.id)

/-- The branches that leave the latch behind the monitor are not taken: gossip
    of a term in which the node ran its own election finds its latch armed or
    a map of that term reconciled, and a matching ack settles a cut of the
    current term, at the position asked for and at or above the frontier. -/
def LatchFollows (s : ElectionSm) (m : Check) : Event → Prop
  | .commitGossip term _ => term = s.currentTerm → s.role ≠ .leader →
      s.truncatingEpoch = none → s.awaitingReconcile = false → s.SelfVoted → m ≠ .entered
  | .truncated epoch target => s.truncatingEpoch = some epoch →
      ∃ cut, m = .cutting epoch cut ∧ target ≤ cut ∧ s.validatedUpTo ≤ cut
  | _ => True

/-! ## The invariant -/

/-- The monitor has validated the node's frontier. -/
def Covers (s : ElectionSm) (m : Check) : Prop :=
  ∃ f b, m = .validated f b ∧ s.validatedUpTo ≤ f ∧ (b → s.unconfirmedBoundary)

/-- The monitor keeps up with the latch. -/
structure Follows (s : ElectionSm) (m : Check) : Prop where
  /-- The node is idle and its latch is open. -/
  opened : s.truncatingEpoch = none → s.awaitingReconcile = false →
    Covers s m ∨ (m = .entered ∧ s.SelfVoted)
  /-- A truncation is in flight. -/
  cutting : ∀ e, s.truncatingEpoch = some e →
    (∃ cut, m = .cutting e cut) ∨ (m = .entered ∧ s.awaitingReconcile ∧ s.role = .follower)
  /-- A candidate has voted for itself, and what it has reconciled is covered. -/
  candidate : s.role = .candidate → s.SelfVoted ∧
    (s.truncatingEpoch = none → Covers s m ∨ m = .entered)

variable {ev : Event} {s s' : ElectionSm}

theorem watch_plain (h : ev.plain) (m : Check) :
    watch s ev m = if (s.step ev).1.currentTerm = s.currentTerm then m else .entered := by
  cases ev with
  | termMapReceived | truncated | durableAdvanced | dataTermObserved => cases h
  | _ => rfl

/-- The parts of a state that the invariant reads, apart from the role. -/
def SameWatch (s s' : ElectionSm) : Prop :=
  s'.truncatingEpoch = s.truncatingEpoch ∧ s'.awaitingReconcile = s.awaitingReconcile ∧
    s'.validatedUpTo = s.validatedUpTo ∧ s'.unconfirmedBoundary = s.unconfirmedBoundary ∧
    s'.currentTerm = s.currentTerm ∧ (s.SelfVoted → s'.SelfVoted)

variable {m : Check}

theorem Follows.frame (h : Follows s m) (hw : SameWatch s s')
    (hrole : s'.role = s.role ∨ (s'.role = .follower ∧ s.role ≠ .follower)) : Follows s' m := by
  obtain ⟨h1, h2, h3, h4, h5, hself⟩ := hw
  have hcov : Covers s m → Covers s' m := by
    rintro ⟨f, b, hm, hle, hb⟩
    exact ⟨f, b, hm, by rw [h3]; exact hle, by rw [h4]; exact hb⟩
  refine ⟨?_, ?_, ?_⟩
  · rw [h1, h2]
    intro ht ha
    exact (h.opened ht ha).imp hcov (fun ⟨hm, hv⟩ => ⟨hm, hself hv⟩)
  · rw [h1, h2]
    intro e he
    rcases h.cutting e he with hcut | ⟨hm, ha, hr⟩
    · exact .inl hcut
    · refine .inr ⟨hm, ha, ?_⟩
      rcases hrole with hrole | ⟨hrole, -⟩
      · rw [hrole, hr]
      · exact hrole
  · intro hr
    rw [h1]
    rcases hrole with hrole | ⟨hrole, -⟩
    · rw [hrole] at hr
      obtain ⟨hv, hc⟩ := h.candidate hr
      exact ⟨hself hv, fun ht => (hc ht).imp_left hcov⟩
    · rw [hrole] at hr
      cases hr

theorem follows_adoptTerm (term : ℕ) (s : ElectionSm) :
    Follows (adoptTerm term none s).1 .entered := by
  refine ⟨?_, ?_, ?_⟩
  · intro _ ha
    cases ha
  · intro e _
    exact .inr ⟨rfl, rfl, rfl⟩
  · intro hr
    cases hr

theorem Follows.win (h : Follows s m) (hr : s.role = .candidate) : Follows s.becomeLeader.1 m := by
  obtain ⟨hv, hc⟩ := h.candidate hr
  refine ⟨?_, ?_, ?_⟩
  · intro ht _
    exact (hc ht).imp_right fun hm => ⟨hm, hv⟩
  · intro e he
    rcases h.cutting e he with hcut | ⟨-, -, hf⟩
    · exact .inl hcut
    · rw [hr] at hf
      cases hf
  · intro hl
    cases hl

theorem grantVote_selfVoted {src : NodeId}
    (h : s.votedFor = some (s.currentTerm, src) ∨ ∀ v, s.votedFor ≠ some (s.currentTerm, v))
    (hv : s.SelfVoted) : (grantVote src s).1.SelfVoted := by
  rcases h with h | h
  · rw [hv] at h
    cases h
    rfl
  · exact absurd hv (h _)

theorem Trans.follows {out : List Action} (h : Trans ev s s' out) (hev : ev.plain)
    (hterm : s'.currentTerm = s.currentTerm) (hf : Follows s m) : Follows s' m := by
  have hsame : ∀ s' : ElectionSm, SameWatch s s' → s'.role = s.role → Follows s' m :=
    fun s' hw hr => hf.frame hw (.inl hr)
  cases h with
  | timers | floor | countVote | reject | carryReport | trackReport | openTerm | deferCommit
  | fatal => exact hsame _ ⟨rfl, rfl, rfl, rfl, rfl, fun h => h⟩ rfl
  | adopt term hlt _ =>
    rw [adoptTerm_fst] at hterm
    dsimp only at hterm
    omega
  | stepDown hr _ =>
    refine hf.frame ⟨rfl, rfl, rfl, rfl, rfl, fun h => h⟩ (.inr ⟨rfl, ?_⟩)
    simp [hr]
  | candidacy =>
    dsimp only at hterm
    omega
  | win _ hr _ => exact hf.win hr
  | grant src _ _ _ _ _ hvote =>
    exact hsame _ ⟨rfl, rfl, rfl, rfl, rfl, grantVote_selfVoted (hvote.imp_right And.left)⟩ rfl
  | rank nowNs hrole _ =>
    have hro := rankLeader_role s nowNs
    obtain ⟨_, _, _, _, _, _, _, _, h⟩ := rankLeader_frame s nowNs
    rw [h] at hro ⊢
    refine hf.frame ⟨rfl, rfl, rfl, rfl, rfl, fun h => h⟩ (hro.imp_right fun hr => ⟨hr, ?_⟩)
    simp [hrole]
  | gossip _ _ =>
    obtain ⟨_, _, h⟩ := advanceGossipCommit_frame s
    rw [h]
    exact hsame _ ⟨rfl, rfl, rfl, rfl, rfl, fun h => h⟩ rfl
  | observeConfig position config _ _ =>
    obtain ⟨_, _, h⟩ := adoptConfig_frame s position config
    rw [h]
    exact hsame _ ⟨rfl, rfl, rfl, rfl, rfl, fun h => h⟩ rfl
  | finish _ h =>
    rcases h with ⟨_, _, rfl, _⟩ | ⟨_, _, rfl⟩ <;> cases hev
  | durableAdvance _ h | cut _ _ h | wipe _ h | clean _ _ h | shrink _ _ h | observeTerm _ _ h
  | clamp _ _ h | settle _ _ h | revert _ _ h =>
    subst h
    cases hev

/-- The transitions that change the term enter it: an adoption with the latch
    armed, a candidacy with our own vote. -/
theorem Trans.follows_entered {out : List Action} (h : Trans ev s s' out)
    (hterm : s'.currentTerm ≠ s.currentTerm) : Follows s' .entered := by
  cases h with
  | adopt term _ _ => exact follows_adoptTerm term s
  | candidacy _ _ _ _ hnt =>
    refine ⟨fun _ _ => .inr ⟨rfl, rfl⟩, ?_, fun _ => ⟨rfl, fun _ => .inr rfl⟩⟩
    intro e he
    rw [show s.truncatingEpoch = some e from he] at hnt
    cases hnt
  | rank nowNs _ _ => exact absurd (rankLeader_currentTerm nowNs s) hterm
  | durableAdvance durable _ =>
    refine absurd ?_ hterm
    unfold onDurableAdvanced
    dsimp only
    split <;> rfl
  | gossip _ _ =>
    rw [advanceGossipCommit_eq] at hterm
    exact absurd rfl hterm
  | finish _ _ =>
    rw [finishValidation_eq] at hterm
    exact absurd rfl hterm
  | observeTerm term base _ _ _ =>
    refine absurd ?_ hterm
    unfold onDataTermObserved
    split <;> rfl
  | revert _ target _ =>
    rw [revertConfig_eq] at hterm
    exact absurd rfl hterm
  | observeConfig position config _ _ =>
    rw [adoptConfig_eq] at hterm
    exact absurd rfl hterm
  | _ => exact absurd rfl hterm

theorem step_follows_plain (hev : ev.plain) (hf : Follows s m) :
    Follows (s.step ev).1 (watch s ev m) := by
  rw [watch_plain hev]
  have hinv : s.currentTerm ≤ (s.step ev).1.currentTerm ∧ Follows (s.step ev).1
      (if (s.step ev).1.currentTerm = s.currentTerm then m else .entered) := by
    refine (step_steps s ev).invariant
      (P := fun s' => s.currentTerm ≤ s'.currentTerm ∧
        Follows s' (if s'.currentTerm = s.currentTerm then m else .entered)) ?_ ?_
    · rintro s1 s2 out ht ⟨hle, hf1⟩
      have hmono := ht.currentTerm_le
      refine ⟨hle.trans hmono, ?_⟩
      by_cases hsame : s2.currentTerm = s1.currentTerm
      · rw [hsame]
        exact ht.follows hev hsame hf1
      · rw [if_neg (by omega)]
        exact ht.follows_entered hsame
    · rw [if_pos rfl]
      exact ⟨le_rfl, hf⟩
  exact hinv.2

/-! ## The events the monitor follows -/

theorem Follows.idle {m m' : Check} (hf : Follows s m) (hnt : s.truncatingEpoch = none)
    (hnt' : s'.truncatingEpoch = none) (ha : s'.awaitingReconcile = s.awaitingReconcile)
    (hr : s'.role = s.role) (hv : s.SelfVoted → s'.SelfVoted) (hcov : Covers s m → Covers s' m')
    (hent : m = .entered → m' = .entered) : Follows s' m' := by
  refine ⟨?_, ?_, ?_⟩
  · intro _ hopen
    rw [ha] at hopen
    exact (hf.opened hnt hopen).imp hcov fun h => ⟨hent h.1, hv h.2⟩
  · intro e he
    rw [hnt'] at he
    cases he
  · intro hc
    rw [hr] at hc
    obtain ⟨hself, hm⟩ := hf.candidate hc
    exact ⟨hv hself, fun _ => (hm hnt).imp hcov hent⟩

theorem onDurableAdvanced_frame (durable : ℕ) (s : ElectionSm) :
    ∃ v, onDurableAdvanced durable s =
        { s with durable := max s.durable durable, validatedUpTo := v } ∧
      (v = s.validatedUpTo ∨ (v = max s.durable durable ∧ s.awaitingReconcile = false ∧
        s.unconfirmedBoundary = false ∧ s.termMap.lastTerm = s.currentTerm ∧
        s.durable ≤ s.validatedUpTo)) := by
  unfold onDurableAdvanced
  dsimp only
  split
  · rename_i h
    simp only [Bool.and_eq_true, Bool.not_eq_true', decide_eq_true_eq] at h
    obtain ⟨⟨⟨ha, hu⟩, hlast⟩, hle⟩ := h
    refine ⟨_, rfl, .inr ⟨rfl, ha, hu, ?_, hle⟩⟩
    unfold TermMap.lastTerm
    cases hl : s.termMap.getLast? with
    | none => simp [hl] at hlast
    | some e => simpa [hl] using hlast
  · exact ⟨s.validatedUpTo, rfl, .inl rfl⟩

theorem onDurableAdvanced_follows (durable : ℕ) (hnt : s.truncatingEpoch = none) (hf : Follows s m) :
    Follows (onDurableAdvanced durable s) (checkEvent s (.durableAdvanced durable) m) := by
  obtain ⟨v, heq, hgrow⟩ := onDurableAdvanced_frame durable s
  rw [heq]
  refine hf.idle hnt hnt rfl rfl (fun h => h) ?_ ?_
  · rintro ⟨f, b, rfl, hle, hb⟩
    cases b with
    | true =>
      refine ⟨f, true, rfl, ?_, hb⟩
      rcases hgrow with rfl | ⟨-, -, hu, -⟩
      · exact hle
      · rw [hb rfl] at hu
        cases hu
    | false =>
      simp only [checkEvent]
      split
      · refine ⟨_, false, rfl, ?_, by simp⟩
        rcases hgrow with rfl | ⟨rfl, -, -, -, hd⟩
        · exact le_max_of_le_left hle
        · exact max_le_max (hd.trans hle) le_rfl
      · rename_i hno
        refine ⟨f, false, rfl, ?_, by simp⟩
        rcases hgrow with rfl | ⟨-, -, -, hlast, hd⟩
        · exact hle
        · exact absurd ⟨hnt, hlast, hd.trans hle⟩ hno
  · rintro rfl
    rfl

theorem onDataTermObserved_follows (term base : ℕ) (hnt : s.truncatingEpoch = none)
    (hf : Follows s m) :
    Follows (onDataTermObserved term base s).1 (checkEvent s (.dataTermObserved term base) m) := by
  unfold onDataTermObserved
  by_cases hlt : s.termMap.lastTerm < term
  · rw [if_pos hlt]
    refine hf.idle hnt hnt rfl rfl (fun h => h) ?_ ?_
    · rintro ⟨f, b, rfl, hle, hb⟩
      simp only [checkEvent, hnt, hlt, and_self, if_true]
      exact ⟨_, true, rfl, min_le_min_right base hle, fun _ => rfl⟩
    · rintro rfl
      rfl
  · rw [if_neg hlt]
    refine hf.idle hnt hnt rfl rfl (fun h => h) ?_ ?_
    · rintro ⟨f, b, rfl, hle, hb⟩
      simp only [checkEvent, hlt, and_false, if_false]
      exact ⟨f, b, rfl, hle, hb⟩
    · rintro rfl
      rfl

theorem onTruncated_follows (epoch target : ℕ) (hC : LatchFollows s m (.truncated epoch target))
    (hf : Follows s m) :
    Follows (onTruncated epoch target s).1 (checkEvent s (.truncated epoch target) m) := by
  by_cases hmatch : s.truncatingEpoch = some epoch
  · obtain ⟨cut, rfl, hle, hval⟩ := hC hmatch
    obtain ⟨c, src, -, heq⟩ := onTruncated_matching s target hmatch
    obtain ⟨_, _, _, _, _, _, _, _, _, hr⟩ := revertConfig_frame { s with
      durable := min s.durable target
      termMap := s.pendingNewMap.getD s.termMap, pendingNewMap := none, truncatingEpoch := none
      awaitingReconcile := false, commitSeen := c, commitSource := src } target
    rw [heq, hr]
    simp only [checkEvent, hle, and_self, if_true]
    refine ⟨fun _ _ => .inl ⟨cut, false, rfl, hval, by simp⟩, ?_, ?_⟩
    · intro e he
      cases he
    · intro hc
      exact ⟨(hf.candidate hc).1, fun _ => .inl ⟨cut, false, rfl, hval, by simp⟩⟩
  · rw [onTruncated_stale s target hmatch]
    -- a stale ack finds no cut of its epoch, unless the latch is armed
    cases m with
    | cutting e cut =>
      simp only [checkEvent]
      split
      · rename_i he
        obtain ⟨rfl, -⟩ := he
        have hnt : s.truncatingEpoch = none := by
          cases ht : s.truncatingEpoch with
          | none => rfl
          | some e' =>
            rcases hf.cutting e' ht with ⟨cut', h⟩ | ⟨h, -⟩
            · cases h
              exact absurd ht hmatch
            · cases h
        have harmed : s.awaitingReconcile ≠ false := by
          intro ha
          rcases hf.opened hnt ha with ⟨f, b, h, -⟩ | ⟨h, -⟩ <;> cases h
        refine ⟨fun _ ha => absurd ha harmed, ?_, ?_⟩
        · intro e' he'
          rw [show s.truncatingEpoch = some e' from he'] at hnt
          cases hnt
        · intro hc
          rcases (hf.candidate hc).2 hnt with ⟨f, b, h, -⟩ | h <;> cases h
      · exact hf.frame ⟨rfl, rfl, rfl, rfl, rfl, fun h => h⟩ (.inl rfl)
    | entered => exact hf.frame ⟨rfl, rfl, rfl, rfl, rfl, fun h => h⟩ (.inl rfl)
    | validated f b => exact hf.frame ⟨rfl, rfl, rfl, rfl, rfl, fun h => h⟩ (.inl rfl)

theorem Follows.cut (hf : Follows s m) (target v : ℕ) (u : Bool) (map : Option TermMap) :
    Follows { s with
      truncationEpoch := s.truncationEpoch + 1
      truncatingEpoch := some (s.truncationEpoch + 1)
      pendingNewMap := map, validatedUpTo := v, unconfirmedBoundary := u }
      (.cutting (s.truncationEpoch + 1) target) := by
  refine ⟨?_, ?_, ?_⟩
  · intro h
    cases h
  · intro e he
    cases he
    exact .inl ⟨target, rfl⟩
  · intro hc
    refine ⟨(hf.candidate hc).1, ?_⟩
    intro h
    cases h

theorem reconcileTermMap_follows (entries : TermMap) (hnt : s.truncatingEpoch = none)
    (hf : Follows s m) : Follows (reconcileTermMap entries s).1 (checkMap s entries m) := by
  unfold checkMap
  cases hrec : reconcile s.termMap s.durable entries with
  | noCommonPrefix =>
    simp only [reconcileTermMap, hrec]
    split
    · exact hf.cut 0 s.validatedUpTo s.unconfirmedBoundary (some [])
    · exact hf
  | ok o =>
    by_cases hlt : o.validUpTo < s.durable
    · simp only [reconcileTermMap, hrec, hlt, if_true]
      exact hf.cut o.validUpTo o.validUpTo false (some o.newMap)
    · obtain ⟨c, src, hclean⟩ := reconcileTermMap_clean s hrec (not_lt.mp hlt)
      simp only [hclean, hlt, if_false]
      refine ⟨fun _ _ => .inl ⟨_, false, rfl, le_rfl, by simp⟩, ?_, ?_⟩
      · intro e he
        rw [show s.truncatingEpoch = some e from he] at hnt
        cases hnt
      · intro hc
        exact ⟨(hf.candidate hc).1, fun _ => .inl ⟨_, false, rfl, le_rfl, by simp⟩⟩

/-! ## Whole runs -/

theorem checkEvent_dropped (h : s.truncatingEpoch ≠ none) (hev : ev.passesLatch = false) (m : Check) :
    checkEvent s ev m = m := by
  cases ev with
  | termMapReceived term entries => simp [checkEvent, h]
  | truncated => cases hev
  | durableAdvanced durable =>
    rcases m with _ | _ | ⟨f, _ | _⟩ <;> simp [checkEvent, h]
  | dataTermObserved term base => cases m <;> simp [checkEvent, h]
  | _ => rfl

theorem watch_of_sameTerm (h : (s.step ev).1.currentTerm = s.currentTerm) (m : Check) :
    watch s ev m = checkEvent s ev m := by
  rw [watch, if_pos h]

theorem reconcileTermMap_currentTerm (entries : TermMap) (s : ElectionSm) :
    (reconcileTermMap entries s).1.currentTerm = s.currentTerm := by
  cases hrec : reconcile s.termMap s.durable entries with
  | noCommonPrefix =>
    simp only [reconcileTermMap, hrec]
    split <;> rfl
  | ok o =>
    by_cases hlt : o.validUpTo < s.durable
    · simp only [reconcileTermMap, hrec, hlt, if_true]
      rfl
    · obtain ⟨c, src, hclean⟩ := reconcileTermMap_clean s hrec (not_lt.mp hlt)
      rw [hclean]

theorem step_termMap_follows (term : ℕ) (entries : TermMap) (hnt : s.truncatingEpoch = none)
    (hf : Follows s m) :
    Follows (s.step (.termMapReceived term entries)).1
      (watch s (.termMapReceived term entries) m) := by
  have hstep : s.step (.termMapReceived term entries) = if term < s.currentTerm then (s, [])
      else andThen (adoptIfHigher term s) (reconcileTermMap entries) := by
    rw [step_of_idle hnt]
    rfl
  rcases lt_trichotomy term s.currentTerm with hlt | rfl | hgt
  · rw [if_pos hlt] at hstep
    have hkeep : watch s (.termMapReceived term entries) m = m := by
      rw [watch_of_sameTerm (by rw [hstep])]
      simp [checkEvent, hlt]
    rw [hstep, hkeep]
    exact hf
  · have hsame : adoptIfHigher s.currentTerm s = (s, []) := by
      simp [adoptIfHigher]
    rw [if_neg (lt_irrefl _), hsame] at hstep
    have hterm : (s.step (.termMapReceived s.currentTerm entries)).1.currentTerm =
        s.currentTerm := by
      rw [hstep]
      exact reconcileTermMap_currentTerm entries s
    rw [watch_of_sameTerm hterm, hstep]
    simp only [checkEvent, hnt, le_refl, and_self, if_true]
    exact reconcileTermMap_follows entries hnt hf
  · have hadopt : adoptIfHigher term s = adoptTerm term none s := by
      simp [adoptIfHigher, hgt]
    rw [if_neg (by omega), hadopt] at hstep
    have hterm : (s.step (.termMapReceived term entries)).1.currentTerm ≠ s.currentTerm := by
      rw [hstep, andThen_fst, reconcileTermMap_currentTerm]
      exact hgt.ne'
    rw [watch, if_neg hterm, hstep]
    simp only [checkEvent, hnt, hgt.le, and_self, if_true]
    exact reconcileTermMap_follows entries hnt (follows_adoptTerm term s)

theorem step_follows (hf : Follows s m) (hC : LatchFollows s m ev) :
    Follows (s.step ev).1 (watch s ev m) := by
  by_cases hlatch : s.truncatingEpoch ≠ none ∧ ev.passesLatch = false
  · -- a dropped event moves neither the node nor the monitor
    have hdrop : s.step ev = (s, []) := by
      simp [step, hlatch.2, Option.isSome_iff_ne_none, hlatch.1]
    rw [watch_of_sameTerm (by rw [hdrop]), checkEvent_dropped hlatch.1 hlatch.2, hdrop]
    exact hf
  have hnt : ev.passesLatch = false → s.truncatingEpoch = none := by
    intro hp
    by_contra h
    exact hlatch ⟨h, hp⟩
  cases ev with
  | termMapReceived term entries => exact step_termMap_follows term entries (hnt rfl) hf
  | truncated epoch target =>
    have hterm : (s.step (.truncated epoch target)).1.currentTerm = s.currentTerm := by
      rw [step_truncated]
      exact onTruncated_currentTerm s epoch target
    rw [watch_of_sameTerm hterm, step_truncated]
    exact onTruncated_follows epoch target hC hf
  | durableAdvanced durable =>
    have hstep : s.step (.durableAdvanced durable) = (onDurableAdvanced durable s, []) :=
      step_of_idle (hnt rfl)
    obtain ⟨v, heq, -⟩ := onDurableAdvanced_frame durable s
    rw [watch_of_sameTerm (by rw [hstep, heq]), hstep]
    exact onDurableAdvanced_follows durable (hnt rfl) hf
  | dataTermObserved term base =>
    have hstep : s.step (.dataTermObserved term base) = onDataTermObserved term base s :=
      step_of_idle (hnt rfl)
    have hterm : (onDataTermObserved term base s).1.currentTerm = s.currentTerm := by
      unfold onDataTermObserved
      split <;> rfl
    rw [watch_of_sameTerm (by rw [hstep, hterm]), hstep]
    exact onDataTermObserved_follows term base (hnt rfl) hf
  | _ => exact step_follows_plain rfl hf

variable {sm : ElectionSm}

theorem boot_follows (hb : Boot sm) : Follows sm sm.bootCheck := by
  have h := hb.state
  refine ⟨?_, ?_, ?_⟩
  · intro _ ha
    left
    refine ⟨sm.durable, false, ?_, h.validated.le, by simp⟩
    rw [bootCheck, if_neg]
    intro hlt
    exact absurd (h.latch hlt) (by simp [ha])
  · intro e he
    rw [h.notTruncating] at he
    cases he
  · intro hc
    rw [h.role] at hc
    cases hc

@[simp] theorem watched_nil (sm : ElectionSm) : watched sm [] = (sm, sm.bootCheck) := rfl

theorem watched_append (sm : ElectionSm) (evs : List Event) (ev : Event) :
    watched sm (evs ++ [ev]) = (((watched sm evs).1.step ev).1,
      watch (watched sm evs).1 ev (watched sm evs).2) := by
  simp [watched, List.foldl_append]

/-- Every step of a run of events meets `LatchFollows`. -/
def Latched (sm : ElectionSm) (evs : List Event) : Prop :=
  ∀ before ev after, evs = before ++ ev :: after →
    LatchFollows (watched sm before).1 (watched sm before).2 ev

theorem latched_nil (sm : ElectionSm) : Latched sm [] := by
  intro before ev after h
  simp at h

theorem latched_append {evs : List Event} :
    Latched sm (evs ++ [ev]) ↔
      Latched sm evs ∧ LatchFollows (watched sm evs).1 (watched sm evs).2 ev := by
  constructor
  · intro h
    refine ⟨?_, h evs ev [] rfl⟩
    rintro before e after rfl
    exact h before e (after ++ [ev]) (by simp)
  · rintro ⟨h, hlast⟩ before e after heq
    rcases List.eq_nil_or_concat after with rfl | ⟨after, e', rfl⟩
    · obtain ⟨rfl, rfl⟩ : evs = before ∧ ev = e := by simpa using heq
      exact hlast
    · refine h before e after ?_
      rw [List.concat_eq_append, ← List.cons_append, ← List.append_assoc] at heq
      exact (List.append_inj' heq rfl).1

theorem watched_follows (hb : Boot sm) {evs : List Event} (hC : Latched sm evs) :
    Follows (watched sm evs).1 (watched sm evs).2 := by
  induction evs using List.reverseRecOn with
  | nil => exact boot_follows hb
  | append_singleton evs ev ih =>
    obtain ⟨hinit, hlast⟩ := latched_append.mp hC
    rw [watched_append]
    exact step_follows (ih hinit) hlast

/-- **A commit that a node emits while it is not leader is validated in its
    current term**, in every run in which the latch follows the monitor. -/
theorem follower_commit_validated {sm : ElectionSm} (hb : Boot sm) {evs : List Event} {ev : Event}
    (hC : Latched sm (evs ++ [ev])) {c : ℕ} (he : EmitsAsFollower (watched sm evs).1 ev c) :
    ∃ f b, (watched sm (evs ++ [ev])).2 = .validated f b ∧ c ≤ f := by
  obtain ⟨hinit, hlast⟩ := latched_append.mp hC
  have hf := watched_follows hb hinit
  obtain ⟨hmem, hrole⟩ := he
  rw [watched_append]
  generalize (watched sm evs).1 = s at hf hlast hmem hrole ⊢
  generalize (watched sm evs).2 = m at hf hlast ⊢
  cases commitBy_of_mem hmem with
  | rank hl hterm =>
    have := hrole hl
    omega
  | gossip commit hnt ha hr hc =>
    rcases hf.opened hnt ha with ⟨f, b, hm, hle, -⟩ | ⟨hm, hv⟩
    · refine ⟨f, b, ?_, hc.trans hle⟩
      rw [watch_of_sameTerm (step_currentTerm rfl), hm]
      rfl
    · exact absurd hm (hlast rfl hr hnt ha hv)
  | clean term entries o hnt hle hrec hdur hc =>
    refine ⟨o.validUpTo, false, ?_, hc⟩
    have hmap : ∀ m, checkEvent s (.termMapReceived term entries) m =
        .validated o.validUpTo false := by
      intro m
      simp only [checkEvent, hnt, hle, and_self, if_true, checkMap, hrec]
      rw [if_neg (not_lt.mpr hdur)]
    exact hmap _
  | ack epoch target hmatch hc =>
    obtain ⟨cut, rfl, hle, hval⟩ := hlast hmatch
    refine ⟨cut, false, ?_, hc.trans hval⟩
    have hterm : (s.step (.truncated epoch target)).1.currentTerm = s.currentTerm := by
      rw [step_truncated]
      exact onTruncated_currentTerm s epoch target
    rw [watch_of_sameTerm hterm]
    simp [checkEvent, hle]

/-- A follower of term 2 cuts what the leader's map refutes, and only then
    applies the commit gossiped meanwhile. -/
theorem follower_commit_validated_after_cut :
    ∃ f b, (watched (genesisNode 1 [1, 2, 3] none [(1, 0)] 1000)
      ([.commitGossip 2 900, .termMapReceived 2 [(1, 0), (2, 600)]] ++ [.truncated 1 600])).2 =
        .validated f b ∧ 600 ≤ f := by
  refine follower_commit_validated (genesisNode_boot 1 1 [2, 3] none [(1, 0)] 1000) ?_
    ⟨by decide, by decide⟩
  refine latched_append.mpr ⟨?_, ?_⟩
  · have hsplit : ([.commitGossip 2 900, .termMapReceived 2 [(1, 0), (2, 600)]] : List Event) =
        ([] ++ [.commitGossip 2 900]) ++ [.termMapReceived 2 [(1, 0), (2, 600)]] := rfl
    rw [hsplit]
    refine latched_append.mpr ⟨latched_append.mpr ⟨latched_nil _, ?_⟩, trivial⟩
    intro hterm
    exact absurd hterm (by decide)
  · intro _
    exact ⟨600, by decide, by decide, by decide⟩

/-- A node that has validated term 1 stands for term 2, hears the gossip of
    term 2's leader and applies it to bytes which no map of term 2 has seen. -/
theorem follower_commit_unvalidated_after_candidacy :
    ¬ ∀ sm, Boot sm → ∀ evs ev c, EmitsAsFollower (watched sm evs).1 ev c →
      ∃ f b, (watched sm (evs ++ [ev])).2 = .validated f b ∧ c ≤ f := by
  intro h
  obtain ⟨f, b, hm, -⟩ := h _ (genesisNode_boot 1 1 [2, 3] none [(1, 0)] 1000) [.tick 20]
    (.commitGossip 2 600) 600 ⟨by decide, by decide⟩
  cases hm

end ElectionSm

end UltimaCluster
