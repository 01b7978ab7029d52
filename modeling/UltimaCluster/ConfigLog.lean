/-
  The adopted config of one node against the membership frames of its log
  (`observe_config`, `on_truncated` and `exec` of `uc_node/src/node.rs` over the
  election state machine).

  The archive makes frames durable and hands each one to the consensus agent
  once, through a channel; the agent feeds them to the state machine, holds
  them while a truncation is in flight and drops those above the cut when it is
  acked.  The durable record is rewritten before a cut and after an adoption.
  The elections that the node wins, purge and snapshots are not part of this
  model.
-/
import UltimaCluster.ConfigRecord
import UltimaCluster.Run
import UltimaCluster.Trans

namespace UltimaCluster

/-- What the state machine holds of the config, as a record. -/
def ElectionSm.configRecord (s : ElectionSm) : ConfigRecord :=
  ⟨s.configPosition, s.config, s.prevPosition, s.prevConfig⟩

/-- One node, its archive and what is between. -/
structure ConfigNode where
  /-- The config that `members` and `learners` of the node's own settings seed. -/
  genesis : ClusterConfig
  sm : ElectionSm
  /-- The durable record. -/
  record : ConfigRecord
  /-- The membership frames of our log. -/
  frames : List MembershipFrame
  /-- The archive's durable counter. -/
  durable : ℕ
  /-- Observations that the archive has sent. -/
  channel : List MembershipFrame
  /-- Observations that the agent has taken in. -/
  pendingCfgObs : List MembershipFrame
  /-- A truncation `(epoch, target)` that the archive has been asked for. -/
  commanded : Option (ℕ × ℕ)
  /-- The archive's answer. -/
  truncSlot : Option (ℕ × ℕ)
  /-- Ghost: the config that the log is read from, genesis until a wipe keeps
      another one. -/
  fiat : ClusterConfig
  /-- Ghost: the frames that have been observed. -/
  seen : List MembershipFrame

namespace ConfigNode

/-! ## The agent -/

/-- `exec`, as far as it concerns the config. -/
def execAction (n : ConfigNode) : Action → ConfigNode
  | .truncate epoch target _ =>
    -- the record is reverted before the cut is commanded
    { n with record := n.record.revert target, commanded := some (epoch, target) }
  | .configAdopted position config prevPosition prev =>
    { n with record := ⟨position, config, prevPosition, prev⟩ }
  | _ => n

def feed (n : ConfigNode) (ev : Event) : ConfigNode :=
  (n.sm.step ev).2.foldl execAction { n with sm := (n.sm.step ev).1 }

/-- Feed one membership frame. -/
def feedObserved (n : ConfigNode) (f : MembershipFrame) : ConfigNode :=
  { n.feed (.configObserved f.frameEnd f.config) with seen := f :: n.seen }

/-- One observation, behind the belt: nothing above the durable counter. -/
def observeConfig (n : ConfigNode) (f : MembershipFrame) : ConfigNode :=
  if n.durable < f.frameEnd then n else n.feedObserved f

/-- Take the channel in; feed what is held unless a truncation is in flight. -/
def drain (n : ConfigNode) : ConfigNode :=
  let held := n.pendingCfgObs ++ n.channel
  if n.sm.truncatingEpoch.isSome then { n with pendingCfgObs := held, channel := [] }
  else held.foldl observeConfig { n with pendingCfgObs := [], channel := [] }

/-- `on_truncated`: drop what is above the cut, then feed the ack. -/
def onTruncated (n : ConfigNode) (epoch target : ℕ) : ConfigNode :=
  feed { n with
    pendingCfgObs := upTo n.pendingCfgObs target
    truncSlot := none
    fiat := if target = 0 then n.sm.config else n.fiat } (.truncated epoch target)

/-! ## The archive -/

/-- Bytes up to `d` become durable; their membership frames are observed. -/
def persist (n : ConfigNode) (d : ℕ) : ConfigNode :=
  { n with
    durable := max n.durable d
    channel := n.channel ++ n.frames.filter fun f => n.durable < f.frameEnd ∧ f.frameEnd ≤ d }

/-- The commanded cut. -/
def cut (n : ConfigNode) : ConfigNode :=
  match n.commanded with
  | some (epoch, target) =>
    { n with
      frames := upTo n.frames target
      seen := upTo n.seen target
      durable := target
      commanded := none
      truncSlot := some (epoch, target) }
  | none => n

/-- Crash and boot: what is not durable is lost, the record is recovered. -/
def restart (n : ConfigNode) (cfg : ElectionConfig) (vote : Option (ℕ × NodeId)) (map : TermMap)
    (nowNs : ℕ) : ConfigNode :=
  let frames := upTo n.frames n.durable
  let r := recoverConfigRecord (some n.record) frames 0 n.durable n.genesis
  if r.config.tombstones.contains cfg.id then n
  else
    match ElectionSm.new { cfg with config := r.config, configPosition := r.position } vote map
        n.durable nowNs with
    | none => n
    | some sm =>
      { n with
        sm := sm.restorePrevConfig r.prev r.prevPosition
        record := r
        frames
        channel := []
        pendingCfgObs := []
        commanded := none
        truncSlot := none
        fiat := recoveredFiat n.fiat (unaheadRecord n.genesis n.durable n.record)
        seen := frames }

/-! ## Runs -/

/-- A step of the agent or of the archive. -/
inductive Op where
  /-- Any event but those that the other operations feed. -/
  | event (ev : Event)
  /-- The agent polls the durable counter. -/
  | refresh
  /-- A frame of the leader's stream enters our log. -/
  | receive (f : MembershipFrame)
  /-- Our own change, adopted at append. -/
  | append (op : ConfigOp) (position length : ℕ)
  | persist (d : ℕ)
  | drain
  | cut
  | ack
  | restart (cfg : ElectionConfig) (vote : Option (ℕ × NodeId)) (map : TermMap) (nowNs : ℕ)

/-- The events that come from the archive. -/
def fromArchive : Event → Bool
  | .durableAdvanced _ | .truncated .. | .configObserved .. => true
  | _ => false

/-- One step of the node. -/
def step (n : ConfigNode) : Op → ConfigNode
  | .event ev => if fromArchive ev then n else n.feed ev
  | .refresh => n.feed (.durableAdvanced n.durable)
  | .receive f =>
    -- the intake gate is closed while a truncation is in flight
    if n.sm.truncatingEpoch.isSome then n else { n with frames := n.frames ++ [f] }
  | .append op position length =>
    if n.sm.truncatingEpoch.isSome then n
    else match n.sm.config.apply op with
      | .ok config =>
        let f : MembershipFrame := ⟨position, length, config⟩
        { n with frames := n.frames ++ [f] }.feedObserved f
      | .error _ => n
  | .persist d =>
    -- between the cut and its ack the archive has nothing above the cut
    if n.truncSlot.isSome then n else n.persist d
  | .drain => n.drain
  | .cut => n.cut
  | .ack =>
    match n.truncSlot with
    | some (epoch, target) => n.onTruncated epoch target
    | none => n
  | .restart cfg vote map nowNs => n.restart cfg vote map nowNs

def run (n : ConfigNode) (ops : List Op) : ConfigNode := ops.foldl step n

/-- The node has observed every membership frame of its log. -/
def Observed (n : ConfigNode) : Prop := ∀ f ∈ n.frames, f ∈ n.seen

instance (n : ConfigNode) : Decidable n.Observed :=
  inferInstanceAs (Decidable (∀ f ∈ n.frames, f ∈ n.seen))

/-- The frame goes at the end of the log, with a version above all in it. -/
def Extends (n : ConfigNode) (f : MembershipFrame) : Prop :=
  0 < f.length ∧ 0 < f.config.version ∧ n.durable ≤ f.position ∧
    ∀ g ∈ n.frames, g.frameEnd ≤ f.position ∧ g.config.version < f.config.version

/-- The truncation in flight takes at most the last adopted frame away. -/
def OneExposed (n : ConfigNode) : Prop :=
  ∀ p ∈ n.commanded, p.2 = 0 ∨ n.sm.configPosition ≤ p.2 ∨ n.sm.prevPosition ≤ p.2

/-- The action that opens a term, with which the node collapses its log. -/
def opensTerm : Action → Bool
  | .becomeLeader .. => true
  | _ => false

/-- What a log and its archive promise at each operation. -/
def Fits (n : ConfigNode) : Op → Prop
  | .event ev => ∀ a ∈ (n.sm.step ev).2, opensTerm a = false
  | .receive f => n.Extends f
  | .append op position length =>
    match n.sm.config.apply op with
    | .ok config => n.Extends ⟨position, length, config⟩ ∧
        ∀ g ∈ n.frames, g.config.version ≤ n.sm.config.version
    | .error _ => True
  | .cut | .restart .. => n.OneExposed
  -- the observations above the cut have been drained
  | .ack => ∀ p ∈ n.truncSlot, ∀ f ∈ n.channel, f.frameEnd ≤ p.2
  | _ => True

instance (n : ConfigNode) (f : MembershipFrame) : Decidable (n.Extends f) :=
  inferInstanceAs (Decidable (_ ∧ _ ∧ _ ∧ _))

instance (n : ConfigNode) : Decidable n.OneExposed :=
  inferInstanceAs (Decidable (∀ p ∈ n.commanded, _))

instance (n : ConfigNode) : (op : Op) → Decidable (n.Fits op)
  | .event ev => inferInstanceAs (Decidable (∀ a ∈ (n.sm.step ev).2, _))
  | .receive f => inferInstanceAs (Decidable (n.Extends f))
  | .append op position length =>
    match h : n.sm.config.apply op with
    | .ok config => decidable_of_iff (n.Extends ⟨position, length, config⟩ ∧
        ∀ g ∈ n.frames, g.config.version ≤ n.sm.config.version) (by simp [Fits, h])
    | .error _ => .isTrue (by simp [Fits, h])
  | .cut | .restart .. => inferInstanceAs (Decidable n.OneExposed)
  | .ack => inferInstanceAs (Decidable (∀ p ∈ n.truncSlot, _))
  | .refresh | .persist _ | .drain => .isTrue trivial

/-- A fresh instance. -/
structure Fresh (n : ConfigNode) : Prop where
  boot : ElectionSm.Boot n.sm
  genesis : n.genesis.version = 0
  record : n.record = .seed n.genesis
  sm : n.sm.configRecord = .seed n.genesis
  revert : n.sm.revertOnTruncate
  durable : n.sm.durable = n.durable
  fiat : n.fiat = n.genesis
  frames : n.frames = []
  channel : n.channel = []
  pending : n.pendingCfgObs = []
  commanded : n.commanded = none
  slot : n.truncSlot = none
  seen : n.seen = []

end ConfigNode

/-! ## What the state machine does to its config -/

namespace ElectionSm

/-- No action of the list is an adoption. -/
def NoAdoption (out : List Action) : Prop :=
  ∀ position config prevPosition prev, .configAdopted position config prevPosition prev ∉ out

theorem noAdoption_append {out out' : List Action} (h : NoAdoption out) (h' : NoAdoption out') :
    NoAdoption (out ++ out') := by
  intro p c pp pc hmem
  rcases List.mem_append.mp hmem with hmem | hmem
  · exact h p c pp pc hmem
  · exact h' p c pp pc hmem

/-- Either no truncation is issued, or one is, on an open latch, at or below
    our durable. -/
def Commands (s s' : ElectionSm) (out : List Action) : Prop :=
  (truncates out = [] ∧ s'.truncatingEpoch = s.truncatingEpoch) ∨
    ∃ epoch target, truncates out = [(epoch, target)] ∧ s.truncatingEpoch = none ∧
      s'.truncatingEpoch = some epoch ∧ target ≤ s.durable

/-- The config stays as it is, with its record and the durable position. -/
def SameConfig (s s' : ElectionSm) : Prop :=
  s'.configRecord = s.configRecord ∧ s'.revertOnTruncate = s.revertOnTruncate ∧
    s'.durable = s.durable

theorem SameConfig.refl (s : ElectionSm) : SameConfig s s := ⟨rfl, rfl, rfl⟩

theorem SameConfig.trans {s s' s'' : ElectionSm} (h : SameConfig s s') (h' : SameConfig s' s'') :
    SameConfig s s'' :=
  ⟨h'.1.trans h.1, h'.2.1.trans h.2.1, h'.2.2.trans h.2.2⟩

variable {out : List Action} {s s' : ElectionSm}

theorem Trans.sameConfig {ev : Event} (h : Trans ev s s' out)
    (hev : ConfigNode.fromArchive ev = false) : SameConfig s s' := by
  cases h with
  | rank nowNs _ _ =>
    rw [rankLeader_eq]
    exact .refl s
  | gossip _ _ =>
    rw [advanceGossipCommit_eq]
    exact .refl s
  | finish _ _ =>
    rw [finishValidation_eq]
    exact .refl s
  | observeTerm term base _ _ _ =>
    unfold onDataTermObserved
    split <;> exact .refl s
  | durableAdvance _ h | clamp _ _ h | settle _ _ h | revert _ _ h | observeConfig _ _ h =>
    subst h
    cases hev
  | _ => exact .refl s

/-- Actions that neither adopt a config nor truncate. -/
def SparesRecord (out : List Action) : Prop := NoAdoption out ∧ truncates out = []

theorem rankLeader_spares (nowNs : ℕ) (s : ElectionSm) : SparesRecord (rankLeader nowNs s).2 := by
  unfold rankLeader
  dsimp only
  split
  · split_ifs <;> exact ⟨by simp [NoAdoption], rfl⟩
  · exact ⟨by simp [NoAdoption], rfl⟩

theorem haltIfRemovedFollower_spares (s : ElectionSm) (a : Action)
    (ha : SparesRecord [a]) : SparesRecord (a :: s.haltIfRemovedFollower.2) := by
  unfold haltIfRemovedFollower
  split
  · exact ⟨noAdoption_append ha.1 (by simp [NoAdoption]), by simpa [truncates] using ha.2⟩
  · exact ha

theorem advanceGossipCommit_spares (s : ElectionSm) : SparesRecord s.advanceGossipCommit.2 := by
  unfold advanceGossipCommit
  dsimp only
  split_ifs <;> exact ⟨by simp [NoAdoption], rfl⟩

theorem finishValidation_spares (s : ElectionSm) : SparesRecord s.finishValidation.2 := by
  unfold finishValidation
  split
  · exact advanceGossipCommit_spares _
  · exact ⟨by simp [NoAdoption], rfl⟩

theorem Trans.commands {ev : Event} (h : Trans ev s s' out)
    (hev : ConfigNode.fromArchive ev = false) : NoAdoption out ∧ Commands s s' out := by
  cases h with
  | adopt term _ _ =>
    have hq := haltIfRemovedFollower_spares (adoptTerm term none s).1 (.becomeFollower term none)
      ⟨by simp [NoAdoption], rfl⟩
    exact ⟨hq.1, .inl ⟨hq.2, rfl⟩⟩
  | stepDown _ _ =>
    have hq := haltIfRemovedFollower_spares s.stepDownToFollower.1
      (.becomeFollower s.currentTerm none) ⟨by simp [NoAdoption], rfl⟩
    exact ⟨hq.1, .inl ⟨hq.2, rfl⟩⟩
  | rank nowNs _ _ =>
    obtain ⟨_, _, _, _, _, _, _, _, h⟩ := rankLeader_frame s nowNs
    have hq := rankLeader_spares nowNs s
    refine ⟨hq.1, .inl ⟨hq.2, ?_⟩⟩
    rw [h]
  | gossip _ _ =>
    obtain ⟨_, _, h⟩ := advanceGossipCommit_frame s
    have hq := advanceGossipCommit_spares s
    refine ⟨hq.1, .inl ⟨hq.2, ?_⟩⟩
    rw [h]
  | finish _ _ =>
    obtain ⟨_, _, h⟩ := finishValidation_frame s
    have hq := finishValidation_spares s
    refine ⟨hq.1, .inl ⟨hq.2, ?_⟩⟩
    rw [h]
  | cut entries o _ _ hlt hnt =>
    exact ⟨by simp [NoAdoption, issueTruncate], .inr ⟨_, o.validUpTo, rfl, hnt, rfl, hlt.le⟩⟩
  | wipe entries _ _ hnt =>
    exact ⟨by simp [NoAdoption, issueTruncate], .inr ⟨_, 0, rfl, hnt, rfl, Nat.zero_le _⟩⟩
  | observeTerm term base _ hlt _ =>
    have heq : onDataTermObserved term base s = _ := if_pos hlt
    rw [heq]
    exact ⟨by simp [NoAdoption], .inl ⟨rfl, rfl⟩⟩
  | win _ _ _ => exact ⟨by simp [NoAdoption, becomeLeader], .inl ⟨rfl, rfl⟩⟩
  | grant _ _ _ _ _ _ _ => exact ⟨by simp [NoAdoption, grantVote], .inl ⟨rfl, rfl⟩⟩
  | durableAdvance _ h | clamp _ _ h | settle _ _ h | revert _ _ h | observeConfig _ _ h =>
    subst h
    cases hev
  | _ => exact ⟨by simp [NoAdoption], .inl ⟨rfl, rfl⟩⟩

theorem Steps.commands {ev : Event} (h : Steps ev s s' out)
    (hev : ConfigNode.fromArchive ev = false) :
    SameConfig s s' ∧ NoAdoption out ∧ Commands s s' out := by
  induction h with
  | nil => exact ⟨.refl _, by simp [NoAdoption], .inl ⟨rfl, rfl⟩⟩
  | cons ht _ ih =>
    obtain ⟨hna, hcmd⟩ := ht.commands hev
    obtain ⟨hsame, hna', hcmd'⟩ := ih
    have hfirst := ht.sameConfig hev
    refine ⟨hfirst.trans hsame, noAdoption_append hna hna', ?_⟩
    unfold Commands truncates at *
    rw [List.filterMap_append]
    rcases hcmd with ⟨ht1, he1⟩ | ⟨epoch, target, ht1, hn1, he1, hle⟩
    · rcases hcmd' with ⟨ht2, he2⟩ | ⟨epoch, target, ht2, hn2, he2, hle⟩
      · exact .inl ⟨by rw [ht1, ht2]; rfl, he2.trans he1⟩
      · refine .inr ⟨epoch, target, by rw [ht1, ht2]; rfl, he1.symm.trans hn2, he2, ?_⟩
        rw [← hfirst.2.2]
        exact hle
    · -- with one in flight the latch is closed to the next
      rcases hcmd' with ⟨ht2, he2⟩ | ⟨_, _, _, hn2, _, _⟩
      · exact .inr ⟨epoch, target, by rw [ht1, ht2]; rfl, hn1, he2.trans he1, hle⟩
      · rw [he1] at hn2
        cases hn2

theorem adoptConfig_announces (position : ℕ) (cfg : ClusterConfig) (s : ElectionSm) :
    ∃ rest, SparesRecord rest ∧ (adoptConfig position cfg s).2 =
      .configAdopted position cfg s.configPosition s.config :: rest := by
  obtain ⟨tr, h⟩ := rebuildMembership_frame { s with
    prevConfig := s.config, prevPosition := s.configPosition
    config := cfg, configPosition := position } true
  unfold adoptConfig
  dsimp only
  rw [h]
  split
  · refine ⟨_, ?_, rfl⟩
    split_ifs <;> exact ⟨by simp [NoAdoption], rfl⟩
  · exact ⟨[], ⟨by simp [NoAdoption], rfl⟩, rfl⟩

/-- The action that persists a record. -/
def adoptionOf (r : ConfigRecord) : Action :=
  .configAdopted r.position r.config r.prevPosition r.prev

/-- A step that moves the config to `r`, announces it if it moved at all, and
    leaves the rest that matters here. -/
structure MovesConfig (s : ElectionSm) (r : ConfigRecord) (s' : ElectionSm) (out : List Action) :
    Prop where
  config : s'.configRecord = r
  revert : s'.revertOnTruncate = s.revertOnTruncate
  latch : s'.truncatingEpoch = none
  out : (r = s.configRecord ∧ SparesRecord out) ∨
    ∃ before after, SparesRecord before ∧ SparesRecord after ∧ out = before ++ adoptionOf r :: after

theorem step_configObserved (hnt : s.truncatingEpoch = none) (f : MembershipFrame) :
    MovesConfig s (s.configRecord.observe f) (s.step (.configObserved f.frameEnd f.config)).1
      (s.step (.configObserved f.frameEnd f.config)).2 ∧
      (s.step (.configObserved f.frameEnd f.config)).1.durable = s.durable := by
  rw [step_of_idle hnt]
  dsimp only [stepBody]
  split
  · rename_i hv
    have hgate : s.configRecord.observe f = s.configRecord := if_pos hv
    rw [hgate]
    exact ⟨⟨rfl, rfl, hnt, .inl ⟨rfl, by simp [NoAdoption], rfl⟩⟩, rfl⟩
  · rename_i hv
    have hgate : s.configRecord.observe f = ⟨f.frameEnd, f.config, s.configPosition, s.config⟩ :=
      if_neg hv
    rw [hgate]
    obtain ⟨_, _, h⟩ := adoptConfig_frame s f.frameEnd f.config
    obtain ⟨rest, hrest, hout⟩ := adoptConfig_announces f.frameEnd f.config s
    rw [h, hout]
    exact ⟨⟨rfl, rfl, hnt, .inr ⟨[], rest, ⟨by simp [NoAdoption], rfl⟩, hrest, rfl⟩⟩, rfl⟩

theorem revertConfig_moves (target : ℕ) (hr : s.revertOnTruncate) (hnt : s.truncatingEpoch = none) :
    MovesConfig s (s.configRecord.revert target) (revertConfig target s).1
      (revertConfig target s).2 := by
  have hquiet : SparesRecord [] := ⟨by simp [NoAdoption], rfl⟩
  unfold revertConfig
  by_cases hlt : target < s.configPosition
  · rw [if_pos (And.intro hlt hr)]
    dsimp only
    by_cases h0 : target = 0
    · have hrec : s.configRecord.revert target = .seed s.config :=
        (if_pos hlt).trans (if_pos h0)
      obtain ⟨tr, h⟩ := rebuildMembership_frame { s with
        configPosition := 0, prevConfig := s.config, prevPosition := 0 } false
      rw [hrec, if_pos h0, h]
      exact ⟨rfl, rfl, hnt, .inr ⟨[], [], hquiet, hquiet, rfl⟩⟩
    · have hrec : s.configRecord.revert target = s.configRecord.promotePrev :=
        (if_pos hlt).trans (if_neg h0)
      obtain ⟨tr, h⟩ := rebuildMembership_frame { s with
        config := s.prevConfig, configPosition := s.prevPosition } false
      rw [hrec, if_neg h0, h]
      exact ⟨rfl, rfl, hnt, .inr ⟨[], [], hquiet, hquiet, rfl⟩⟩
  · have hrec : s.configRecord.revert target = s.configRecord := if_neg hlt
    rw [hrec, if_neg (fun h => hlt h.1)]
    exact ⟨rfl, rfl, hnt, .inl ⟨rfl, hquiet⟩⟩

theorem step_truncated_moves {epoch : ℕ} (target : ℕ) (hr : s.revertOnTruncate)
    (he : s.truncatingEpoch = some epoch) :
    MovesConfig s (s.configRecord.revert target) (s.step (.truncated epoch target)).1
      (s.step (.truncated epoch target)).2 := by
  rw [step_truncated]
  unfold onTruncated
  rw [if_neg (not_not.mpr he)]
  obtain ⟨c, src, hf⟩ := finishValidation_frame { s with
    durable := min s.durable target
    termMap := s.pendingNewMap.getD s.termMap, pendingNewMap := none, truncatingEpoch := none }
  have hq := finishValidation_spares { s with
    durable := min s.durable target
    termMap := s.pendingNewMap.getD s.termMap, pendingNewMap := none, truncatingEpoch := none }
  rw [andThen_fst, andThen_snd, hf]
  have hmoves := revertConfig_moves (s := { s with
    durable := min s.durable target
    termMap := s.pendingNewMap.getD s.termMap, pendingNewMap := none, truncatingEpoch := none
    awaitingReconcile := false, commitSeen := c, commitSource := src }) target hr rfl
  refine { hmoves with out := ?_ }
  rcases hmoves.out with ⟨hsame, hquiet⟩ | ⟨before, after, hb, ha, hout⟩
  · refine .inl ⟨hsame, noAdoption_append hq.1 hquiet.1, ?_⟩
    unfold truncates
    rw [List.filterMap_append]
    exact congrArg₂ (· ++ ·) hq.2 hquiet.2
  · refine .inr ⟨_ ++ before, after, ⟨noAdoption_append hq.1 hb.1, ?_⟩, ha, ?_⟩
    · unfold truncates
      rw [List.filterMap_append]
      exact congrArg₂ (· ++ ·) hq.2 hb.2
    · rw [hout, List.append_assoc]
      rfl

end ElectionSm

/-! ## What the agent does with it -/

namespace ConfigNode

open ElectionSm

theorem foldl_execAction {out : List Action} (h : NoAdoption out) (n : ConfigNode) :
    out.foldl execAction n = (truncates out).foldl (fun n p =>
      { n with record := n.record.revert p.2, commanded := some p }) n := by
  induction out generalizing n with
  | nil => rfl
  | cons a out ih =>
    have htail : NoAdoption out := fun p c pp pc hmem => h p c pp pc (List.mem_cons_of_mem _ hmem)
    cases a with
    | configAdopted p c pp pc => exact absurd List.mem_cons_self (h p c pp pc)
    | _ => exact ih htail _

theorem foldl_execAction_spares {out : List Action} (h : SparesRecord out) (n : ConfigNode) :
    out.foldl execAction n = n := by
  rw [foldl_execAction h.1, h.2]
  rfl

theorem feed_moves {n : ConfigNode} {ev : Event} {r : ConfigRecord}
    (h : MovesConfig n.sm r (n.sm.step ev).1 (n.sm.step ev).2)
    (hrec : n.record = n.sm.configRecord ∨ n.record = r) :
    n.feed ev = { n with sm := (n.sm.step ev).1, record := r } := by
  unfold feed
  rcases h.out with ⟨hsame, hquiet⟩ | ⟨before, after, hb, ha, hout⟩
  · have heq : n.record = r := hrec.elim (fun h => h.trans hsame.symm) (fun h => h)
    rw [foldl_execAction_spares hquiet, ← heq]
  · rw [hout, List.foldl_append, foldl_execAction_spares hb, List.foldl_cons,
      foldl_execAction_spares ha]
    rfl

theorem feed_other {n : ConfigNode} {ev : Event} (hev : fromArchive ev = false) :
    n.feed ev = { n with sm := (n.sm.step ev).1 } ∧
        (n.sm.step ev).1.truncatingEpoch = n.sm.truncatingEpoch ∨
      ∃ epoch target, n.sm.truncatingEpoch = none ∧
        (n.sm.step ev).1.truncatingEpoch = some epoch ∧ target ≤ n.sm.durable ∧
        n.feed ev = { n with
          sm := (n.sm.step ev).1, record := n.record.revert target
          commanded := some (epoch, target) } := by
  obtain ⟨-, hna, hcmd⟩ := (step_steps n.sm ev).commands hev
  unfold feed
  rw [foldl_execAction hna]
  rcases hcmd with ⟨ht, he⟩ | ⟨epoch, target, ht, hn, he, hle⟩
  · rw [ht]
    exact .inl ⟨rfl, he⟩
  · rw [ht]
    exact .inr ⟨epoch, target, hn, he, hle, rfl⟩

/-! ## The invariant -/

/-- The record that stands once the archive's answer is taken in. -/
def settled (n : ConfigNode) : ConfigRecord :=
  match n.truncSlot with
  | some (_, target) => n.sm.configRecord.revert target
  | none => n.sm.configRecord

/-- The config that the log is read from once the answer is taken in. -/
def settledFiat (n : ConfigNode) : ClusterConfig :=
  match n.truncSlot with
  | some (_, target) => if target = 0 then n.sm.configRecord.config else n.fiat
  | none => n.fiat

/-- `queue` are the observations on their way. -/
structure Inv (n : ConfigNode) (queue : List MembershipFrame) : Prop where
  follows : Follows n.settledFiat n.frames n.durable n.seen queue n.settled
  revert : n.sm.revertOnTruncate
  latch : n.sm.truncatingEpoch = (n.commanded.or n.truncSlot).map Prod.fst
  /-- The durable record is ahead of the state machine by the revert in flight. -/
  record : n.record = ((n.commanded.or n.truncSlot).map fun p =>
    n.sm.configRecord.revert p.2).getD n.sm.configRecord
  idle : n.truncSlot = none → n.sm.durable ≤ n.durable ∧
    (∀ f ∈ queue, f.frameEnd ≤ n.durable) ∧
    ∀ epoch target, n.commanded = some (epoch, target) → target ≤ n.durable
  answered : ∀ epoch target, n.truncSlot = some (epoch, target) →
    n.commanded = none ∧ target = n.durable ∧ ∀ f ∈ n.frames, f.frameEnd ≤ target

variable {n : ConfigNode} {queue : List MembershipFrame}

theorem Inv.idle_of_open (h : Inv n queue) (hnt : n.sm.truncatingEpoch = none) :
    n.commanded = none ∧ n.truncSlot = none := by
  have hl := h.latch
  rw [hnt] at hl
  cases hc : n.commanded with
  | some p =>
    rw [hc] at hl
    cases hl
  | none =>
    refine ⟨rfl, ?_⟩
    cases ht : n.truncSlot with
    | some p =>
      rw [hc, ht] at hl
      cases hl
    | none => rfl

theorem settled_of_idle (hs : n.truncSlot = none) : n.settled = n.sm.configRecord := by
  unfold settled
  rw [hs]

theorem settledFiat_of_idle (hs : n.truncSlot = none) : n.settledFiat = n.fiat := by
  unfold settledFiat
  rw [hs]

/-- On an open latch the invariant is about the state machine's own config. -/
theorem Inv.follows_of_open (h : Inv n queue) (hs : n.truncSlot = none) :
    Follows n.fiat n.frames n.durable n.seen queue n.sm.configRecord := by
  have hf := h.follows
  rwa [settled_of_idle hs, settledFiat_of_idle hs] at hf

theorem Inv.record_of_open (h : Inv n queue) (hnt : n.sm.truncatingEpoch = none) :
    n.record = n.sm.configRecord := by
  obtain ⟨hc, hs⟩ := h.idle_of_open hnt
  have hrec := h.record
  rwa [hc, hs] at hrec

theorem inv_of_open (hf : Follows n.fiat n.frames n.durable n.seen queue n.sm.configRecord)
    (hr : n.sm.revertOnTruncate) (ht : n.sm.truncatingEpoch = none) (hc : n.commanded = none)
    (hs : n.truncSlot = none) (hrec : n.record = n.sm.configRecord)
    (hd : n.sm.durable ≤ n.durable) (hq : ∀ f ∈ queue, f.frameEnd ≤ n.durable) : Inv n queue := by
  refine ⟨?_, hr, ?_, ?_, ?_, ?_⟩
  · rw [settled_of_idle hs, settledFiat_of_idle hs]
    exact hf
  · rw [ht, hc, hs]
    rfl
  · rw [hrec, hc, hs]
    rfl
  · intro _
    refine ⟨hd, hq, ?_⟩
    intro epoch target h
    rw [hc] at h
    cases h
  · intro epoch target h
    rw [hs] at h
    cases h

theorem Inv.sm_congr (h : Inv n queue) {s : ElectionSm}
    (hc : s.configRecord = n.sm.configRecord) (hr : s.revertOnTruncate = n.sm.revertOnTruncate)
    (ht : s.truncatingEpoch = n.sm.truncatingEpoch)
    (hd : n.truncSlot = none → s.durable ≤ n.durable) : Inv { n with sm := s } queue := by
  have hsettled : settled { n with sm := s } = n.settled := by
    unfold settled
    rw [hc]
  have hfiat : settledFiat { n with sm := s } = n.settledFiat := by
    unfold settledFiat
    rw [hc]
  refine ⟨?_, hr.trans h.revert, ht.trans h.latch, ?_, ?_, h.answered⟩
  · rw [hsettled, hfiat]
    exact h.follows
  · rw [hc]
    exact h.record
  · intro hs
    exact ⟨hd hs, (h.idle hs).2⟩

theorem Inv.event (h : Inv n queue) {ev : Event} (hev : fromArchive ev = false) :
    Inv (n.feed ev) queue := by
  obtain ⟨⟨hc, hr, hd⟩, -, -⟩ := (step_steps n.sm ev).commands hev
  rcases feed_other (n := n) hev with ⟨heq, ht⟩ | ⟨epoch, target, hn, ht, hle, heq⟩
  · rw [heq]
    refine h.sm_congr hc hr ht ?_
    intro hs
    rw [hd]
    exact (h.idle hs).1
  · -- a truncation is commanded: the record is reverted ahead of it
    obtain ⟨hcmd, hslot⟩ := h.idle_of_open hn
    obtain ⟨h1, h2, -⟩ := h.idle hslot
    rw [heq]
    refine ⟨?_, hr.trans h.revert, ht, ?_, ?_, ?_⟩
    · rw [settled_of_idle (by exact hslot), settledFiat_of_idle (by exact hslot)]
      rw [hc]
      exact h.follows_of_open hslot
    · rw [h.record_of_open hn, hc]
      rfl
    · intro _
      refine ⟨hd.le.trans h1, h2, ?_⟩
      intro e t het
      cases het
      exact hle.trans h1
    · intro e t het
      rw [show n.truncSlot = some (e, t) from het] at hslot
      cases hslot

theorem Inv.refresh (h : Inv n queue) : Inv (n.feed (.durableAdvanced n.durable)) queue := by
  by_cases hnt : n.sm.truncatingEpoch = none
  · obtain ⟨-, hslot⟩ := h.idle_of_open hnt
    have hle := (h.idle hslot).1
    have hfeed : n.feed (.durableAdvanced n.durable) =
        { n with sm := onDurableAdvanced n.durable n.sm } := by
      unfold feed
      rw [step_of_idle hnt]
      rfl
    rw [hfeed]
    unfold onDurableAdvanced
    dsimp only
    split
    · exact h.sm_congr rfl rfl rfl fun _ => max_le hle le_rfl
    · exact h.sm_congr rfl rfl rfl fun _ => max_le hle le_rfl
  · have hfeed : n.feed (.durableAdvanced n.durable) = n := by
      unfold feed
      have hsome : n.sm.truncatingEpoch.isSome := Option.isSome_iff_ne_none.mpr hnt
      have hstep : n.sm.step (.durableAdvanced n.durable) = (n.sm, []) := by
        simp [ElectionSm.step, hsome, Event.passesLatch]
      rw [hstep]
      rfl
    rw [hfeed]
    exact h

variable {f : MembershipFrame}

theorem Inv.receive (h : Inv n queue) (hf : n.Extends f) (hnt : n.sm.truncatingEpoch = none) :
    Inv { n with frames := n.frames ++ [f] } queue := by
  obtain ⟨hc, hs⟩ := h.idle_of_open hnt
  obtain ⟨hd, hq, -⟩ := h.idle hs
  obtain ⟨hpos, hv, hdur, hend⟩ := hf
  exact inv_of_open ((h.follows_of_open hs).concat hpos hv hdur hend) h.revert hnt hc hs
    (h.record_of_open hnt) hd hq

theorem Inv.feedObserved (hr : n.sm.revertOnTruncate) (hnt : n.sm.truncatingEpoch = none)
    (hc : n.commanded = none) (hs : n.truncSlot = none) (hrec : n.record = n.sm.configRecord)
    (hd : n.sm.durable ≤ n.durable) (hq : ∀ f ∈ queue, f.frameEnd ≤ n.durable)
    (hf : Follows n.fiat n.frames n.durable (f :: n.seen) queue (n.sm.configRecord.observe f)) :
    Inv (n.feedObserved f) queue := by
  obtain ⟨hmoves, hdur⟩ := step_configObserved hnt f
  unfold ConfigNode.feedObserved
  rw [feed_moves hmoves (.inl hrec)]
  refine inv_of_open ?_ (hmoves.revert.trans hr) hmoves.latch hc hs hmoves.config.symm
    (hdur.le.trans hd) hq
  rw [hmoves.config]
  exact hf

theorem Inv.append (h : Inv n queue) (hf : n.Extends f)
    (hall : ∀ g ∈ n.frames, g.config.version ≤ n.sm.config.version)
    (hnt : n.sm.truncatingEpoch = none) :
    Inv ({ n with frames := n.frames ++ [f] }.feedObserved f) queue := by
  obtain ⟨hc, hs⟩ := h.idle_of_open hnt
  obtain ⟨hd, hq, -⟩ := h.idle hs
  obtain ⟨hpos, hv, hdur, hend⟩ := hf
  exact Inv.feedObserved (n := { n with frames := n.frames ++ [f] }) h.revert hnt hc hs
    (h.record_of_open hnt) hd hq ((h.follows_of_open hs).append hpos hv hdur hend hall)

theorem Inv.persist (h : Inv n (n.pendingCfgObs ++ n.channel)) (hs : n.truncSlot = none) (d : ℕ) :
    Inv (n.persist d) ((n.persist d).pendingCfgObs ++ (n.persist d).channel) := by
  obtain ⟨hd, hq, ht⟩ := h.idle hs
  have hf := (h.follows_of_open hs).persist d hq
  rw [List.append_assoc] at hf
  refine ⟨?_, h.revert, h.latch, h.record, ?_, ?_⟩
  · rw [settled_of_idle (by exact hs), settledFiat_of_idle (by exact hs)]
    exact hf
  · intro _
    refine ⟨hd.trans (le_max_left _ _), ?_, ?_⟩
    · intro f hf
      simp only [ConfigNode.persist, List.mem_append, List.mem_filter, decide_eq_true_eq] at hf
      rcases hf with hf | hf | hf
      · exact (hq f (List.mem_append_left _ hf)).trans (le_max_left _ _)
      · exact (hq f (List.mem_append_right _ hf)).trans (le_max_left _ _)
      · exact hf.2.2.trans (le_max_right _ _)
    · intro epoch target hc
      exact (ht epoch target hc).trans (le_max_left _ _)
  · intro epoch target hsome
    rw [show n.truncSlot = some (epoch, target) from hsome] at hs
    cases hs

theorem Inv.observeAll (h : Inv n queue) (hnt : n.sm.truncatingEpoch = none) :
    Inv (queue.foldl observeConfig n) [] := by
  induction queue generalizing n with
  | nil => exact h
  | cons f queue ih =>
    obtain ⟨hc, hs⟩ := h.idle_of_open hnt
    obtain ⟨hd, hq, -⟩ := h.idle hs
    have hle : f.frameEnd ≤ n.durable := hq f (by simp)
    have hobs : n.observeConfig f = n.feedObserved f := if_neg (not_lt.mpr hle)
    have hinv : Inv (n.observeConfig f) queue := by
      rw [hobs]
      exact Inv.feedObserved h.revert hnt hc hs (h.record_of_open hnt) hd
        (fun g hg => hq g (List.mem_cons_of_mem _ hg)) ((h.follows_of_open hs).observe hle)
    refine ih hinv ?_
    obtain ⟨hmoves, -⟩ := step_configObserved hnt f
    rw [hobs, ConfigNode.feedObserved, feed_moves hmoves (.inl (h.record_of_open hnt))]
    exact hmoves.latch

theorem feed_frame (n : ConfigNode) (ev : Event) :
    ∃ sm r c, n.feed ev = { n with sm := sm, record := r, commanded := c } := by
  have hexec : ∀ (out : List Action) (m : ConfigNode),
      ∃ r c, out.foldl execAction m = { m with record := r, commanded := c } := by
    intro out
    induction out with
    | nil => exact fun m => ⟨m.record, m.commanded, rfl⟩
    | cons a out ih =>
      intro m
      obtain ⟨r, c, h⟩ := ih (execAction m a)
      refine ⟨r, c, ?_⟩
      rw [List.foldl_cons, h]
      cases a <;> rfl
  obtain ⟨r, c, h⟩ := hexec (n.sm.step ev).2 { n with sm := (n.sm.step ev).1 }
  exact ⟨_, r, c, h⟩

theorem feedObserved_frame (n : ConfigNode) (f : MembershipFrame) :
    ∃ sm r c, n.feedObserved f = { n with sm := sm, record := r, commanded := c, seen := f :: n.seen } := by
  obtain ⟨sm, r, c, h⟩ := feed_frame n (.configObserved f.frameEnd f.config)
  unfold feedObserved
  rw [h]
  exact ⟨sm, r, c, rfl⟩

theorem foldl_observeConfig_frame (fs : List MembershipFrame) (n : ConfigNode) :
    ∃ sm r c seen, fs.foldl observeConfig n =
      { n with sm := sm, record := r, commanded := c, seen := seen } := by
  induction fs generalizing n with
  | nil => exact ⟨n.sm, n.record, n.commanded, n.seen, rfl⟩
  | cons f fs ih =>
    obtain ⟨sm, r, c, seen, h⟩ := ih (n.observeConfig f)
    rw [List.foldl_cons, h]
    unfold observeConfig
    split
    · exact ⟨sm, r, c, seen, rfl⟩
    · obtain ⟨_, _, _, hf⟩ := feedObserved_frame n f
      rw [hf]
      exact ⟨sm, r, c, seen, rfl⟩

theorem Inv.drain (h : Inv n (n.pendingCfgObs ++ n.channel)) :
    Inv n.drain (n.drain.pendingCfgObs ++ n.drain.channel) := by
  unfold ConfigNode.drain
  split
  · rw [List.append_nil]
    exact ⟨h.follows, h.revert, h.latch, h.record, h.idle, h.answered⟩
  · rename_i hnt
    have hnt : n.sm.truncatingEpoch = none := by simpa using hnt
    have hinv : Inv ((n.pendingCfgObs ++ n.channel).foldl observeConfig
        { n with pendingCfgObs := [], channel := [] }) [] := by
      refine Inv.observeAll ?_ hnt
      exact ⟨h.follows, h.revert, h.latch, h.record, h.idle, h.answered⟩
    obtain ⟨_, _, _, _, heq⟩ := foldl_observeConfig_frame (n.pendingCfgObs ++ n.channel)
      { n with pendingCfgObs := [], channel := [] }
    rw [heq] at hinv ⊢
    exact hinv

theorem Inv.cut (h : Inv n queue) (hexp : n.OneExposed) : Inv n.cut queue := by
  unfold ConfigNode.cut
  split
  · rename_i epoch target hc
    have hs : n.truncSlot = none := by
      cases hslot : n.truncSlot with
      | none => rfl
      | some p =>
        have := (h.answered p.1 p.2 hslot).1
        rw [hc] at this
        cases this
    obtain ⟨hd, hq, ht⟩ := h.idle hs
    have hle := ht epoch target hc
    have hf := h.follows_of_open hs
    have hlatch := h.latch
    have hrec := h.record
    rw [hc] at hlatch hrec
    refine ⟨?_, h.revert, hlatch, hrec, ?_, ?_⟩
    · unfold settled settledFiat
      dsimp only
      by_cases h0 : target = 0
      · subst h0
        rw [if_pos rfl]
        exact hf.wipe
      · rw [if_neg h0]
        exact hf.cut h0 ((hexp (epoch, target) hc).resolve_left h0) hle
    · intro hnone
      cases hnone
    · intro e t het
      cases het
      exact ⟨rfl, rfl, fun f hf => (mem_upTo.mp hf).2⟩
  · exact h

theorem Inv.ack (h : Inv n (n.pendingCfgObs ++ n.channel)) {epoch target : ℕ}
    (hs : n.truncSlot = some (epoch, target)) (hchan : ∀ f ∈ n.channel, f.frameEnd ≤ target) :
    Inv (n.onTruncated epoch target)
      ((n.onTruncated epoch target).pendingCfgObs ++ (n.onTruncated epoch target).channel) := by
  obtain ⟨hc, hdur, hends⟩ := h.answered epoch target hs
  have hlatch := h.latch
  have hrec := h.record
  rw [hc, hs] at hlatch hrec
  have hmoves := step_truncated_moves target h.revert hlatch
  have hfeed : n.onTruncated epoch target = _ := feed_moves (n := { n with
    pendingCfgObs := upTo n.pendingCfgObs target, truncSlot := none
    fiat := if target = 0 then n.sm.config else n.fiat }) hmoves (.inr hrec)
  rw [hfeed]
  have hf := h.follows
  unfold settled settledFiat at hf
  rw [hs] at hf
  refine inv_of_open ?_ (hmoves.revert.trans h.revert) hmoves.latch hc rfl hmoves.config.symm ?_ ?_
  · rw [hmoves.config]
    refine Follows.restrict hf ?_ ?_
    · exact List.filter_sublist.append (List.Sublist.refl _)
    · intro f hfq hfl
      rcases List.mem_append.mp hfq with hfq | hfq
      · exact List.mem_append_left _ (mem_upTo.mpr ⟨hfq, hends f hfl⟩)
      · exact List.mem_append_right _ hfq
  · rw [step_truncated, onTruncated_durable, ← hdur]
    exact min_le_right _ _
  · intro f hf
    dsimp only at hf ⊢
    rw [← hdur]
    rcases List.mem_append.mp hf with hf | hf
    · exact (mem_upTo.mp hf).2
    · exact hchan f hf

/-- The truncation in flight, asked for or answered. -/
def inFlight (n : ConfigNode) : Option (ℕ × ℕ) := n.commanded.or n.truncSlot

theorem Inv.record_tracks (h : Inv n queue) (hexp : n.OneExposed)
    (hwipe : ∀ epoch, n.inFlight ≠ some (epoch, 0)) : Tracks n.fiat n.frames n.record := by
  have hrec := h.record
  cases hs : n.truncSlot with
  | some p =>
    obtain ⟨epoch, target⟩ := p
    obtain ⟨hc, -⟩ := h.answered epoch target hs
    have h0 : target ≠ 0 := by
      rintro rfl
      exact hwipe epoch (by rw [inFlight, hc, hs]; rfl)
    rw [hc, hs] at hrec
    have hf := h.follows.tracks
    unfold settled settledFiat at hf
    rw [hs] at hf
    dsimp only at hf
    rw [if_neg h0] at hf
    rw [hrec]
    exact hf
  | none =>
    have hf := (h.follows_of_open hs).tracks
    cases hc : n.commanded with
    | none =>
      rw [hc, hs] at hrec
      rw [hrec]
      exact hf
    | some p =>
      obtain ⟨epoch, target⟩ := p
      have h0 : target ≠ 0 := by
        rintro rfl
        exact hwipe epoch (by rw [inFlight, hc]; rfl)
      rw [hc, hs] at hrec
      rw [hrec]
      exact hf.revert_ahead h0 ((hexp (epoch, target) hc).resolve_left h0)

theorem Inv.record_wiped (h : Inv n queue) {epoch : ℕ} (hwipe : n.inFlight = some (epoch, 0)) :
    n.record.position = 0 := by
  have hrec := h.record
  rw [show n.commanded.or n.truncSlot = some (epoch, 0) from hwipe] at hrec
  rw [hrec]
  exact n.sm.configRecord.revert_zero.2

theorem Inv.record_tracks_or (h : Inv n queue) (hexp : n.OneExposed) :
    Tracks n.fiat n.frames n.record ∨ n.record.position = 0 := by
  by_cases hwipe : ∃ epoch, n.inFlight = some (epoch, 0)
  · obtain ⟨epoch, hwipe⟩ := hwipe
    exact .inr (h.record_wiped hwipe)
  · exact .inl (h.record_tracks hexp fun epoch he => hwipe ⟨epoch, he⟩)

theorem new_config {cfg : ElectionConfig} {vote : Option (ℕ × NodeId)} {map : TermMap}
    {durable nowNs : ℕ} {sm : ElectionSm} (h : ElectionSm.new cfg vote map durable nowNs = some sm) :
    sm.config = cfg.config ∧ sm.configPosition = cfg.configPosition ∧ sm.durable = durable ∧
      sm.revertOnTruncate := by
  unfold ElectionSm.new at h
  dsimp only at h
  split_ifs at h
  cases h
  obtain ⟨r, d, hf⟩ := armTimeout_frame _ nowNs
  rw [hf]
  exact ⟨rfl, rfl, rfl, rfl⟩

theorem Inv.restart (h : Inv n (n.pendingCfgObs ++ n.channel)) (hexp : n.OneExposed)
    (cfg : ElectionConfig) (vote : Option (ℕ × NodeId)) (map : TermMap) (nowNs : ℕ) :
    Inv (n.restart cfg vote map nowNs) ((n.restart cfg vote map nowNs).pendingCfgObs ++
      (n.restart cfg vote map nowNs).channel) := by
  unfold ConfigNode.restart
  dsimp only
  split
  · exact h
  · split
    · exact h
    · rename_i sm hnew
      obtain ⟨hcfg, hpos, hdur, hrev⟩ := new_config hnew
      obtain ⟨htr, hall⟩ := recoverConfigRecord_tracks n.genesis n.durable
        h.follows.chain (h.record_tracks_or hexp)
      have hrec : (sm.restorePrevConfig
          (recoverConfigRecord (some n.record) (upTo n.frames n.durable) 0 n.durable
            n.genesis).prev
          (recoverConfigRecord (some n.record) (upTo n.frames n.durable) 0 n.durable
            n.genesis).prevPosition).configRecord =
          recoverConfigRecord (some n.record) (upTo n.frames n.durable) 0 n.durable n.genesis := by
        unfold ElectionSm.configRecord ElectionSm.restorePrevConfig
        rw [hcfg, hpos]
      refine inv_of_open ?_ hrev ?_ rfl rfl hrec.symm hdur.le (by simp)
      · rw [hrec]
        exact ⟨h.follows.chain.upTo n.durable, htr, fun g hg => ⟨hg, hall g hg⟩,
          fun g hg _ => .inl (hall g hg), List.Pairwise.nil, by simp⟩
      · exact (ElectionSm.new_bootState hnew).notTruncating

/-! ## Whole runs -/

theorem step_inv (h : Inv n (n.pendingCfgObs ++ n.channel)) {op : Op} (hfits : n.Fits op) :
    Inv (n.step op) ((n.step op).pendingCfgObs ++ (n.step op).channel) := by
  cases op with
  | event ev =>
    dsimp only [step]
    split
    · exact h
    · rename_i hev
      have hinv := h.event (show fromArchive ev = false by simpa using hev)
      obtain ⟨_, _, _, heq⟩ := feed_frame n ev
      rw [heq] at hinv ⊢
      exact hinv
  | refresh =>
    have hinv := h.refresh
    obtain ⟨_, _, _, heq⟩ := feed_frame n (.durableAdvanced n.durable)
    dsimp only [step]
    rw [heq] at hinv ⊢
    exact hinv
  | receive f =>
    dsimp only [step]
    split
    · exact h
    · exact h.receive hfits (by simpa using ‹¬ n.sm.truncatingEpoch.isSome = true›)
  | append op position length =>
    dsimp only [step]
    split
    · exact h
    · rename_i hnt
      split
      · rename_i config hok
        simp only [Fits, hok] at hfits
        obtain ⟨hext, hall⟩ := hfits
        have hinv := h.append hext hall (by simpa using hnt)
        obtain ⟨_, _, _, heq⟩ := feedObserved_frame
          { n with frames := n.frames ++ [⟨position, length, config⟩] } ⟨position, length, config⟩
        rw [heq] at hinv ⊢
        exact hinv
      · exact h
  | persist d =>
    dsimp only [step]
    split
    · exact h
    · exact h.persist (by simpa using ‹¬ n.truncSlot.isSome = true›) d
  | drain => exact h.drain
  | cut =>
    have hqueue : n.cut.pendingCfgObs = n.pendingCfgObs ∧ n.cut.channel = n.channel := by
      unfold ConfigNode.cut
      split <;> exact ⟨rfl, rfl⟩
    dsimp only [step]
    rw [hqueue.1, hqueue.2]
    exact h.cut hfits
  | ack =>
    dsimp only [step]
    split
    · rename_i epoch target hs
      exact h.ack hs (hfits (epoch, target) hs)
    · exact h
  | restart cfg vote map nowNs => exact h.restart hfits cfg vote map nowNs

/-- Every operation of the run fits the state it is taken in. -/
def FitsRun (n : ConfigNode) (ops : List Op) : Prop :=
  ∀ before op after, ops = before ++ op :: after → (n.run before).Fits op

theorem Fresh.inv (h : n.Fresh) : Inv n (n.pendingCfgObs ++ n.channel) := by
  rw [h.pending, h.channel]
  refine inv_of_open ?_ h.revert h.boot.state.notTruncating h.commanded h.slot
    (h.record.trans h.sm.symm) h.durable.le (by simp)
  rw [h.sm, h.fiat, h.frames, h.seen]
  exact ⟨⟨.nil, by simp⟩, tracks_of_position_zero (r := .seed n.genesis) ⟨.nil, by simp⟩ rfl,
    by simp, by simp, .nil, by simp⟩

theorem run_concat (n : ConfigNode) (ops : List Op) (op : Op) :
    n.run (ops ++ [op]) = (n.run ops).step op := by
  simp [run, List.foldl_append]

theorem run_inv (h : n.Fresh) (ops : List Op) (hfits : n.FitsRun ops) :
    Inv (n.run ops) ((n.run ops).pendingCfgObs ++ (n.run ops).channel) := by
  induction ops using List.reverseRecOn with
  | nil => exact h.inv
  | append_singleton ops op ih =>
    rw [run_concat]
    refine step_inv (ih ?_) (hfits ops op [] rfl)
    rintro before o after rfl
    exact hfits before o (after ++ [op]) (by simp)

/-- The run never wipes its log. -/
def NeverWiped (n : ConfigNode) (ops : List Op) : Prop :=
  ∀ before after, ops = before ++ after → ∀ epoch, (n.run before).inFlight ≠ some (epoch, 0)

theorem step_fiat (h : Inv n (n.pendingCfgObs ++ n.channel)) {op : Op} (hfits : n.Fits op)
    (hwipe : ∀ epoch, n.inFlight ≠ some (epoch, 0)) (hg : n.fiat = n.genesis) :
    (n.step op).fiat = n.genesis ∧ (n.step op).genesis = n.genesis := by
  cases op with
  | event ev =>
    dsimp only [step]
    split
    · exact ⟨hg, rfl⟩
    · obtain ⟨_, _, _, heq⟩ := feed_frame n ev
      rw [heq]
      exact ⟨hg, rfl⟩
  | refresh =>
    obtain ⟨_, _, _, heq⟩ := feed_frame n (.durableAdvanced n.durable)
    dsimp only [step]
    rw [heq]
    exact ⟨hg, rfl⟩
  | receive f =>
    dsimp only [step]
    split <;> exact ⟨hg, rfl⟩
  | append op position length =>
    dsimp only [step]
    split
    · exact ⟨hg, rfl⟩
    · split
      · obtain ⟨_, _, _, heq⟩ := feedObserved_frame { n with frames := n.frames ++ [_] } _
        rw [heq]
        exact ⟨hg, rfl⟩
      · exact ⟨hg, rfl⟩
  | persist d =>
    dsimp only [step]
    split <;> exact ⟨hg, rfl⟩
  | drain =>
    dsimp only [step, ConfigNode.drain]
    split
    · exact ⟨hg, rfl⟩
    · obtain ⟨_, _, _, _, heq⟩ := foldl_observeConfig_frame (n.pendingCfgObs ++ n.channel)
        { n with pendingCfgObs := [], channel := [] }
      rw [heq]
      exact ⟨hg, rfl⟩
  | cut =>
    dsimp only [step, ConfigNode.cut]
    split <;> exact ⟨hg, rfl⟩
  | ack =>
    dsimp only [step]
    split
    · rename_i epoch target hs
      have h0 : target ≠ 0 := by
        rintro rfl
        refine hwipe epoch ?_
        rw [inFlight, (h.answered epoch 0 hs).1, hs]
        rfl
      obtain ⟨_, _, _, heq⟩ := feed_frame { n with
        pendingCfgObs := upTo n.pendingCfgObs target, truncSlot := none
        fiat := if target = 0 then n.sm.config else n.fiat } (.truncated epoch target)
      unfold onTruncated
      rw [heq]
      exact ⟨(if_neg h0).trans hg, rfl⟩
    · exact ⟨hg, rfl⟩
  | restart cfg vote map nowNs =>
    dsimp only [step, ConfigNode.restart]
    split
    · exact ⟨hg, rfl⟩
    · split
      · exact ⟨hg, rfl⟩
      · have htr := h.record_tracks hfits hwipe
        rw [hg] at htr
        refine ⟨?_, rfl⟩
        rw [hg]
        exact htr.recoveredFiat_eq h.follows.chain n.durable

theorem run_fiat (h : n.Fresh) (ops : List Op) (hfits : n.FitsRun ops)
    (hwipe : n.NeverWiped ops) : (n.run ops).fiat = n.genesis ∧ (n.run ops).genesis = n.genesis := by
  induction ops using List.reverseRecOn with
  | nil => exact ⟨h.fiat, rfl⟩
  | append_singleton ops op ih =>
    have hfits' : n.FitsRun ops := by
      rintro before o after rfl
      exact hfits before o (after ++ [op]) (by simp)
    obtain ⟨h1, h2⟩ := ih hfits' fun before after hops =>
      hwipe before (after ++ [op]) (by rw [hops]; simp)
    rw [run_concat, ← h2]
    exact step_fiat (run_inv h ops hfits') (hfits ops op [] rfl) (hwipe ops [op] rfl)
      (h1.trans h2.symm)

/-- The config of the last membership frame, `genesis` when there is none. -/
def lastConfig (genesis : ClusterConfig) (frames : List MembershipFrame) : ClusterConfig :=
  (frames.getLast?.map MembershipFrame.config).getD genesis

/-- **Config follows the log.**  Once every membership frame of the log has been
    observed and no cut waits for its ack, the adopted config is that of the
    last frame, genesis when there is none; after a wipe the config that was
    kept stands in for genesis until the log carries a higher version. -/
theorem config_follows_log (h : n.Fresh) (ops : List Op) (hfits : n.FitsRun ops)
    (hobs : (n.run ops).Observed) (hack : (n.run ops).truncSlot = none) :
    (n.NeverWiped ops → (n.run ops).sm.config = lastConfig n.genesis (n.run ops).frames) ∧
      ((n.run ops).frames = [] → (n.run ops).sm.config = (n.run ops).fiat) ∧
      ∀ last, (n.run ops).frames.getLast? = some last →
        (n.run ops).fiat.version < last.config.version →
        (n.run ops).sm.config = last.config := by
  have hf := (run_inv h ops hfits).follows_of_open hack
  obtain ⟨hnil, hlast⟩ := hf.tracks.config_eq hf.chain fun g hg => (hf.seen g (hobs g hg)).2
  refine ⟨?_, hnil, hlast⟩
  intro hwipe
  obtain ⟨hfiat, -⟩ := run_fiat h ops hfits hwipe
  unfold lastConfig
  cases hl : (n.run ops).frames.getLast? with
  | none =>
    rw [← hfiat]
    exact hnil (List.getLast?_eq_none_iff.mp hl)
  | some last =>
    refine hlast last hl ?_
    rw [hfiat, h.genesis]
    exact (hf.chain.positive last (List.mem_of_getLast? hl)).2

theorem fitsRun_nil (n : ConfigNode) : n.FitsRun [] := by
  intro before op after h
  simp at h

theorem fitsRun_cons {op : Op} {ops : List Op} :
    n.FitsRun (op :: ops) ↔ n.Fits op ∧ (n.step op).FitsRun ops := by
  constructor
  · intro h
    refine ⟨h [] op ops rfl, fun before o after hops => h (op :: before) o after ?_⟩
    rw [hops, List.cons_append]
  · rintro ⟨hop, hops⟩ before o after h
    cases before with
    | nil =>
      cases h
      exact hop
    | cons _ before =>
      cases h
      exact hops before o after rfl

instance decidableFitsRun : (n : ConfigNode) → (ops : List Op) → Decidable (n.FitsRun ops)
  | n, [] => .isTrue (fitsRun_nil n)
  | n, op :: ops =>
    have := decidableFitsRun (n.step op) ops
    decidable_of_iff _ fitsRun_cons.symm

/-- Node 1 of a fresh three-node cluster. -/
def freshNode : ConfigNode :=
  let genesis : ClusterConfig := .genesis [(1, 0, 1), (2, 0, 2), (3, 0, 3)] []
  { genesis, sm := genesisNode 1 [1, 2, 3] none [] 0, record := .seed genesis, frames := []
    durable := 0, channel := [], pendingCfgObs := [], commanded := none, truncSlot := none
    fiat := genesis, seen := [] }

theorem freshNode_fresh : freshNode.Fresh :=
  ⟨genesisNode_boot 1 1 [2, 3] none [] 0, rfl, rfl, by decide, by decide, by decide, rfl, rfl, rfl,
    rfl, rfl, rfl, rfl⟩

/-- The first change: node 4 joins as a learner. -/
def learnerFrame : MembershipFrame :=
  ⟨0, 64, ⟨1, [(1, 0, 1), (2, 0, 2), (3, 0, 3)], [(4, 0, 4)], []⟩⟩

/-- The second change: node 4 becomes a voter. -/
def voterFrame : MembershipFrame :=
  ⟨64, 64, ⟨2, [(1, 0, 1), (2, 0, 2), (3, 0, 3), (4, 0, 4)], [], []⟩⟩

/-- The bytes up to 64 are ours, of term 1. -/
def firstBytes : List Op := [.persist 64, .drain, .refresh, .event (.dataTermObserved 1 0)]

/-- The leader of term 2 holds our bytes up to 64, and cuts what is above. -/
def cutAbove : List Op := [.refresh, .event (.termMapReceived 2 [(1, 0), (2, 64)]), .cut, .ack]

/-- The settings of a boot. -/
def bootSettings : ElectionConfig :=
  { id := 1, config := freshNode.genesis, configPosition := 0, electionTimeoutMinNs := 10
    electionTimeoutMaxNs := 20, gossipFloorNs := 1, seed := 0 }

/-- Node 4 joins and becomes a voter; the second change is observed and cut away, and the
    node restarts. -/
theorem config_follows_log_join :
    let n := freshNode.run (.receive learnerFrame :: firstBytes ++
      [.receive voterFrame, .persist 128, .drain] ++ cutAbove ++ [.restart bootSettings none [(1, 0)] 0])
    n.frames = [learnerFrame] ∧ n.sm.config = learnerFrame.config := by
  refine ⟨by decide +kernel, ?_⟩
  exact (config_follows_log freshNode_fresh _ (by decide +kernel) (by decide +kernel)
    (by decide +kernel)).2.2 learnerFrame (by decide +kernel) (by decide +kernel)

/-- The change whose observation comes late. -/
def lateFrame : MembershipFrame := { learnerFrame with position := 64 }

/-- An observation that is in the channel when the cut is acked is not dropped with the
    held ones: it is adopted once bytes of another leader cover its position, and the log
    holds no frame that carries it. -/
theorem cut_config_adopted_late :
    let before := firstBytes ++ [.receive lateFrame, .persist 128] ++ cutAbove.dropLast
    let after := [.persist 200, .refresh, .drain]
    let n := freshNode.run (before ++ .ack :: after)
    freshNode.FitsRun before ∧ ((freshNode.run before).step .ack).FitsRun after ∧
      (freshNode.run before).truncSlot = some (1, 64) ∧ (freshNode.run before).channel = [lateFrame] ∧
      n.frames = [] ∧ n.Observed ∧ n.truncSlot = none ∧ n.sm.config = lateFrame.config := by
  decide +kernel

/-- A wipe keeps the config although no frame carries it any more: the leader of
    term 70 ships a window above our bytes. -/
theorem config_kept_after_wipe :
    ¬ ∀ n, Fresh n → ∀ ops, n.FitsRun ops → (n.run ops).Observed → (n.run ops).truncSlot = none →
      (n.run ops).sm.config = lastConfig n.genesis (n.run ops).frames := by
  intro h
  have hfits : freshNode.FitsRun [.receive learnerFrame, .persist 64, .drain, .refresh,
      .event (.dataTermObserved 1 0), .event (.termMapReceived 70 (slidWindow 7 5000)), .cut,
      .ack] := by
    decide +kernel
  have hkept := h freshNode freshNode_fresh _ hfits (by decide) (by decide)
  revert hkept
  decide

end ConfigNode

end UltimaCluster
