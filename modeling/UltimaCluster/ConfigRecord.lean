/-
  The durable config record (`ConfigRecord`, recovered in `uc_node/src/node.rs`)
  and how it follows the membership frames of a log.

  A record is one adopted config with one level of history.  Observing frames
  in log order keeps it equal to the fold over the log; a cut may take the last
  adopted frame away, and no more.
-/
import UltimaCluster.Config
import UltimaCluster.Lib.Timeline
import UltimaCluster.Lib.Trace

namespace UltimaCluster

/-- A `CLUSTER kind=Membership` frame of the log. -/
structure MembershipFrame where
  position : ℕ
  /-- The aligned length. -/
  length : ℕ
  config : ClusterConfig
deriving DecidableEq

/-- The effect point of a frame. -/
def MembershipFrame.frameEnd (f : MembershipFrame) : ℕ := f.position + f.length

/-- The adopted config and the one before. -/
structure ConfigRecord where
  /-- The adopted frame's end; 0 for genesis. -/
  position : ℕ
  config : ClusterConfig
  prevPosition : ℕ
  prev : ClusterConfig
deriving DecidableEq, Inhabited

namespace ConfigRecord

/-- The genesis record of a fresh instance. -/
def seed (genesis : ClusterConfig) : ConfigRecord := ⟨0, genesis, 0, genesis⟩

/-- One membership frame, behind the version gate. -/
def observe (cur : ConfigRecord) (f : MembershipFrame) : ConfigRecord :=
  if f.config.version ≤ cur.config.version then cur
  else ⟨f.frameEnd, f.config, cur.position, cur.config⟩

/-- The predecessor promoted, the history exhausted. -/
def promotePrev (r : ConfigRecord) : ConfigRecord := ⟨r.prevPosition, r.prev, r.prevPosition, r.prev⟩

/-- The revert of a truncation to `target`: a wipe keeps the config by fiat. -/
def revert (r : ConfigRecord) (target : ℕ) : ConfigRecord :=
  if target < r.position then if target = 0 then seed r.config else r.promotePrev else r

end ConfigRecord

/-- Fold in the archived membership frames from the record on. -/
def rederiveConfig (firstBase : ℕ) (frames : List MembershipFrame) (r : ConfigRecord) :
    ConfigRecord :=
  (frames.filter fun f => max r.position firstBase ≤ f.position).foldl .observe r

/-- Undo a record that is ahead of what the archive recovered. -/
def unaheadRecord (genesis : ClusterConfig) (durable : ℕ) (r : ConfigRecord) : ConfigRecord :=
  if durable < r.position then
    if durable < r.prevPosition then .seed genesis else r.promotePrev
  else r

/-- Boot recovery of the record over the recovered frames. -/
def recoverConfigRecord (stored : Option ConfigRecord) (frames : List MembershipFrame)
    (firstBase durable : ℕ) (genesis : ClusterConfig) : ConfigRecord :=
  rederiveConfig firstBase frames (unaheadRecord genesis durable (stored.getD (.seed genesis)))

/-! ## The fold over a log -/

/-- The config, with its position, that version-gated adoption reaches over a
    log, starting from `fiat`. -/
def adopted (fiat : ClusterConfig) (l : List MembershipFrame) : ClusterConfig × ℕ :=
  l.foldl (fun c f => if f.config.version ≤ c.1.version then c else (f.config, f.frameEnd)) (fiat, 0)

/-- The membership frames of a log: one after the other, each of a higher
    version than the one before, all above genesis. -/
structure FrameChain (l : List MembershipFrame) : Prop where
  ordered : l.Pairwise fun f g => f.frameEnd ≤ g.position ∧ f.config.version < g.config.version
  positive : ∀ f ∈ l, 0 < f.length ∧ 0 < f.config.version

/-- The frames that end at or below `t`. -/
def upTo (l : List MembershipFrame) (t : ℕ) : List MembershipFrame :=
  l.filter fun f => f.frameEnd ≤ t

section Fold

variable {fiat : ClusterConfig} {l l' : List MembershipFrame} {f : MembershipFrame} {s t : ℕ}

@[simp] theorem adopted_nil : adopted fiat [] = (fiat, 0) := rfl

theorem adopted_concat : adopted fiat (l ++ [f]) =
    if f.config.version ≤ (adopted fiat l).1.version then adopted fiat l
    else (f.config, f.frameEnd) := by
  unfold adopted
  rw [List.foldl_append]
  rfl

theorem fiat_version_le : fiat.version ≤ (adopted fiat l).1.version := by
  induction l using List.reverseRecOn with
  | nil => exact le_rfl
  | append_singleton l f ih =>
    rw [adopted_concat]
    split
    · exact ih
    · exact ih.trans (not_le.mp ‹_›).le

theorem version_le_adopted (fiat : ClusterConfig) (hf : f ∈ l) :
    f.config.version ≤ (adopted fiat l).1.version := by
  induction l using List.reverseRecOn with
  | nil => cases hf
  | append_singleton l g ih =>
    rw [adopted_concat]
    rcases List.mem_snoc.mp hf with hf | rfl
    · split
      · exact ih hf
      · exact (ih hf).trans (not_le.mp ‹_›).le
    · split
      · assumption
      · exact le_rfl

theorem adopted_cases (fiat : ClusterConfig) (l : List MembershipFrame) :
    adopted fiat l = (fiat, 0) ∨ ∃ f ∈ l, adopted fiat l = (f.config, f.frameEnd) := by
  induction l using List.reverseRecOn with
  | nil => exact .inl rfl
  | append_singleton l f ih =>
    rw [adopted_concat]
    split
    · rcases ih with ih | ⟨g, hg, ih⟩
      · exact .inl ih
      · exact .inr ⟨g, List.mem_append_left _ hg, ih⟩
    · exact .inr ⟨f, by simp, rfl⟩

theorem adopted_append_stale
    (h : ∀ f ∈ l', f.config.version ≤ (adopted fiat l).1.version) :
    adopted fiat (l ++ l') = adopted fiat l := by
  induction l' using List.reverseRecOn with
  | nil => rw [List.append_nil]
  | append_singleton l' f ih =>
    have hl' := ih fun g hg => h g (List.mem_append_left _ hg)
    rw [← List.append_assoc, adopted_concat, hl', if_pos (h f (by simp))]

theorem mem_upTo : f ∈ upTo l t ↔ f ∈ l ∧ f.frameEnd ≤ t := by
  simp [upTo]

theorem upTo_upTo (h : s ≤ t) : upTo (upTo l t) s = upTo l s := by
  unfold upTo
  rw [List.filter_filter]
  refine List.filter_congr ?_
  intro f _
  rw [← Bool.decide_and]
  refine decide_eq_decide.mpr ⟨fun hf => hf.1, fun hf => ⟨hf, hf.trans h⟩⟩

namespace FrameChain

theorem sublist (h : FrameChain l) (hl : l'.Sublist l) : FrameChain l' :=
  ⟨h.ordered.sublist hl, fun f hf => h.positive f (hl.mem hf)⟩

theorem upTo (h : FrameChain l) (t : ℕ) : FrameChain (upTo l t) := h.sublist List.filter_sublist

theorem upTo_zero (h : FrameChain l) : UltimaCluster.upTo l 0 = [] := by
  refine List.filter_eq_nil_iff.mpr ?_
  intro f hf
  have hpos := (h.positive f hf).1
  have hend : 0 < f.frameEnd := by unfold MembershipFrame.frameEnd; omega
  simpa using hend.ne'

theorem ends_sorted (h : FrameChain l) : l.Pairwise fun f g => f.frameEnd ≤ g.frameEnd :=
  h.ordered.imp fun hfg => hfg.1.trans (Nat.le_add_right _ _)

theorem positions_sorted (h : FrameChain l) : l.Pairwise fun f g => f.position ≤ g.position :=
  h.ordered.imp fun hfg => (Nat.le_add_right _ _).trans hfg.1

/-- The frames that end at or below `t` come first. -/
theorem upTo_append (h : FrameChain l) (t : ℕ) :
    l = UltimaCluster.upTo l t ++ l.filter fun f => t < f.frameEnd := by
  have hsplit := Timeline.sorted_split _ h.ends_sorted (t + 1)
  simp only [Nat.lt_succ_iff, Nat.succ_le_iff] at hsplit
  exact hsplit

theorem before_or_before (h : FrameChain l) {f g : MembershipFrame} (hf : f ∈ l) (hg : g ∈ l) :
    f = g ∨ (f.frameEnd ≤ g.position ∧ f.config.version < g.config.version) ∨
      (g.frameEnd ≤ f.position ∧ g.config.version < f.config.version) := by
  obtain ⟨before, after, rfl⟩ := List.append_of_mem hf
  obtain ⟨-, hcons, hcross⟩ := List.pairwise_append.mp h.ordered
  rcases List.mem_append.mp hg with hg | hg
  · exact .inr (.inr (hcross g hg f (by simp)))
  · rcases List.mem_cons.mp hg with rfl | hg
    · exact .inl rfl
    · exact .inr (.inl ((List.pairwise_cons.mp hcons).1 g hg))

theorem version_lt_of_end_lt (h : FrameChain l) {f g : MembershipFrame} (hf : f ∈ l) (hg : g ∈ l)
    (hlt : f.frameEnd < g.frameEnd) : f.config.version < g.config.version := by
  rcases h.before_or_before hf hg with rfl | ⟨-, hv⟩ | ⟨hp, -⟩
  · exact absurd hlt (lt_irrefl _)
  · exact hv
  · unfold MembershipFrame.frameEnd at hp hlt
    omega

theorem upTo_end (h : FrameChain l) (hf : f ∈ l) : ∃ l', UltimaCluster.upTo l f.frameEnd = l' ++ [f] ∧
    ∀ g ∈ l', g ∈ l ∧ g.frameEnd < f.frameEnd := by
  obtain ⟨before, after, rfl⟩ := List.append_of_mem hf
  obtain ⟨hbefore, hcons, hcross⟩ := List.pairwise_append.mp h.ordered
  have hfpos := (h.positive f hf).1
  have hlt : ∀ g ∈ before, g.frameEnd < f.frameEnd := by
    intro g hg
    have hgf := (hcross g hg f (by simp)).1
    unfold MembershipFrame.frameEnd at hgf ⊢
    omega
  refine ⟨before, ?_, ?_⟩
  · have h1 : before.filter (fun g => g.frameEnd ≤ f.frameEnd) = before := by
      refine List.filter_eq_self.mpr ?_
      intro g hg
      simpa using (hlt g hg).le
    have h2 : after.filter (fun g => g.frameEnd ≤ f.frameEnd) = [] := by
      refine List.filter_eq_nil_iff.mpr ?_
      intro g hg
      have hfg := ((List.pairwise_cons.mp hcons).1 g hg).1
      have hgpos := (h.positive g (by simp [hg])).1
      have hgt : f.frameEnd < g.frameEnd := by
        unfold MembershipFrame.frameEnd at hfg ⊢
        omega
      simpa using hgt
    unfold UltimaCluster.upTo
    rw [List.filter_append, h1, List.filter_cons_of_pos (by simp), h2]
  · intro g hg
    exact ⟨by simp [hg], hlt g hg⟩

end FrameChain

end Fold

/-! ## A record that follows its log -/

/-- The record is the fold over the log up to its position; a cut that takes
    its frame away and leaves its predecessor finds the fold in `prev`. -/
structure Tracks (fiat : ClusterConfig) (l : List MembershipFrame) (r : ConfigRecord) : Prop where
  cur : adopted fiat (upTo l r.position) = (r.config, r.position)
  prev : ∀ t, r.prevPosition ≤ t → t < r.position → adopted fiat (upTo l t) = (r.prev, r.prevPosition)

section Tracks

variable {fiat : ClusterConfig} {l : List MembershipFrame} {r : ConfigRecord} {f : MembershipFrame}
  {t : ℕ}

theorem Tracks.fiat_version_le (h : Tracks fiat l r) : fiat.version ≤ r.config.version := by
  have hle : fiat.version ≤ (adopted fiat (upTo l r.position)).1.version :=
    UltimaCluster.fiat_version_le
  rwa [h.cur] at hle

theorem Tracks.version_le (h : Tracks fiat l r) (hf : f ∈ l) (hend : f.frameEnd ≤ r.position) :
    f.config.version ≤ r.config.version := by
  have hle := version_le_adopted fiat (mem_upTo.mpr ⟨hf, hend⟩)
  rwa [h.cur] at hle

theorem tracks_of_position_zero (hl : FrameChain l) (hr : r.position = 0) :
    Tracks r.config l r := by
  constructor
  · rw [hr, hl.upTo_zero]
    rfl
  · intro t _ ht
    omega

theorem Tracks.config_of_position_zero (h : Tracks fiat l r) (hl : FrameChain l)
    (hr : r.position = 0) : r.config = fiat := by
  have hcur := h.cur
  rw [hr, hl.upTo_zero] at hcur
  exact (congrArg Prod.fst hcur).symm

theorem Tracks.cut (h : Tracks fiat l r) (ht : r.position ≤ t) : Tracks fiat (upTo l t) r := by
  constructor
  · rw [upTo_upTo ht]
    exact h.cur
  · intro s hs1 hs2
    rw [upTo_upTo (hs2.le.trans ht)]
    exact h.prev s hs1 hs2

theorem Tracks.adopted_eq (h : Tracks fiat l r) (hl : FrameChain l)
    (hstale : ∀ g ∈ l, r.position < g.frameEnd → g.config.version ≤ r.config.version) :
    adopted fiat l = (r.config, r.position) := by
  rw [hl.upTo_append r.position, adopted_append_stale ?_, h.cur]
  intro g hg
  obtain ⟨hmem, hlt⟩ := List.mem_filter.mp hg
  rw [h.cur]
  exact hstale g hmem (by simpa using hlt)

theorem Tracks.observe (h : Tracks fiat l r) (hl : FrameChain l) (hf : f ∈ l)
    (horder : ∀ g ∈ l, g.frameEnd < f.frameEnd → g.config.version ≤ r.config.version) :
    Tracks fiat l (r.observe f) := by
  unfold ConfigRecord.observe
  split
  · exact h
  · rename_i hv
    have hv : r.config.version < f.config.version := not_le.mp hv
    constructor
    · obtain ⟨l', heq, hl'⟩ := hl.upTo_end hf
      rw [heq, adopted_concat, if_neg ?_]
      rw [not_le]
      -- whatever was adopted before `f` has a lower version
      rcases adopted_cases fiat l' with hc | ⟨g, hg, hc⟩
      · rw [hc]
        exact h.fiat_version_le.trans_lt hv
      · rw [hc]
        exact hl.version_lt_of_end_lt (hl' g hg).1 hf (hl' g hg).2
    · intro t ht1 ht2
      dsimp only at ht1 ht2 ⊢
      refine (h.cut ht1).adopted_eq (hl.upTo t) ?_
      intro g hg _
      exact horder g (mem_upTo.mp hg).1 ((mem_upTo.mp hg).2.trans_lt ht2)

theorem ConfigRecord.version_le_observe (r : ConfigRecord) (f : MembershipFrame) :
    r.config.version ≤ (r.observe f).config.version ∧
      f.config.version ≤ (r.observe f).config.version := by
  unfold ConfigRecord.observe
  split
  · exact ⟨le_rfl, ‹_›⟩
  · exact ⟨(not_le.mp ‹_›).le, le_rfl⟩

theorem Tracks.promotePrev (h : Tracks fiat l r) (hlt : r.prevPosition < r.position) :
    Tracks fiat l r.promotePrev := by
  constructor
  · exact h.prev r.prevPosition le_rfl hlt
  · intro t ht1 ht2
    exact absurd ht1 (not_le.mpr ht2)

theorem Tracks.revert (h : Tracks fiat l r) (h0 : t ≠ 0)
    (hexp : r.position ≤ t ∨ r.prevPosition ≤ t) : Tracks fiat (upTo l t) (r.revert t) := by
  unfold ConfigRecord.revert
  split
  · rename_i hlt
    have hprev : r.prevPosition ≤ t := hexp.resolve_left (not_le.mpr hlt)
    exact (h.promotePrev (hprev.trans_lt hlt)).cut hprev
  · exact h.cut (not_lt.mp ‹_›)

theorem ConfigRecord.revert_zero (r : ConfigRecord) :
    (r.revert 0).config = r.config ∧ (r.revert 0).position = 0 := by
  unfold ConfigRecord.revert
  split
  · exact ⟨rfl, rfl⟩
  · exact ⟨rfl, by omega⟩

theorem Tracks.revert_ahead (h : Tracks fiat l r) (h0 : t ≠ 0)
    (hexp : r.position ≤ t ∨ r.prevPosition ≤ t) : Tracks fiat l (r.revert t) := by
  by_cases hlt : t < r.position
  · rw [show r.revert t = r.promotePrev from (if_pos hlt).trans (if_neg h0)]
    exact h.promotePrev ((hexp.resolve_left (not_le.mpr hlt)).trans_lt hlt)
  · rw [show r.revert t = r from if_neg hlt]
    exact h

theorem Tracks.foldl_observe {seen rest : List MembershipFrame} (hl : FrameChain (seen ++ rest))
    (h : Tracks fiat (seen ++ rest) r) (hseen : ∀ g ∈ seen, g.config.version ≤ r.config.version) :
    Tracks fiat (seen ++ rest) (rest.foldl .observe r) ∧
      ∀ g ∈ seen ++ rest, g.config.version ≤ (rest.foldl .observe r).config.version := by
  induction rest generalizing seen r with
  | nil =>
    rw [List.append_nil]
    rw [List.append_nil] at h
    exact ⟨h, hseen⟩
  | cons f rest ih =>
    have hassoc : seen ++ f :: rest = (seen ++ [f]) ++ rest := by simp
    have horder : ∀ g ∈ seen ++ f :: rest, g.frameEnd < f.frameEnd →
        g.config.version ≤ r.config.version := by
      intro g hg hlt
      rcases List.mem_append.mp hg with hg | hg
      · exact hseen g hg
      · -- `f` and what follows it do not end before `f`
        rcases List.mem_cons.mp hg with rfl | hg
        · exact absurd hlt (lt_irrefl _)
        · have hfg := (List.pairwise_cons.mp (List.pairwise_append.mp hl.ordered).2.1).1 g hg
          unfold MembershipFrame.frameEnd at hfg hlt
          omega
    have hobs := h.observe hl (by simp) horder
    rw [hassoc] at hobs hl ⊢
    refine ih hl hobs ?_
    intro g hg
    obtain ⟨hr, hf⟩ := r.version_le_observe f
    rcases List.mem_snoc.mp hg with hg | rfl
    · exact (hseen g hg).trans hr
    · exact hf

/-- The fold of recovery starts from the record's own config when it has no
    frame. -/
def recoveredFiat (fiat : ClusterConfig) (r : ConfigRecord) : ClusterConfig :=
  if r.position = 0 then r.config else fiat

theorem unaheadRecord_tracks (genesis : ClusterConfig) (durable : ℕ) (hl : FrameChain l)
    (h : Tracks fiat l r ∨ r.position = 0) :
    Tracks (recoveredFiat fiat (unaheadRecord genesis durable r)) (upTo l durable)
      (unaheadRecord genesis durable r) := by
  by_cases h0 : (unaheadRecord genesis durable r).position = 0
  · rw [recoveredFiat, if_pos h0]
    exact tracks_of_position_zero (hl.upTo durable) h0
  · rw [recoveredFiat, if_neg h0]
    unfold unaheadRecord at h0 ⊢
    split_ifs at h0 ⊢ with h1 h2
    · exact absurd rfl h0
    · have htr := h.resolve_right (by omega)
      exact (htr.promotePrev (by omega)).cut (not_lt.mp h2)
    · exact (h.resolve_right h0).cut (not_lt.mp h1)

theorem Tracks.recoveredFiat_eq (h : Tracks fiat l r) (hl : FrameChain l) (durable : ℕ) :
    recoveredFiat fiat (unaheadRecord fiat durable r) = fiat := by
  unfold recoveredFiat
  split
  · rename_i h0
    unfold unaheadRecord at h0 ⊢
    split_ifs at h0 ⊢ with h1 h2
    · rfl
    · exact (h.promotePrev (by omega)).config_of_position_zero hl h0
    · exact h.config_of_position_zero hl h0
  · rfl

theorem Tracks.rederiveConfig (h : Tracks fiat l r) (hl : FrameChain l) :
    Tracks fiat l (rederiveConfig 0 l r) ∧
      ∀ g ∈ l, g.config.version ≤ (rederiveConfig 0 l r).config.version := by
  have hsplit := Timeline.sorted_split _ hl.positions_sorted r.position
  have hseen : ∀ g ∈ l.filter (fun g => g.position < r.position),
      g.config.version ≤ r.config.version := by
    intro g hg
    obtain ⟨hmem, hlt⟩ := List.mem_filter.mp hg
    have hlt : g.position < r.position := by simpa using hlt
    refine h.version_le hmem ?_
    -- the record's frame is in the log, and `g` does not come after it
    rcases adopted_cases fiat (upTo l r.position) with hc | ⟨f, hf, hc⟩
    · rw [h.cur] at hc
      have : r.position = 0 := congrArg Prod.snd hc
      omega
    · rw [h.cur] at hc
      have hpos : r.position = f.frameEnd := congrArg Prod.snd hc
      rcases hl.before_or_before hmem (mem_upTo.mp hf).1 with rfl | ⟨hb, -⟩ | ⟨hb, -⟩
      · exact hpos.ge
      · rw [hpos]
        exact hb.trans (Nat.le_add_right _ _)
      · omega
  have hfold := Tracks.foldl_observe (hsplit ▸ hl) (hsplit ▸ h) hseen
  unfold UltimaCluster.rederiveConfig
  rw [Nat.max_zero]
  rwa [← hsplit] at hfold

/-- **Recovery answers the fold over the recovered log.** -/
theorem recoverConfigRecord_tracks (genesis : ClusterConfig) (durable : ℕ) (hl : FrameChain l)
    (h : Tracks fiat l r ∨ r.position = 0) :
    Tracks (recoveredFiat fiat (unaheadRecord genesis durable r)) (upTo l durable)
        (recoverConfigRecord (some r) (upTo l durable) 0 durable genesis) ∧
      ∀ g ∈ upTo l durable, g.config.version ≤
        (recoverConfigRecord (some r) (upTo l durable) 0 durable genesis).config.version :=
  (unaheadRecord_tracks genesis durable hl h).rederiveConfig (hl.upTo durable)

/-- A record that has seen the whole log: the last frame, once it is above what
    the fold started from. -/
theorem Tracks.config_eq (h : Tracks fiat l r) (hl : FrameChain l)
    (hall : ∀ g ∈ l, g.config.version ≤ r.config.version) :
    (l = [] → r.config = fiat) ∧
      ∀ last, l.getLast? = some last → fiat.version < last.config.version →
        r.config = last.config := by
  have hfold := h.adopted_eq hl fun g hg _ => hall g hg
  constructor
  · rintro rfl
    exact (congrArg Prod.fst hfold).symm
  · intro last hlast hv
    obtain ⟨front, rfl⟩ := List.getLast?_eq_some_iff.mp hlast
    rw [adopted_concat, if_neg ?_] at hfold
    · exact (congrArg Prod.fst hfold).symm
    · rw [not_le]
      rcases adopted_cases fiat front with hc | ⟨g, hg, hc⟩
      · rw [hc]
        exact hv
      · rw [hc]
        exact ((List.pairwise_append.mp hl.ordered).2.2 g hg last (by simp)).2

end Tracks

/-! ## A record and the observations on their way -/

/-- The record follows the log, and every durable frame that it has not passed
    over is on its way in `queue`, in the order of the log. -/
structure Follows (fiat : ClusterConfig) (l : List MembershipFrame) (durable : ℕ)
    (seen queue : List MembershipFrame) (r : ConfigRecord) : Prop where
  chain : FrameChain l
  tracks : Tracks fiat l r
  seen : ∀ g ∈ seen, g ∈ l ∧ g.config.version ≤ r.config.version
  waiting : ∀ g ∈ l, g.frameEnd ≤ durable → g.config.version ≤ r.config.version ∨ g ∈ queue
  sorted : queue.Pairwise fun f g => f.frameEnd < g.frameEnd
  inLog : ∀ f ∈ queue, f.frameEnd ≤ durable → f ∈ l

section Follows

variable {fiat : ClusterConfig} {l seen queue : List MembershipFrame} {durable : ℕ}
  {r : ConfigRecord} {f : MembershipFrame}

theorem FrameChain.concat (h : FrameChain l) (hpos : 0 < f.length) (hv : 0 < f.config.version)
    (hend : ∀ g ∈ l, g.frameEnd ≤ f.position ∧ g.config.version < f.config.version) :
    FrameChain (l ++ [f]) := by
  constructor
  · rw [List.pairwise_append]
    refine ⟨h.ordered, List.pairwise_singleton _ _, ?_⟩
    intro g hg x hx
    rw [List.mem_singleton.mp hx]
    exact hend g hg
  · refine List.forall_mem_snoc h.positive ?_
    exact ⟨hpos, hv⟩

theorem Tracks.position_le (h : Tracks fiat l r) (hl : ∀ g ∈ l, g.frameEnd ≤ f.position) :
    r.position ≤ f.position := by
  rcases adopted_cases fiat (upTo l r.position) with hc | ⟨g, hg, hc⟩
  · rw [h.cur] at hc
    rw [show r.position = 0 from congrArg Prod.snd hc]
    exact Nat.zero_le _
  · rw [h.cur] at hc
    rw [show r.position = g.frameEnd from congrArg Prod.snd hc]
    exact hl g (mem_upTo.mp hg).1

theorem upTo_concat_of_lt {t : ℕ} (ht : t < f.frameEnd) : upTo (l ++ [f]) t = upTo l t := by
  unfold upTo
  rw [List.filter_append, List.filter_cons_of_neg (by simpa using ht)]
  exact List.append_nil _

theorem Tracks.concat (h : Tracks fiat l r) (hpos : r.position < f.frameEnd) :
    Tracks fiat (l ++ [f]) r := by
  constructor
  · rw [upTo_concat_of_lt hpos]
    exact h.cur
  · intro t h1 h2
    rw [upTo_concat_of_lt (h2.trans hpos)]
    exact h.prev t h1 h2

theorem Follows.concat (h : Follows fiat l durable seen queue r) (hpos : 0 < f.length)
    (hv : 0 < f.config.version) (hd : durable ≤ f.position)
    (hend : ∀ g ∈ l, g.frameEnd ≤ f.position ∧ g.config.version < f.config.version) :
    Follows fiat (l ++ [f]) durable seen queue r := by
  have hlt : durable < f.frameEnd := by
    unfold MembershipFrame.frameEnd
    omega
  have hrpos : r.position < f.frameEnd := by
    have := h.tracks.position_le fun g hg => (hend g hg).1
    unfold MembershipFrame.frameEnd
    omega
  refine ⟨h.chain.concat hpos hv hend, h.tracks.concat hrpos, ?_, ?_, h.sorted, ?_⟩
  · intro g hg
    exact ⟨List.mem_append_left _ (h.seen g hg).1, (h.seen g hg).2⟩
  · intro g hg hle
    rcases List.mem_snoc.mp hg with hg | rfl
    · exact h.waiting g hg hle
    · exact absurd hle (not_le.mpr hlt)
  · intro g hg hle
    exact List.mem_append_left _ (h.inLog g hg hle)

theorem Follows.observe (h : Follows fiat l durable seen (f :: queue) r)
    (hle : f.frameEnd ≤ durable) : Follows fiat l durable (f :: seen) queue (r.observe f) := by
  obtain ⟨hhead, htail⟩ := List.pairwise_cons.mp h.sorted
  obtain ⟨hr, hf⟩ := r.version_le_observe f
  refine ⟨h.chain, h.tracks.observe h.chain (h.inLog f (by simp) hle) ?_, ?_, ?_, htail, ?_⟩
  · -- everything before `f` has been passed over: nothing before it is queued
    intro g hg hlt
    rcases h.waiting g hg (hlt.le.trans hle) with hw | hw
    · exact hw
    · rcases List.mem_cons.mp hw with rfl | hw
      · exact absurd hlt (lt_irrefl _)
      · exact absurd hlt (hhead g hw).not_gt
  · intro g hg
    rcases List.mem_cons.mp hg with rfl | hg
    · exact ⟨h.inLog g (by simp) hle, hf⟩
    · exact ⟨(h.seen g hg).1, (h.seen g hg).2.trans hr⟩
  · intro g hg hd
    rcases h.waiting g hg hd with hw | hw
    · exact .inl (hw.trans hr)
    · rcases List.mem_cons.mp hw with rfl | hw
      · exact .inl hf
      · exact .inr hw
  · intro g hg
    exact h.inLog g (List.mem_cons_of_mem _ hg)

theorem Follows.append (h : Follows fiat l durable seen queue r) (hpos : 0 < f.length)
    (hv : 0 < f.config.version) (hd : durable ≤ f.position)
    (hend : ∀ g ∈ l, g.frameEnd ≤ f.position ∧ g.config.version < f.config.version)
    (hall : ∀ g ∈ l, g.config.version ≤ r.config.version) :
    Follows fiat (l ++ [f]) durable (f :: seen) queue (r.observe f) := by
  have hlt : durable < f.frameEnd := by
    unfold MembershipFrame.frameEnd
    omega
  have hrpos : r.position < f.frameEnd := by
    have := h.tracks.position_le fun g hg => (hend g hg).1
    unfold MembershipFrame.frameEnd
    omega
  obtain ⟨hr, hf⟩ := r.version_le_observe f
  have hchain := h.chain.concat hpos hv hend
  have hversion : ∀ g ∈ l ++ [f], g.config.version ≤ (r.observe f).config.version := by
    intro g hg
    rcases List.mem_snoc.mp hg with hg | rfl
    · exact (hall g hg).trans hr
    · exact hf
  refine ⟨hchain, (h.tracks.concat hrpos).observe hchain (by simp) ?_, ?_,
    fun g hg _ => .inl (hversion g hg), h.sorted, ?_⟩
  · intro g hg hlt
    rcases List.mem_snoc.mp hg with hg | rfl
    · exact hall g hg
    · exact absurd hlt (lt_irrefl _)
  · intro g hg
    have hmem : g ∈ l ++ [f] := by
      rcases List.mem_cons.mp hg with rfl | hg
      · simp
      · exact List.mem_append_left _ (h.seen g hg).1
    exact ⟨hmem, hversion g hmem⟩
  · intro g hg hle
    exact List.mem_append_left _ (h.inLog g hg hle)

/-- Bytes up to `d` become durable, and their frames are queued. -/
theorem Follows.persist (h : Follows fiat l durable seen queue r) (d : ℕ)
    (hle : ∀ f ∈ queue, f.frameEnd ≤ durable) :
    Follows fiat l (max durable d) seen
      (queue ++ l.filter fun f => durable < f.frameEnd ∧ f.frameEnd ≤ d) r := by
  have hmem : ∀ g ∈ l.filter (fun f => durable < f.frameEnd ∧ f.frameEnd ≤ d),
      g ∈ l ∧ durable < g.frameEnd := by
    intro g hg
    obtain ⟨hg, hlt⟩ := List.mem_filter.mp hg
    simp only [decide_eq_true_eq] at hlt
    exact ⟨hg, hlt.1⟩
  refine ⟨h.chain, h.tracks, h.seen, ?_, ?_, ?_⟩
  · intro g hg hgd
    by_cases hold : g.frameEnd ≤ durable
    · rcases h.waiting g hg hold with hw | hw
      · exact .inl hw
      · exact .inr (List.mem_append_left _ hw)
    · refine .inr (List.mem_append_right _ (List.mem_filter.mpr ⟨hg, ?_⟩))
      simp only [decide_eq_true_eq]
      omega
  · rw [List.pairwise_append]
    refine ⟨h.sorted, ?_, ?_⟩
    · refine (h.chain.ordered.sublist List.filter_sublist).imp_of_mem ?_
      intro a b _ hb hab
      have := (h.chain.positive b (hmem b hb).1).1
      have hab := hab.1
      unfold MembershipFrame.frameEnd at hab ⊢
      omega
    · intro a ha b hb
      exact (hle a ha).trans_lt (hmem b hb).2
  · intro g hg hgd
    rcases List.mem_append.mp hg with hg | hg
    · exact h.inLog g hg (hle g hg)
    · exact (hmem g hg).1

/-- A cut that takes at most the last adopted frame, and the revert that goes
    with it. -/
theorem Follows.cut {target : ℕ} (h : Follows fiat l durable seen queue r) (h0 : target ≠ 0)
    (hexp : r.position ≤ target ∨ r.prevPosition ≤ target) (hd : target ≤ durable) :
    Follows fiat (upTo l target) target (upTo seen target) queue (r.revert target) := by
  have hin : ∀ f ∈ queue, f.frameEnd ≤ target → f ∈ upTo l target := fun f hf hle =>
    mem_upTo.mpr ⟨h.inLog f hf (hle.trans hd), hle⟩
  have htr := h.tracks.revert h0 hexp
  by_cases hlt : target < r.position
  · -- reverted: the fold over what is left is the predecessor
    have hrev : r.revert target = r.promotePrev := (if_pos hlt).trans (if_neg h0)
    have hprev : r.prevPosition ≤ target := hexp.resolve_left (not_le.mpr hlt)
    have hversion : ∀ g ∈ upTo l target, g.config.version ≤ (r.revert target).config.version := by
      intro g hg
      have hle := version_le_adopted fiat hg
      rw [h.tracks.prev target hprev hlt] at hle
      rw [hrev]
      exact hle
    refine ⟨h.chain.upTo target, htr, ?_, fun g hg _ => .inl (hversion g hg), h.sorted, hin⟩
    intro g hg
    obtain ⟨hg, hle⟩ := mem_upTo.mp hg
    have hmem : g ∈ upTo l target := mem_upTo.mpr ⟨(h.seen g hg).1, hle⟩
    exact ⟨hmem, hversion g hmem⟩
  · have hrev : r.revert target = r := if_neg hlt
    rw [hrev] at htr ⊢
    refine ⟨h.chain.upTo target, htr, ?_, ?_, h.sorted, hin⟩
    · intro g hg
      obtain ⟨hg, hle⟩ := mem_upTo.mp hg
      exact ⟨mem_upTo.mpr ⟨(h.seen g hg).1, hle⟩, (h.seen g hg).2⟩
    · intro g hg hle
      exact h.waiting g (mem_upTo.mp hg).1 (hle.trans hd)

theorem Follows.wipe (h : Follows fiat l durable seen queue r) :
    Follows r.config (upTo l 0) 0 (upTo seen 0) queue (r.revert 0) := by
  have hnil := h.chain.upTo_zero
  have hseen : upTo seen 0 = [] := by
    refine List.filter_eq_nil_iff.mpr ?_
    intro g hg
    have hmem : g ∉ upTo l 0 := by rw [hnil]; simp
    simpa [mem_upTo, (h.seen g hg).1] using hmem
  have hconfig := r.revert_zero
  have htr : Tracks r.config (upTo l 0) (r.revert 0) := by
    have := tracks_of_position_zero (h.chain.upTo 0) hconfig.2
    rwa [hconfig.1] at this
  refine ⟨h.chain.upTo 0, htr, ?_, ?_, h.sorted, ?_⟩
  · rw [hseen]
    simp
  · rw [hnil]
    simp
  · intro f hf hle
    exact mem_upTo.mpr ⟨h.inLog f hf (hle.trans (Nat.zero_le _)), hle⟩

theorem Follows.restrict {queue' : List MembershipFrame} (h : Follows fiat l durable seen queue r)
    (hsub : queue'.Sublist queue) (hkeep : ∀ f ∈ queue, f ∈ l → f ∈ queue') :
    Follows fiat l durable seen queue' r := by
  refine ⟨h.chain, h.tracks, h.seen, ?_, h.sorted.sublist hsub, fun f hf => h.inLog f (hsub.mem hf)⟩
  intro g hg hle
  rcases h.waiting g hg hle with hw | hw
  · exact .inl hw
  · exact .inr (hkeep g hw hg)

end Follows

end UltimaCluster
