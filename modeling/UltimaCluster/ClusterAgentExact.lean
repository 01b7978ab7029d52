/-
  The cluster agent folds the committed log: whatever path a node takes, its FSM is the
  fold of the frames below its cursor, and the artifact of a position is the image of
  that fold.
-/
import UltimaCluster.ClusterAgent

namespace UltimaCluster

open Tiling (below below_concat place width width_append)

/-! ## A state apart from its tag -/

namespace ClusterState

/-- The state with another tag. -/
def tagged (s : ClusterState) (pos : ℕ) : ClusterState := { s with applied := pos }

theorem onSnapshotFrame_tagged (s : ClusterState) (pos position : ℕ) (standby : Bool) (timeNs : ℕ) :
    (s.tagged pos).onSnapshotFrame position standby timeNs =
      (s.onSnapshotFrame position standby timeNs).tagged pos := by
  unfold onSnapshotFrame tagged
  split <;> rfl

theorem walk_tagged {s : ClusterState} {x : ℕ × LogFrame} {f : Frame} (hf : clusterFrame x = some f)
    (pos pos' : ℕ) : ((s.tagged pos).walk f).tagged pos' = (s.walk f).tagged pos' := by
  unfold clusterFrame at hf
  split at hf
  · cases hf
    show ((s.tagged pos).onSnapshotFrame _ _ _).tagged pos' = _
    rw [onSnapshotFrame_tagged]
    rfl
  · split at hf
    · cases hf
      rfl
    · cases hf

theorem setConsumed_eq {s t : ClusterState} {pos : ℕ} (h : s.tagged pos = t) (hle : s.applied ≤ pos) :
    s.setConsumed pos = t := by
  rw [← h]
  unfold setConsumed tagged
  split
  · rfl
  · have heq : s.applied = pos := by omega
    rw [← heq]

end ClusterState

/-! ## The fold of the log -/

/-- The committed log, with the genesis of its cluster. -/
structure ClusterLog where
  log : CommittedLog
  membership : ClusterConfig
  settings : Settings
  /-- The words of a record are of fixed width. -/
  membershipFits : membership.Fits
  settingsFits : settings.Fits
  times : ∀ f ∈ log.frames, f.timeNs < 2 ^ 64

namespace ClusterLog

variable (H : ClusterLog)

/-- The frames for the FSM that start below a position. -/
def framesTo (pos : ℕ) : List Frame := (Tiling.below LogFrame.span 0 H.log.frames pos).filterMap clusterFrame

/-- Those that start from a position on and below another. -/
def framesBetween (lo hi : ℕ) : List Frame :=
  ((Tiling.below LogFrame.span 0 H.log.frames hi).filter fun x => lo ≤ x.1).filterMap clusterFrame

def walked (pos : ℕ) : ClusterState := (ClusterState.genesis H.membership H.settings).walkAll (H.framesTo pos)

/-- The fold of the log up to a position, which is its tag. -/
def stateAt (pos : ℕ) : ClusterState := (H.walked pos).tagged pos

variable {H} {x : ℕ × LogFrame} {pos lo : ℕ}

theorem framesTo_end (hx : x ∈ H.log.placed) :
    H.framesTo (x.1 + x.2.span) = H.framesTo x.1 ++ (clusterFrame x).toList := by
  rw [framesTo, below_concat LogFrame.span_pos hx, List.filterMap_append]
  cases h : clusterFrame x <;> simp [h, framesTo]

theorem framesBetween_end (hx : x ∈ H.log.placed) (hlo : lo ≤ x.1) :
    H.framesBetween lo (x.1 + x.2.span) = H.framesBetween lo x.1 ++ (clusterFrame x).toList := by
  rw [framesBetween, below_concat LogFrame.span_pos hx, List.filter_append, List.filterMap_append]
  cases h : clusterFrame x <;> simp [h, hlo, framesBetween]

theorem framesBetween_self (pos : ℕ) : H.framesBetween pos pos = [] := by
  unfold framesBetween
  rw [List.filter_eq_nil_iff.mpr, List.filterMap_nil]
  intro x hx
  have hlow := (List.mem_filter.mp hx).2
  simp only [decide_eq_true_eq] at hlow ⊢
  omega

theorem walked_end (hx : x ∈ H.log.placed) :
    H.walked (x.1 + x.2.span) = (H.walked x.1).walkAll (clusterFrame x).toList := by
  rw [walked, framesTo_end hx, ClusterState.walkAll_append]
  rfl

theorem end_le_of_framesTo (hedge : H.log.Edge pos) {f : Frame} (hf : f ∈ H.framesTo pos) :
    f.end_ ≤ pos ∧ f.Fits := by
  obtain ⟨x, hx, hxf⟩ := List.mem_filterMap.mp hf
  have hplaced : x ∈ H.log.placed := List.mem_of_mem_filter hx
  have hlow : x.1 < pos := by simpa using (List.mem_filter.mp hx).2
  have hend : x.1 + x.2.span ≤ pos := by
    rcases Tiling.edge_cases hedge hplaced with h | h
    · exact h
    · omega
  have hfits := CommittedLog.end_lt hplaced
  have htime : x.2.timeNs < 2 ^ 64 := by
    obtain ⟨l₁, l₂, hl, -⟩ := Tiling.mem_place.mp hplaced
    exact H.times x.2 (by rw [hl]; exact List.mem_append_right _ List.mem_cons_self)
  unfold clusterFrame at hxf
  split at hxf
  · cases hxf
    exact ⟨hend, hfits, htime⟩
  · split at hxf
    · cases hxf
      exact ⟨hend, hfits⟩
    · cases hxf

theorem edge_lt (hedge : H.log.Edge pos) : pos < 2 ^ 64 := by
  obtain ⟨l₁, l₂, hl, rfl⟩ := hedge
  have := H.log.fits
  rw [hl, width_append] at this
  omega

theorem walked_applied_le (hedge : H.log.Edge pos) : (H.walked pos).applied ≤ pos :=
  ClusterState.walkAll_applied_le (Nat.zero_le pos) fun _ hf => (end_le_of_framesTo hedge hf).1

theorem stateAt_eq_walkAll (hedge : H.log.Edge pos) :
    H.stateAt pos =
      (ClusterState.genesis H.membership H.settings).walkAll (H.framesTo pos ++ [.consumed pos]) := by
  rw [ClusterState.walkAll_append]
  exact (ClusterState.setConsumed_eq rfl (walked_applied_le hedge)).symm

/-- An artifact that is the image of the fold. -/
def Sound (H : ClusterLog) (crc : Bytes → UInt32) (x : ℕ × Bytes) : Prop :=
  H.log.Edge x.1 ∧ (H.stateAt x.1).freeze crc = .ok (x.2, x.1)

theorem Sound.readImage {crc : Bytes → UInt32} {x : ℕ × Bytes} (h : H.Sound crc x) :
    readImage crc x.1 x.2 = .ok (H.stateAt x.1) := by
  have hall : ∀ f ∈ H.framesTo x.1 ++ [.consumed x.1], f.Fits := by
    intro f hf
    rcases List.mem_snoc.mp hf with hf | rfl
    · exact (end_le_of_framesTo h.1 hf).2
    · exact edge_lt h.1
  obtain ⟨img, hfreeze, hread⟩ := readImage_walkAll crc H.membershipFits H.settingsFits hall
  rw [← stateAt_eq_walkAll h.1] at hfreeze hread
  have himg := hfreeze.symm.trans h.2
  rw [Except.ok.injEq, Prod.mk.injEq] at himg
  rw [← himg.1]
  exact himg.2 ▸ hread

end ClusterLog

/-! ## Within a pass -/

namespace ClusterAgent

variable {crc : Bytes → UInt32} {H : ClusterLog} {a : ClusterAgent} {pos : ℕ}

/-- The FSM is the fold up to a position, but for the tag, and was given the frames
    since the image. -/
structure At (crc : Bytes → UInt32) (H : ClusterLog) (a : ClusterAgent) (pos : ℕ) : Prop where
  edge : H.log.Edge pos
  folded : a.fsm.tagged pos = H.stateAt pos
  tag : a.fsm.applied ≤ pos
  base : a.base ≤ pos
  fed : a.fed = H.framesBetween a.base pos
  disk : ∀ x ∈ a.disk, H.Sound crc x
  wrote : ∀ x ∈ a.wrote, H.Sound crc x

/-- What a walk leaves as it is. -/
structure Kept (a b : ClusterAgent) : Prop where
  page : b.page = a.page
  up : b.up = a.up
  base : b.base = a.base

theorem Kept.trans {a b c : ClusterAgent} (h : Kept a b) (h' : Kept b c) : Kept a c :=
  ⟨h'.page.trans h.page, h'.up.trans h.up, h'.base.trans h.base⟩

theorem feed_kept (a : ClusterAgent) (x : ℕ × LogFrame) : Kept a (a.feed x) := by
  unfold feed
  split <;> exact ⟨rfl, rfl, rfl⟩

theorem freezeAndWrite_kept (a : ClusterAgent) (writable : ℕ → Bool) :
    Kept a (a.freezeAndWrite crc writable) := by
  unfold freezeAndWrite
  split
  · exact ⟨rfl, rfl, rfl⟩
  · split <;> exact ⟨rfl, rfl, rfl⟩

theorem act_kept (writable : ℕ → Bool) (a : ClusterAgent) (x : ℕ × LogFrame) (freeze : Bool) :
    Kept a (a.act crc writable x freeze) := by
  unfold act
  split
  · have hfeed := feed_kept a x
    have hset : Kept a { a.feed x with fsm := (a.feed x).fsm.setConsumed (x.1 + x.2.span) } :=
      ⟨hfeed.page, hfeed.up, hfeed.base⟩
    exact hset.trans (freezeAndWrite_kept _ writable)
  · exact feed_kept a x

theorem At.feed (h : At crc H a pos) {f : LogFrame} (hx : (pos, f) ∈ H.log.placed) :
    At crc H (a.feed (pos, f)) (pos + f.span) := by
  have hedge : H.log.Edge (pos + f.span) := Tiling.edge_end_of_mem hx
  have hwalked := ClusterLog.walked_end hx
  have hfed := ClusterLog.framesBetween_end hx h.base
  unfold ClusterAgent.feed
  cases hframe : clusterFrame (pos, f) with
  | none =>
    rw [hframe] at hwalked hfed
    refine ⟨hedge, ?_, Nat.le_add_right_of_le h.tag, Nat.le_add_right_of_le h.base, ?_, h.disk, h.wrote⟩
    · show a.fsm.tagged (pos + f.span) = (H.walked (pos + f.span)).tagged (pos + f.span)
      rw [hwalked]
      exact congrArg (fun s => s.tagged (pos + f.span)) h.folded
    · rw [hfed, Option.toList_none, List.append_nil]
      exact h.fed
  | some g =>
    rw [hframe] at hwalked hfed
    refine ⟨hedge, ?_, ?_, Nat.le_add_right_of_le h.base, ?_, h.disk, h.wrote⟩
    · show (a.fsm.walk g).tagged (pos + f.span) = (H.walked (pos + f.span)).tagged (pos + f.span)
      rw [hwalked]
      rw [← ClusterState.walk_tagged hframe pos, h.folded]
      exact ClusterState.walk_tagged hframe pos _
    · have hend : g.end_ = pos + f.span := by
        unfold clusterFrame at hframe
        split at hframe
        · cases hframe
          rfl
        · split at hframe
          · cases hframe
            rfl
          · cases hframe
      rcases ClusterState.walk_applied a.fsm g with happ | happ
      · rw [happ]
        exact Nat.le_add_right_of_le h.tag
      · rw [happ, hend]
    · rw [hfed, h.fed]
      rfl

theorem At.setConsumed (h : At crc H a pos) : a.fsm.setConsumed pos = H.stateAt pos :=
  ClusterState.setConsumed_eq h.folded h.tag

theorem At.freeze (h : At crc H a pos) (writable : ℕ → Bool) :
    At crc H ({ a with fsm := a.fsm.setConsumed pos }.freezeAndWrite crc writable) pos := by
  have hstate := h.setConsumed
  have hat : At crc H { a with fsm := a.fsm.setConsumed pos } pos := by
    refine { h with folded := ?_, tag := ?_ }
    · rw [hstate]
      rfl
    · rw [hstate]
      exact Nat.le_refl pos
  unfold freezeAndWrite
  rw [hstate] at hat ⊢
  cases hfreeze : (H.stateAt pos).freeze crc with
  | error e => exact hat
  | ok x =>
    obtain ⟨img, tag⟩ := x
    dsimp only
    split
    · have htag : tag = pos := by
        have hall : ∀ f ∈ H.framesTo pos ++ [.consumed pos], f.Fits := by
          intro f hf
          rcases List.mem_snoc.mp hf with hf | rfl
          · exact (ClusterLog.end_le_of_framesTo h.edge hf).2
          · exact ClusterLog.edge_lt h.edge
        obtain ⟨img', hfreeze', -⟩ := readImage_walkAll crc H.membershipFits H.settingsFits hall
        rw [← ClusterLog.stateAt_eq_walkAll h.edge, hfreeze, Except.ok.injEq, Prod.mk.injEq] at hfreeze'
        exact hfreeze'.2
      subst htag
      have hsound : H.Sound crc (tag, img) := ⟨h.edge, hfreeze⟩
      refine { hat with disk := ?_, wrote := ?_ }
      · intro x hx
        rcases List.mem_cons.mp hx with rfl | hx
        · exact hsound
        · exact h.disk x (List.mem_of_mem_filter hx)
      · refine List.forall_mem_snoc h.wrote ?_
        exact hsound
    · exact hat

theorem At.act (h : At crc H a pos) {f : LogFrame} (hx : (pos, f) ∈ H.log.placed) (writable : ℕ → Bool)
    (freeze : Bool) : At crc H (a.act crc writable (pos, f) freeze) (pos + f.span) := by
  unfold ClusterAgent.act
  split
  · exact (h.feed hx).freeze writable
  · exact h.feed hx

theorem walkFrames_kept (writable : ℕ → Bool) (a : ClusterAgent) (xs : List ((ℕ × LogFrame) × Bool)) :
    Kept a (a.walkFrames crc writable xs) := by
  induction xs generalizing a with
  | nil => exact ⟨rfl, rfl, rfl⟩
  | cons x xs ih => exact (act_kept writable a x.1 x.2).trans (ih _)

theorem cursorAfter_cons (c c' : ℕ) (x : ℕ × LogFrame) (xs : List (ℕ × LogFrame))
    (h : c' = x.1 + x.2.span) : cursorAfter c (x :: xs) = cursorAfter c' xs := by
  unfold cursorAfter
  cases xs with
  | nil => rw [h]; rfl
  | cons y ys => rw [List.getLast?_cons_cons, List.getLast?_eq_some_getLast (List.cons_ne_nil y ys)]; rfl

theorem cursorAfter_of_ne {xs : List (ℕ × LogFrame)} (h : xs ≠ []) (c c' : ℕ) :
    cursorAfter c xs = cursorAfter c' xs := by
  unfold cursorAfter
  rw [List.getLast?_eq_some_getLast h]
  rfl

/-- Frames from the position on, of which those that are no matter of the FSM may be
    left out. -/
theorem At.walkFrames (writable : ℕ → Bool) {keep : ℕ × LogFrame → Bool}
    (hkeep : ∀ x, keep x = false → clusterFrame x = none) (φ : ℕ × LogFrame → Bool) {l₁ m l₃ : List LogFrame}
    (hlog : H.log.frames = l₁ ++ (m ++ l₃)) (hpos : pos = width LogFrame.span l₁)
    (h : At crc H a pos) (k : ℕ) :
    At crc H (a.walkFrames crc writable
        ((((place LogFrame.span pos m).filter keep).map fun x => (x, φ x)).take k))
      (cursorAfter pos (((place LogFrame.span pos m).filter keep).take k)) := by
  induction m generalizing a pos l₁ k with
  | nil =>
    rw [place, List.filter_nil, List.map_nil, List.take_nil, List.take_nil]
    exact h
  | cons f m ih =>
    have hx : (pos, f) ∈ H.log.placed := by
      refine Tiling.mem_place.mpr ⟨l₁, m ++ l₃, hlog, ?_⟩
      rw [hpos, Nat.zero_add]
    have hlog' : H.log.frames = (l₁ ++ [f]) ++ (m ++ l₃) := by
      rw [hlog, List.append_assoc]
      rfl
    have hpos' : pos + f.span = width LogFrame.span (l₁ ++ [f]) := by
      rw [hpos, width_append, Tiling.width_cons, Tiling.width_nil, Nat.add_zero]
    rw [place, List.filter_cons]
    by_cases hk : keep (pos, f) = true
    · rw [if_pos hk]
      cases k with
      | zero => exact h
      | succ k =>
        rw [List.map_cons, List.take_succ_cons, List.take_succ_cons, cursorAfter_cons _ (pos + f.span) _ _ rfl]
        exact ih hlog' hpos' (h.act hx writable (φ (pos, f))) k
    · rw [if_neg hk]
      have hnone := hkeep (pos, f) (Bool.not_eq_true _ ▸ hk)
      have hfeed := h.feed hx
      unfold ClusterAgent.feed at hfeed
      rw [hnone] at hfeed
      have hrest := ih hlog' hpos' hfeed k
      by_cases hnil : ((place LogFrame.span (pos + f.span) m).filter keep).take k = []
      · rw [← List.map_take, hnil]
        exact h
      · rw [cursorAfter_of_ne hnil pos (pos + f.span)]
        exact hrest

theorem filter_end_place (c head : ℕ) (l : List LogFrame) :
    ∃ m l₃, l = m ++ l₃ ∧
      ((place LogFrame.span c l).filter fun x => x.1 + x.2.span ≤ head) = place LogFrame.span c m := by
  induction l generalizing c with
  | nil => exact ⟨[], [], rfl, rfl⟩
  | cons f l ih =>
    by_cases hend : c + f.span ≤ head
    · obtain ⟨m, l₃, rfl, hm⟩ := ih (c + f.span)
      refine ⟨f :: m, l₃, rfl, ?_⟩
      rw [place, List.filter_cons, if_pos (by simpa using hend), hm, place]
    · refine ⟨[], f :: l, rfl, ?_⟩
      rw [List.filter_eq_nil_iff.mpr]
      · rfl
      · intro x hx
        simp only [decide_eq_true_eq]
        rcases List.mem_cons.mp hx with rfl | hx
        · exact hend
        · have := Tiling.le_of_mem_place hx
          omega

theorem ahead_eq (hedge : H.log.Edge a.cursor) (head : ℕ) :
    ∃ l₁ m l₃, H.log.frames = l₁ ++ (m ++ l₃) ∧ a.cursor = width LogFrame.span l₁ ∧
      a.ahead H.log head = place LogFrame.span a.cursor m := by
  obtain ⟨l₁, l₂, hl, hc⟩ := hedge
  rw [Nat.zero_add] at hc
  obtain ⟨m, l₃, rfl, hm⟩ := filter_end_place a.cursor head l₂
  refine ⟨l₁, m, l₃, hl, hc, ?_⟩
  unfold ahead CommittedLog.placed
  rw [hl, Tiling.place_append, List.filter_append, Nat.zero_add, ← hc, List.filter_eq_nil_iff.mpr,
    List.nil_append,
    ← hm]
  · refine List.filter_congr fun x hx => ?_
    have := Tiling.le_of_mem_place hx
    simp [this]
  · intro x hx
    have hend := Tiling.end_le_of_mem_place hx
    have := x.2.span_pos
    simp only [Bool.and_eq_true, decide_eq_true_eq, not_and]
    omega

theorem At.framesOf (h : At crc H a a.cursor) (p : AgentPass) (b : RingBatch) (k : ℕ) :
    At crc H (a.walkFrames crc p.writable ((a.framesOf H.log p b).take k))
      (cursorAfter a.cursor (((a.framesOf H.log p b).take k).map Prod.fst)) := by
  obtain ⟨l₁, m, l₃, hlog, hpos, hahead⟩ := ahead_eq h.edge p.head
  have hfst : ∀ (xs : List (ℕ × LogFrame)) (φ : ℕ × LogFrame → Bool),
      ((xs.map fun x => (x, φ x)).take k).map Prod.fst = xs.take k := by
    intro xs φ
    rw [List.map_take, List.map_map]
    exact congrArg (List.take k) (List.map_id xs)
  cases b with
  | frames n =>
    simp only [ClusterAgent.framesOf, liveFrames]
    rw [hfst, hahead, List.map_take, List.take_take, List.take_take]
    have hall : ∀ x : ℕ × LogFrame, (fun _ => true) x = false → clusterFrame x = none := nofun
    have hwalk := h.walkFrames p.writable hall (actionable p.learner) hlog hpos (min k n)
    rw [List.filter_eq_self.mpr fun _ _ => rfl] at hwalk
    exact hwalk
  | overrun floor =>
    simp only [ClusterAgent.framesOf]
    by_cases hfloor : floor ≤ a.cursor
    · rw [if_pos hfloor]
      simp only [replayFrames]
      rw [hfst, hahead]
      refine h.walkFrames p.writable (fun x hx => ?_) _ hlog hpos k
      have hpad : x.2.frameType = frameTypePadding := by simpa using hx
      unfold clusterFrame
      rw [hpad, if_neg (by decide), if_neg (by decide)]
    · rw [if_neg hfloor, List.take_nil]
      exact h

theorem le_of_framesOf (a : ClusterAgent) (p : AgentPass) (b : RingBatch) {x : (ℕ × LogFrame) × Bool}
    (hx : x ∈ a.framesOf H.log p b) : a.cursor ≤ x.1.1 := by
  have hahead : ∀ y ∈ a.ahead H.log p.head, a.cursor ≤ y.1 := by
    intro y hy
    have := (List.mem_filter.mp hy).2
    rw [Bool.and_eq_true, decide_eq_true_eq] at this
    exact this.1
  cases b with
  | frames n =>
    obtain ⟨y, hy, rfl⟩ := List.mem_map.mp hx
    exact hahead y (List.mem_of_mem_take hy)
  | overrun floor =>
    simp only [ClusterAgent.framesOf] at hx
    split at hx
    · obtain ⟨y, hy, rfl⟩ := List.mem_map.mp hx
      exact hahead y (List.mem_of_mem_filter hy)
    · cases hx

theorem le_cursorAfter {c : ℕ} {xs : List (ℕ × LogFrame)} (h : ∀ x ∈ xs, c ≤ x.1) : c ≤ cursorAfter c xs := by
  unfold cursorAfter
  cases hlast : xs.getLast? with
  | none => exact Nat.le_refl c
  | some x => exact Nat.le_add_right_of_le (h x (List.mem_of_getLast? hlast))

theorem setConsumed_rowWords (s : ClusterState) (pos : ℕ) : (s.setConsumed pos).rowWords = s.rowWords := by
  unfold ClusterState.setConsumed
  split <;> rfl

theorem walkFrames_rowWords (writable : ℕ → Bool) (a : ClusterAgent) {xs : List ((ℕ × LogFrame) × Bool)}
    (h : appliedAny xs = false) : (a.walkFrames crc writable xs).fsm.rowWords = a.fsm.rowWords := by
  induction xs generalizing a with
  | nil => rfl
  | cons x xs ih =>
    unfold appliedAny at h
    rw [List.any_cons, Bool.or_eq_false_iff] at h
    have hact : (a.act crc writable x.1 x.2).fsm.rowWords = a.fsm.rowWords := by
      have hnone : clusterFrame x.1 = none := Option.isSome_eq_false_iff.mp h.1 |> Option.isNone_iff_eq_none.mp
      unfold act feed
      rw [hnone]
      dsimp only
      split
      · unfold freezeAndWrite
        split
        · exact setConsumed_rowWords _ _
        · split <;> exact setConsumed_rowWords _ _
      · rfl
    rw [← hact]
    exact ih _ h.2

/-- What the loop of a pass does. -/
structure Walked (crc : Bytes → UInt32) (H : ClusterLog) (a b : ClusterAgent) (applied : Bool) : Prop where
  folded : At crc H b b.cursor
  kept : Kept a b
  cursor : a.cursor ≤ b.cursor
  words : applied = false → b.fsm.rowWords = a.fsm.rowWords

theorem At.walkBatch (h : At crc H a a.cursor) (p : AgentPass) (b : RingBatch) :
    Walked crc H a (a.walkBatch crc H.log p b) (appliedAny (a.framesOf H.log p b)) := by
  have hat := h.framesOf p b (a.framesOf H.log p b).length
  rw [List.take_length] at hat
  have hkept : Kept a (a.walkFrames crc p.writable (a.framesOf H.log p b)) := walkFrames_kept p.writable a _
  refine ⟨⟨hat.edge, hat.folded, hat.tag, hat.base, hat.fed, hat.disk, hat.wrote⟩,
    ⟨hkept.page, hkept.up, hkept.base⟩, ?_, walkFrames_rowWords p.writable a⟩
  refine le_cursorAfter fun x hx => ?_
  obtain ⟨y, hy, rfl⟩ := List.mem_map.mp hx
  exact le_of_framesOf a p b hy

theorem At.walkLoop (p : AgentPass) (batches : List RingBatch) (h : At crc H a a.cursor) :
    Walked crc H a (ClusterAgent.walkLoop crc H.log p batches a).1
      (ClusterAgent.walkLoop crc H.log p batches a).2 := by
  induction batches generalizing a with
  | nil => exact ⟨h, ⟨rfl, rfl, rfl⟩, le_rfl, fun _ => rfl⟩
  | cons b rest ih =>
    cases b with
    | overrun floor => exact h.walkBatch p (.overrun floor)
    | frames n =>
      rw [ClusterAgent.walkLoop]
      by_cases hhead : p.head ≤ a.cursor
      · rw [if_pos hhead]
        exact ⟨h, ⟨rfl, rfl, rfl⟩, le_rfl, fun _ => rfl⟩
      · rw [if_neg hhead]
        have hbatch := h.walkBatch p (.frames n)
        dsimp only
        split
        · exact hbatch
        · have hrest := ih hbatch.folded
          refine ⟨hrest.folded, hbatch.kept.trans hrest.kept, hbatch.cursor.trans hrest.cursor,
            fun hnone => ?_⟩
          rw [Bool.or_eq_false_iff] at hnone
          exact (hrest.words hnone.2).trans (hbatch.words hnone.1)

end ClusterAgent

/-! ## The words on the page -/

namespace PageWrite

/-- The position that a word stands for. -/
def position : PageWrite → Option ℕ
  | rows _ => none
  | clusterApplied p => some p
  | consumed p => some p

def words : PageWrite → Option (Row → RowRead)
  | rows v => some v
  | _ => none

/-- The words of the rows after these stores. -/
def lastRows (page : List PageWrite) : Option (Row → RowRead) := (page.filterMap words).getLast?

end PageWrite

namespace ClusterLog

variable (H : ClusterLog)

/-- The words are of the fold up to the position at least. -/
def Reflects (v : Row → RowRead) (p : ℕ) : Prop := ∃ q, p ≤ q ∧ H.log.Edge q ∧ v = (H.stateAt q).rowWords

/-- Who reads a position, and then the words of the rows, has words that reflect it. -/
def Published (page : List PageWrite) : Prop :=
  ∀ pre w post p, page = pre ++ w :: post → w.position = some p →
    (∃ v, PageWrite.lastRows pre = some v ∧ H.Reflects v p) ∧ ∀ v, .rows v ∈ post → H.Reflects v p

variable {H} {page : List PageWrite} {pos : ℕ}

theorem published_snoc {w : PageWrite} (h : H.Published page)
    (hrows : ∀ v, w = .rows v → ∀ u ∈ page, ∀ p, u.position = some p → H.Reflects v p)
    (hword : ∀ p, w.position = some p → ∃ v, PageWrite.lastRows page = some v ∧ H.Reflects v p) :
    H.Published (page ++ [w]) := by
  intro pre u post p hpage hp
  rcases List.eq_nil_or_concat post with rfl | ⟨post, w', rfl⟩
  · obtain ⟨rfl, hw⟩ := List.append_inj' hpage rfl
    cases hw
    exact ⟨hword p hp, nofun⟩
  · rw [List.concat_eq_append, ← List.cons_append, ← List.append_assoc] at hpage
    obtain ⟨rfl, hw⟩ := List.append_inj' hpage rfl
    cases hw
    obtain ⟨hlast, hlater⟩ := h pre u post p rfl hp
    refine ⟨hlast, fun v hv => ?_⟩
    rw [List.concat_eq_append] at hv
    rcases List.mem_append.mp hv with hv | hv
    · exact hlater v hv
    · exact hrows v (List.mem_singleton.mp hv).symm u (List.mem_append_right _ List.mem_cons_self) p hp

end ClusterLog

namespace ClusterAgent

variable {crc : Bytes → UInt32} {H : ClusterLog} {a : ClusterAgent}

/-- Between two passes. -/
structure Steady (crc : Bytes → UInt32) (H : ClusterLog) (a : ClusterAgent) : Prop where
  folded : At crc H a a.cursor
  state : a.fsm = H.stateAt a.cursor
  published : H.Published a.page
  words : PageWrite.lastRows a.page = some a.fsm.rowWords
  positions : ∀ w ∈ a.page, ∀ p, w.position = some p → p ≤ a.cursor

/-- The words of the rows, and where they stand. -/
structure Shown (H : ClusterLog) (a : ClusterAgent) (page : List PageWrite) : Prop where
  published : H.Published page
  words : PageWrite.lastRows page = some a.fsm.rowWords
  positions : ∀ w ∈ page, ∀ p, w.position = some p → p ≤ a.cursor

theorem Shown.rows (hfold : At crc H a a.cursor) {page : List PageWrite} (hpub : H.Published page)
    (hpos : ∀ w ∈ page, ∀ p, w.position = some p → p ≤ a.cursor) :
    Shown H a (page ++ [.rows a.fsm.rowWords]) := by
  have hwords : a.fsm.rowWords = (H.stateAt a.cursor).rowWords := by
    rw [← hfold.folded]
    rfl
  refine ⟨ClusterLog.published_snoc hpub ?_ nofun, ?_, ?_⟩
  · intro v hv u hu p hp
    cases hv
    exact ⟨a.cursor, hpos u hu p hp, hfold.edge, hwords⟩
  · simp [PageWrite.lastRows, PageWrite.words]
  · intro w hw p hp
    rcases List.mem_snoc.mp hw with hw | rfl
    · exact hpos w hw p hp
    · cases hp

theorem Shown.word (hfold : At crc H a a.cursor) {page : List PageWrite} (h : Shown H a page) {w : PageWrite}
    (hw : w.position = some a.cursor) (hnone : w.words = none) : Shown H a (page ++ [w]) := by
  have hwords : a.fsm.rowWords = (H.stateAt a.cursor).rowWords := by
    rw [← hfold.folded]
    rfl
  refine ⟨ClusterLog.published_snoc h.published ?_ ?_, ?_, ?_⟩
  · rintro v rfl
    cases hnone
  · intro p hp
    obtain rfl := Option.some.inj (hw.symm.trans hp)
    exact ⟨_, h.words, a.cursor, le_rfl, hfold.edge, hwords⟩
  · have hlast := h.words
    unfold PageWrite.lastRows at hlast ⊢
    rw [List.filterMap_append, List.filterMap_cons_none hnone, List.filterMap_nil, List.append_nil, hlast]
  · intro u hu p hp
    rcases List.mem_snoc.mp hu with hu | rfl
    · exact h.positions u hu p hp
    · exact (Option.some.inj (hw.symm.trans hp)).ge

theorem published_nil : H.Published [] := by
  intro pre w post p h
  simp at h

theorem steady_start {pos : ℕ} (hedge : H.log.Edge pos) (hfsm : a.fsm = H.stateAt pos)
    (hcursor : a.cursor = pos)
    (hbase : a.base = pos) (hfed : a.fed = []) (hdisk : ∀ x ∈ a.disk, H.Sound crc x)
    (hwrote : ∀ x ∈ a.wrote, H.Sound crc x) (hpub : H.Published a.page)
    (hpos : ∀ w ∈ a.page, ∀ p, w.position = some p → p ≤ pos) :
    Steady crc H a.publishView.storeClusterApplied := by
  subst hcursor
  have hat : At crc H a a.cursor := by
    refine ⟨hedge, ?_, ?_, hbase.le, ?_, hdisk, hwrote⟩
    · rw [hfsm]
      rfl
    · rw [hfsm]
      exact le_rfl
    · rw [hfed, hbase, ClusterLog.framesBetween_self]
  have hword : (PageWrite.clusterApplied a.fsm.applied).position = some a.cursor := by
    rw [hfsm]
    rfl
  have hshown := (Shown.rows hat hpub hpos).word hat hword rfl
  exact ⟨⟨hat.edge, hat.folded, hat.tag, hat.base, hat.fed, hat.disk, hat.wrote⟩, hfsm, hshown.published,
    hshown.words, hshown.positions⟩

variable {disk : List (ℕ × Bytes)}

theorem newest_mem {x : ℕ × Bytes} (h : newest disk = some x) : x ∈ disk := by
  have hgen : ∀ (disk : List (ℕ × Bytes)) (best : Option (ℕ × Bytes)),
      disk.foldl (fun best x => if best.all (·.1 < x.1) then some x else best) best = some x →
        best = some x ∨ x ∈ disk := by
    intro disk
    induction disk with
    | nil => exact fun best h => .inl h
    | cons y disk ih =>
      intro best h
      rcases ih _ h with hbest | hmem
      · dsimp only at hbest
        split at hbest
        · obtain rfl := Option.some.inj hbest
          exact .inr List.mem_cons_self
        · exact .inl hbest
      · exact .inr (List.mem_cons_of_mem y hmem)
  rcases hgen disk none h with h | h
  · cases h
  · exact h

theorem newest_isSome (h : disk ≠ []) : newest disk ≠ none := by
  have hgen : ∀ (disk : List (ℕ × Bytes)) (y : ℕ × Bytes),
      disk.foldl (fun best x => if best.all (·.1 < x.1) then some x else best) (some y) ≠ none := by
    intro disk
    induction disk with
    | nil => exact fun y => Option.some_ne_none y
    | cons x disk ih =>
      intro y
      rw [List.foldl_cons]
      split
      · exact ih x
      · exact ih y
  cases disk with
  | nil => exact absurd rfl h
  | cons x disk => exact hgen disk x

/-- The artifacts of a node, with its state where it runs. -/
structure Sane (crc : Bytes → UInt32) (H : ClusterLog) (a : ClusterAgent) : Prop where
  disk : ∀ x ∈ a.disk, H.Sound crc x
  wrote : ∀ x ∈ a.wrote, H.Sound crc x
  steady : a.up = true → Steady crc H a

theorem Steady.sane (h : Steady crc H a) : Sane crc H a := ⟨h.folded.disk, h.folded.wrote, fun _ => h⟩

theorem stateAt_zero (H : ClusterLog) : ClusterState.genesis H.membership H.settings = H.stateAt 0 := by
  have hnone : H.framesTo 0 = [] := by
    unfold ClusterLog.framesTo below
    rw [List.filter_eq_nil_iff.mpr, List.filterMap_nil]
    intro x _
    simp
  unfold ClusterLog.stateAt ClusterLog.walked
  rw [hnone]
  rfl

theorem Sane.boot (h : Sane crc H a) {m : ClusterConfig} {g : Settings}
    (hseed : a.disk = [] → m = H.membership ∧ g = H.settings) : Sane crc H (a.boot crc m g) := by
  unfold ClusterAgent.boot
  cases hnew : newest a.disk with
  | none =>
    have hdisk : a.disk = [] := by
      by_contra hne
      exact newest_isSome hne hnew
    obtain ⟨rfl, rfl⟩ := hseed hdisk
    refine Steady.sane (steady_start Tiling.edge_base (stateAt_zero H) rfl rfl rfl h.disk h.wrote
      published_nil nofun)
  | some x =>
    obtain ⟨pos, img⟩ := x
    have hsound := h.disk _ (newest_mem hnew)
    have hread : readImage crc pos img = .ok (H.stateAt pos) := hsound.readImage
    dsimp only
    rw [hread]
    exact Steady.sane (steady_start hsound.1 rfl rfl rfl rfl h.disk h.wrote published_nil nofun)

theorem Sane.installFrom (h : Sane crc H a) (position : ℕ) : Sane crc H (a.installFrom crc position) := by
  unfold ClusterAgent.installFrom
  split
  · exact h
  next hpos =>
  cases hfind : a.disk.find? (·.1 = position) with
  | none => exact ⟨h.disk, h.wrote, nofun⟩
  | some x =>
    obtain ⟨pos, img⟩ := x
    have hx : pos = position := by simpa using List.find?_some hfind
    have hsound := h.disk _ (List.mem_of_find?_eq_some hfind)
    have hread : readImage crc pos img = .ok (H.stateAt pos) := hsound.readImage
    subst hx
    dsimp only
    rw [hread]
    refine ⟨h.disk, h.wrote, fun hup => ?_⟩
    have hsteady := h.steady hup
    have hle : a.cursor ≤ pos := by
      rw [hsteady.state] at hpos
      exact Nat.le_of_not_le hpos
    let b : ClusterAgent := { a with
      fsm := H.stateAt pos, snapshotPos := pos, cursor := pos, base := pos, fed := [] }
    have hstart : Steady crc H b.publishView.storeClusterApplied :=
      steady_start hsound.1 rfl rfl rfl rfl h.disk h.wrote hsteady.published fun w hw p hp =>
        (hsteady.positions w hw p hp).trans hle
    exact hstart

theorem Sane.installs (h : Sane crc H a) (ps : List ℕ) :
    Sane crc H (ps.foldl (ClusterAgent.installFrom crc) a) := by
  induction ps generalizing a with
  | nil => exact h
  | cons p ps ih => exact ih (h.installFrom p)

theorem Sane.doWork (h : Sane crc H a) (p : AgentPass) : Sane crc H (a.doWork crc H.log p) := by
  unfold ClusterAgent.doWork
  have hinst := h.installs p.installs
  generalize p.installs.foldl (ClusterAgent.installFrom crc) a = b at hinst ⊢
  by_cases hup : b.up = true
  · rw [if_neg (by rw [hup]; decide)]
    have hsteady := hinst.steady hup
    have hwalk := hsteady.folded.walkLoop p p.batches
    generalize ClusterAgent.walkLoop crc H.log p p.batches b = res at hwalk ⊢
    obtain ⟨c, applied⟩ := res
    dsimp only at hwalk ⊢
    have hstate : c.fsm.setConsumed c.cursor = H.stateAt c.cursor := hwalk.folded.setConsumed
    let d : ClusterAgent := { c with fsm := c.fsm.setConsumed c.cursor }
    have hat : At crc H d d.cursor := by
      refine { hwalk.folded with folded := ?_, tag := ?_ }
      · show (c.fsm.setConsumed c.cursor).tagged c.cursor = _
        rw [hstate]
        rfl
      · show (c.fsm.setConsumed c.cursor).applied ≤ c.cursor
        rw [hstate]
        exact le_rfl
    have hpub : H.Published d.page := by
      rw [hwalk.kept.page]
      exact hsteady.published
    have hpositions : ∀ w ∈ d.page, ∀ q, w.position = some q → q ≤ d.cursor := by
      intro w hw q hq
      have hw' : w ∈ b.page := hwalk.kept.page ▸ hw
      exact (hsteady.positions w hw' q hq).trans hwalk.cursor
    have htag : d.fsm.applied = d.cursor := by
      show (c.fsm.setConsumed c.cursor).applied = c.cursor
      rw [hstate]
      rfl
    have happliedWord : (PageWrite.clusterApplied d.fsm.applied).position = some d.cursor := by
      rw [htag]
      rfl
    have hconsumedWord : (PageWrite.consumed d.fsm.applied).position = some d.cursor := by
      rw [htag]
      rfl
    have hdone : ∀ page, Shown H d page → Steady crc H { d with page } := fun page hs =>
      ⟨⟨hat.edge, hat.folded, hat.tag, hat.base, hat.fed, hat.disk, hat.wrote⟩, hstate, hs.published, hs.words,
        hs.positions⟩
    cases applied with
    | true =>
      have hshown := ((Shown.rows hat hpub hpositions).word hat happliedWord rfl).word hat hconsumedWord rfl
      exact (hdone _ hshown).sane
    | false =>
      have hsame : Shown H d d.page := by
        refine ⟨hpub, ?_, hpositions⟩
        rw [hwalk.kept.page, hsteady.words, setConsumed_rowWords, hwalk.words rfl]
      exact (hdone _ (hsame.word hat hconsumedWord rfl)).sane
  · rw [if_pos (by simpa using hup)]
    exact hinst

theorem Sane.withDisk (h : Sane crc H a) (hdisk : ∀ x ∈ disk, H.Sound crc x) :
    Sane crc H { a with disk } := by
  refine ⟨hdisk, h.wrote, fun hup => ?_⟩
  have hst := h.steady hup
  exact { hst with folded := { hst.folded with disk := hdisk } }

theorem Sane.die (h : Sane crc H a) (p : AgentPass) (last : RingBatch) (k : ℕ) :
    Sane crc H (a.die crc H.log p last k) := by
  unfold ClusterAgent.die
  have hinst := h.installs p.installs
  generalize p.installs.foldl (ClusterAgent.installFrom crc) a = b at hinst ⊢
  by_cases hup : b.up = true
  · rw [if_neg (by rw [hup]; decide)]
    have hwalk := (hinst.steady hup).folded.walkLoop p p.batches
    have hlast := hwalk.folded.framesOf p last k
    exact ⟨hlast.disk, hlast.wrote, nofun⟩
  · rw [if_pos (by simpa using hup)]
    exact hinst

end ClusterAgent

/-! ## Every run -/

namespace AgentWorld

variable (crc : Bytes → UInt32) (H : ClusterLog)

/-- A node that has no artifact starts from the genesis of the log. -/
def Seeded (w : AgentWorld) : ClusterAgentStep → Prop
  | .boot n membership settings =>
    (w.agents n).disk = [] → membership = H.membership ∧ settings = H.settings
  | _ => True

variable {crc H} {w : AgentWorld}

theorem sane_set {P : ClusterAgent → Prop} (h : ∀ n, P (w.agents n)) {n : ℕ} {a : ClusterAgent}
    (ha : P a) (m : ℕ) :
    P ((w.set n a).agents m) := by
  by_cases hm : m = n
  · subst hm
    simp only [AgentWorld.set, Function.update_self]
    exact ha
  · simp only [AgentWorld.set, Function.update_of_ne hm]
    exact h m

theorem sane_exec (h : ∀ n, ClusterAgent.Sane crc H (w.agents n)) {step : ClusterAgentStep}
    (hp : w.Possible step) (hs : w.Seeded H step) (m : ℕ) :
    ClusterAgent.Sane crc H ((w.exec crc H.log step).agents m) := by
  cases step with
  | boot n membership settings => exact sane_set h ((h n).boot hs) m
  | doWork n p => exact sane_set h ((h n).doWork p) m
  | die n p last k => exact sane_set h ((h n).die p last k) m
  | receive n position img =>
    obtain ⟨src, hsrc⟩ := hp
    have hdisk : ∀ x ∈ (position, img) :: (w.agents n).disk.filter (·.1 ≠ position), H.Sound crc x := by
      intro x hx
      rcases List.mem_cons.mp hx with rfl | hx
      · exact (h src).wrote _ hsrc
      · exact (h n).disk x (List.mem_of_mem_filter hx)
    exact sane_set h ((h n).withDisk hdisk) m
  | prune n keep =>
    have hdisk : ∀ x ∈ (w.agents n).disk.filter fun x => keep x.1, H.Sound crc x := fun x hx =>
      (h n).disk x (List.mem_of_mem_filter hx)
    exact sane_set h ((h n).withDisk hdisk) m

/-- In every run in which a node without an artifact starts from the genesis of the
    log: the FSM of a node was given the frames of the committed log since its image,
    each once and in order, and is the fold up to the cursor; every artifact is the
    image of the fold up to its position, so that two of one position are the same;
    and the words of the rows reflect every position that can be read before them. -/
theorem folds_committed_log (s₀ : ClusterState) {steps : List ClusterAgentStep}
    (h : Trace.Admits (exec crc H.log) Possible (fresh s₀) steps)
    (hs : Trace.Admits (exec crc H.log) (Seeded H) (fresh s₀) steps) :
    let w := run crc H.log (fresh s₀) steps
    (∀ n, (w.agents n).up = true → (w.agents n).base ≤ (w.agents n).cursor ∧
      (w.agents n).fed = H.framesBetween (w.agents n).base (w.agents n).cursor ∧
      (w.agents n).fsm = H.stateAt (w.agents n).cursor) ∧
    (∀ n x, x ∈ (w.agents n).wrote ∨ x ∈ (w.agents n).disk → (H.stateAt x.1).freeze crc = .ok (x.2, x.1)) ∧
    (∀ n m pos img img', (pos, img) ∈ (w.agents n).wrote → (pos, img') ∈ (w.agents m).wrote → img = img') ∧
    ∀ n, (w.agents n).up = true → H.Published (w.agents n).page := by
  have hsane : ∀ n, ClusterAgent.Sane crc H ((run crc H.log (fresh s₀) steps).agents n) := by
    refine Trace.Admits.rule
      (P := fun steps => ∀ n, ClusterAgent.Sane crc H ((run crc H.log (fresh s₀) steps).agents n))
      (fun n => ⟨nofun, nofun, nofun⟩) (fun steps step ih hok n => ?_) (h.both hs)
    rw [run, List.foldl_append]
    exact sane_exec ih hok.1 hok.2 n
  intro w
  have hsound : ∀ n x, x ∈ (w.agents n).wrote ∨ x ∈ (w.agents n).disk → H.Sound crc x := fun n x hx =>
    hx.elim ((hsane n).wrote x) ((hsane n).disk x)
  refine ⟨fun n hup => ?_, fun n x hx => (hsound n x hx).2, fun n m pos img img' hn hm => ?_, fun n hup => ?_⟩
  · have hst := (hsane n).steady hup
    exact ⟨hst.folded.base, hst.folded.fed, hst.state⟩
  · have h₁ := (hsound n _ (.inl hn)).2
    have h₂ := (hsound m _ (.inl hm)).2
    have heq := h₁.symm.trans h₂
    rw [Except.ok.injEq, Prod.mk.injEq] at heq
    exact heq.1
  · exact ((hsane n).steady hup).published

/-- The membership at genesis, and after a change. -/
def oneVoter : ClusterConfig := ClusterConfig.genesis [(1, 0, 0)] []

def withLearner : ClusterConfig := { oneVoter with version := 1, learners := [(2, 0, 2)] }

/-- A snapshot instant, and then the change. -/
def instantAndChange : CommittedLog :=
  ⟨[⟨frameTypeSnapshot, 0, 1, 0, 0, 5, []⟩,
    ⟨frameTypeCluster, 0, 1, 0, 0, 6, (ClusterCommand.membership withLearner).body⟩], by decide +kernel⟩

def oneVoterLog : ClusterLog where
  log := instantAndChange
  membership := oneVoter
  settings := Settings.genesisDefault
  membershipFits := by
    refine ⟨by decide, by decide, by decide, ?_, nofun, nofun⟩
    intro member hmember
    rw [List.mem_singleton.mp hmember]
    unfold memberFits
    decide
  settingsFits := by constructor <;> decide
  times := by decide

/-- The commit has come to the end of the instant. -/
def atInstant : AgentPass := ⟨[], 32, false, fun _ => true, [.frames 8]⟩

/-- Node 1 reaches the instant; node 2 restarts before it does, with this membership on
    record. -/
def restartBelow (recorded : ClusterConfig) : List ClusterAgentStep :=
  [.boot 1 oneVoter .genesisDefault, .doWork 1 atInstant, .boot 2 oneVoter .genesisDefault,
    .boot 2 recorded .genesisDefault, .doWork 2 atInstant]

def afterRestart (recorded : ClusterConfig) : AgentWorld :=
  run Crc32.hash instantAndChange (fresh (.genesis oneVoter .genesisDefault)) (restartBelow recorded)

theorem restartBelow_possible (recorded : ClusterConfig)
    (h : ((run Crc32.hash instantAndChange (fresh (.genesis oneVoter .genesisDefault))
      ((restartBelow recorded).take 4)).agents 2).up = true) :
    Trace.Admits (exec Crc32.hash instantAndChange) Possible (fresh (.genesis oneVoter .genesisDefault))
      (restartBelow recorded) :=
  ⟨trivial, rfl, trivial, trivial, h, trivial⟩

theorem folds_committed_log_restart :
    (Trace.Admits (exec Crc32.hash oneVoterLog.log) Possible (fresh (.genesis oneVoter .genesisDefault))
        (restartBelow oneVoter) ∧
      Trace.Admits (exec Crc32.hash oneVoterLog.log) (Seeded oneVoterLog)
        (fresh (.genesis oneVoter .genesisDefault))
        (restartBelow oneVoter)) ∧
      ((afterRestart oneVoter).agents 2).wrote.map Prod.fst = [32] ∧
      oneVoterLog.Published ((afterRestart oneVoter).agents 2).page := by
  have h := restartBelow_possible oneVoter rfl
  have hs : Trace.Admits (exec Crc32.hash oneVoterLog.log) (Seeded oneVoterLog)
      (fresh (.genesis oneVoter .genesisDefault)) (restartBelow oneVoter) :=
    ⟨fun _ => ⟨rfl, rfl⟩, trivial, fun _ => ⟨rfl, rfl⟩, fun _ => ⟨rfl, rfl⟩, trivial, trivial⟩
  have hup : ((afterRestart oneVoter).agents 2).up = true := by decide +kernel
  exact ⟨⟨h, hs⟩, by decide +kernel, (folds_committed_log _ h hs).2.2.2 2 hup⟩

/-- A node that adopted the change, and restarts before its first artifact, writes
    another image for the same instant. -/
theorem artifacts_differ :
    Trace.Admits (exec Crc32.hash instantAndChange) Possible (fresh (.genesis oneVoter .genesisDefault))
        (restartBelow withLearner) ∧
      ∃ img img', (32, img) ∈ ((afterRestart withLearner).agents 1).wrote ∧
        (32, img') ∈ ((afterRestart withLearner).agents 2).wrote ∧ img ≠ img' := by
  refine ⟨restartBelow_possible withLearner rfl, ?_⟩
  have hone : ((afterRestart withLearner).agents 1).wrote.map Prod.fst = [32] := by decide +kernel
  have htwo : ((afterRestart withLearner).agents 2).wrote.map Prod.fst = [32] := by decide +kernel
  have hne : ((afterRestart withLearner).agents 1).wrote ≠ ((afterRestart withLearner).agents 2).wrote := by
    decide +kernel
  obtain ⟨⟨pos, img⟩, hw₁, rfl⟩ := List.map_eq_singleton_iff.mp hone
  obtain ⟨⟨pos', img'⟩, hw₂, hpos⟩ := List.map_eq_singleton_iff.mp htwo
  obtain rfl : pos' = 32 := hpos
  rw [hw₁, hw₂] at hne ⊢
  refine ⟨img, img', List.mem_singleton_self _, List.mem_singleton_self _, fun heq => hne ?_⟩
  rw [heq]

end AgentWorld

end UltimaCluster
