/-
  The two folds over a log: the FSM's, which takes the next version only, and the kernel's,
  which takes any higher one.

  Where every membership frame of a log is the next version or a repeat (`Chain`), both
  reach the same config (`adoptedFrom_eq`).  `Tracks` is what a kernel's record says of the
  log that it observed, and it lasts through observations, cuts and boots.
-/
import UltimaCluster.KernelView

namespace UltimaCluster.KernelView

variable {g c d : ClusterConfig} {l l' p q r' : List LogItem} {e : LogItem} {kept : ClusterConfig × ℕ}
  {r : ConfigRecord}

/-! ## Positions -/

@[simp] theorem logEnd_nil : logEnd [] = 0 := rfl

@[simp] theorem logEnd_append : logEnd (l ++ l') = logEnd l + logEnd l' := by simp [logEnd]

@[simp] theorem logEnd_cons : logEnd (e :: l) = e.length + logEnd l := by simp [logEnd]

theorem logEnd_le (h : p <+: l) : logEnd p ≤ logEnd l := by
  obtain ⟨s, rfl⟩ := h
  simp

theorem framesFrom_append (a : ℕ) :
    framesFrom a (l ++ l') = framesFrom a l ++ framesFrom (a + logEnd l) l' := by
  induction l generalizing a with
  | nil => simp [framesFrom]
  | cons e l ih => simp [framesFrom, ih, Nat.add_assoc]

theorem framesFrom_concat (a : ℕ) :
    framesFrom a (l ++ [e]) = framesFrom a l ++ (e.frameAt (a + logEnd l)).toList := by
  simp [framesFrom_append, framesFrom]

def Positive (l : List LogItem) : Prop := ∀ e ∈ l, 0 < e.length

theorem Positive.restrict (h : Positive l) (hp : p <+: l) : Positive p :=
  fun e he => h e (hp.subset he)

theorem Positive.concat (h : Positive l) (he : 0 < e.length) : Positive (l ++ [e]) := by
  refine List.forall_mem_snoc h ?_
  exact he

theorem Positive.prefix_of_le (h : Positive l) (hp : p <+: l) (hq : q <+: l)
    (hle : logEnd p ≤ logEnd q) : p <+: q := by
  rcases List.prefix_or_prefix_of_prefix hp hq with hpq | hqp
  · exact hpq
  · obtain ⟨s, rfl⟩ := hqp
    cases s with
    | nil => simp
    | cons e s =>
      have hpos := h e (hp.subset (by simp))
      rw [logEnd_append, logEnd_cons] at hle
      omega

theorem Positive.eq_of_logEnd (h : Positive l) (hp : p <+: l) (hq : q <+: l)
    (heq : logEnd p = logEnd q) : p = q :=
  (h.prefix_of_le hp hq heq.le).eq_of_length_le (h.prefix_of_le hq hp heq.ge).length_le

theorem Positive.eq_nil (h : Positive l) (h0 : logEnd l = 0) : l = [] :=
  h.eq_of_logEnd (List.prefix_refl l) (List.nil_prefix) h0

theorem itemAt_append (h : Positive q) : itemAt (q ++ l) (logEnd q) = itemAt l 0 := by
  induction q with
  | nil => rfl
  | cons e q ih =>
    have hpos := h e (by simp)
    have hrest := ih fun x hx => h x (by simp [hx])
    rw [List.cons_append, logEnd_cons, itemAt, if_neg (by omega), if_pos (by omega),
      Nat.add_sub_cancel_left, hrest]

theorem itemAt_iff (h : Positive l) (hq : q <+: l) : itemAt l (logEnd q) = some e ↔ q ++ [e] <+: l := by
  obtain ⟨s, rfl⟩ := hq
  rw [itemAt_append (h.restrict (List.prefix_append q s))]
  cases s with
  | nil =>
    refine iff_of_false (by simp [itemAt]) ?_
    intro hle
    simpa using hle.length_le
  | cons x s =>
    rw [itemAt, if_pos rfl, Option.some.injEq, List.prefix_append_right_inj]
    simp [eq_comm]

/-! ## The fold of the FSM -/

theorem membershipOf_append : membershipOf g (l ++ l') = membershipOf (membershipOf g l) l' := by
  simp [membershipOf]

@[simp] theorem membershipOf_concat : membershipOf g (l ++ [e]) = feed (membershipOf g l) e := by
  simp [membershipOf]

theorem feed_of_none (h : e.config? = none) : feed c e = c := by simp [feed, h]

theorem feed_of_some (h : e.config? = some d) : feed c e = acceptMembership c d := by simp [feed, h]

theorem le_feed : c.version ≤ (feed c e).version := by
  cases h : e.config? with
  | none => rw [feed_of_none h]
  | some d =>
    rw [feed_of_some h, acceptMembership]
    split
    · omega
    · exact le_rfl

theorem le_membershipOf : g.version ≤ (membershipOf g l).version := by
  induction l using List.reverseRecOn with
  | nil => exact le_rfl
  | append_singleton l e ih =>
    rw [membershipOf_concat]
    exact ih.trans le_feed

theorem membershipOf_mono (h : p <+: l) : (membershipOf g p).version ≤ (membershipOf g l).version := by
  obtain ⟨s, rfl⟩ := h
  rw [membershipOf_append]
  exact le_membershipOf

/-- Every membership frame is the next version, or repeats one. -/
def Chain : ClusterConfig → List LogItem → Prop
  | _, [] => True
  | c, e :: l => (∀ d ∈ e.config?, d.version ≤ c.version + 1) ∧ Chain (feed c e) l

theorem chain_append : Chain g (l ++ l') ↔ Chain g l ∧ Chain (membershipOf g l) l' := by
  induction l generalizing g with
  | nil => simp [Chain, membershipOf]
  | cons e l ih =>
    rw [List.cons_append, Chain, Chain, ih, and_assoc]
    rfl

theorem chain_concat : Chain g (l ++ [e]) ↔
    Chain g l ∧ ∀ d ∈ e.config?, d.version ≤ (membershipOf g l).version + 1 := by
  simp [chain_append, Chain]

theorem Chain.restrict (h : Chain g l) (hp : p <+: l) : Chain g p := by
  obtain ⟨s, rfl⟩ := hp
  exact (chain_append.mp h).1

theorem feed_version (h : ∀ d ∈ e.config?, d.version ≤ c.version + 1) (hd : d ∈ e.config?) :
    d.version ≤ (feed c e).version := by
  have hle := h d hd
  rw [feed_of_some hd, acceptMembership]
  split
  · exact le_rfl
  · omega

theorem Chain.version_le (h : Chain g l) (he : e ∈ l) (hd : d ∈ e.config?) :
    d.version ≤ (membershipOf g l).version := by
  obtain ⟨a, b, rfl⟩ := List.append_of_mem he
  obtain ⟨-, hb⟩ := chain_append.mp h
  rw [membershipOf_append]
  exact (feed_version hb.1 hd).trans (membershipOf_mono (g := feed _ e) (List.nil_prefix))

theorem Chain.reaches (h : Chain g l) {v : ℕ} (hlow : g.version < v)
    (hhigh : v ≤ (membershipOf g l).version) : ∃ q, q <+: l ∧ (membershipOf g q).version = v := by
  induction l using List.reverseRecOn with
  | nil => exact absurd (hlow.trans_le hhigh) (lt_irrefl _)
  | append_singleton l e ih =>
    obtain ⟨hl, he⟩ := chain_concat.mp h
    by_cases hv : v ≤ (membershipOf g l).version
    · obtain ⟨q, hq, hqv⟩ := ih hl hv
      exact ⟨q, hq.trans (List.prefix_append l [e]), hqv⟩
    · refine ⟨l ++ [e], List.prefix_refl _, le_antisymm ?_ hhigh⟩
      rw [membershipOf_concat]
      cases hc : e.config? with
      | none =>
        rw [feed_of_none hc]
        omega
      | some d =>
        rw [feed_of_some hc, acceptMembership]
        split <;> omega

/-- A log that the two folds agree on. -/
structure LogOk (g : ClusterConfig) (l : List LogItem) : Prop where
  chain : Chain g l
  positive : Positive l

theorem LogOk.nil : LogOk g [] := ⟨trivial, fun _ h => nomatch h⟩

theorem LogOk.restrict (h : LogOk g l) (hp : p <+: l) : LogOk g p :=
  ⟨h.chain.restrict hp, h.positive.restrict hp⟩

theorem LogOk.concat (h : LogOk g l) (hlen : 0 < e.length)
    (hv : ∀ d ∈ e.config?, d.version ≤ (membershipOf g l).version + 1) : LogOk g (l ++ [e]) :=
  ⟨chain_concat.mpr ⟨h.chain, hv⟩, h.positive.concat hlen⟩

/-! ## The fold of the kernel -/

/-- One frame, behind the version gate. -/
def take (c : ClusterConfig × ℕ) (f : MembershipFrame) : ClusterConfig × ℕ :=
  if f.config.version ≤ c.1.version then c else (f.config, f.frameEnd)

/-- The config with its position that the kernel reaches over a log, from what it kept. -/
def adoptedFrom (kept : ClusterConfig × ℕ) (l : List LogItem) : ClusterConfig × ℕ :=
  (framesFrom 0 l).foldl take kept

@[simp] theorem adoptedFrom_nil : adoptedFrom kept [] = kept := rfl

theorem adoptedFrom_concat : adoptedFrom kept (l ++ [e]) =
    (e.frameAt (logEnd l)).elim (adoptedFrom kept l) (take (adoptedFrom kept l)) := by
  rw [adoptedFrom, framesFrom_concat, List.foldl_append, Nat.zero_add]
  cases e.frameAt (logEnd l) <;> rfl

theorem adoptedFrom_concat_none (h : e.config? = none) :
    adoptedFrom kept (l ++ [e]) = adoptedFrom kept l := by
  rw [adoptedFrom_concat, LogItem.frameAt, h]
  rfl

theorem adoptedFrom_concat_some (h : e.config? = some d) :
    adoptedFrom kept (l ++ [e]) = take (adoptedFrom kept l) ⟨logEnd l, e.length, d⟩ := by
  rw [adoptedFrom_concat, LogItem.frameAt, h]
  rfl

theorem adoptedFrom_stale (h : ∀ e ∈ l, ∀ d ∈ e.config?, d.version ≤ kept.1.version) :
    adoptedFrom kept l = kept := by
  induction l using List.reverseRecOn with
  | nil => rfl
  | append_singleton l e ih =>
    have hl := ih fun x hx => h x (by simp [hx])
    cases hc : e.config? with
    | none => rw [adoptedFrom_concat_none hc, hl]
    | some d => rw [adoptedFrom_concat_some hc, hl, take, if_pos (h e (by simp) d hc)]

theorem adoptedFrom_of_le (h : Chain g l) (hle : (membershipOf g l).version ≤ kept.1.version) :
    adoptedFrom kept l = kept :=
  adoptedFrom_stale fun _ he _ hd => (h.version_le he hd).trans hle

/-- Started from what the FSM makes of some part of it, the kernel ends where the FSM does. -/
theorem adoptedFrom_eq (h : Chain g l) (hq : q <+: l) (hkept : kept.1 = membershipOf g q) :
    (adoptedFrom kept l).1 = membershipOf g l := by
  obtain ⟨s, rfl⟩ := hq
  induction s using List.reverseRecOn with
  | nil =>
    rw [List.append_nil] at h ⊢
    rw [adoptedFrom_of_le h (by rw [hkept]), hkept]
  | append_singleton s e ih =>
    rw [← List.append_assoc] at h ⊢
    obtain ⟨hs, he⟩ := chain_concat.mp h
    have ih := ih hs
    cases hc : e.config? with
    | none => rw [adoptedFrom_concat_none hc, membershipOf_concat, feed_of_none hc, ih]
    | some d =>
      have hd := he d hc
      rw [adoptedFrom_concat_some hc, membershipOf_concat, feed_of_some hc, take, acceptMembership, ih]
      by_cases hv : d.version = (membershipOf g (q ++ s)).version + 1
      · rw [if_pos hv, if_neg (by dsimp only; omega)]
      · rw [if_neg hv, if_pos (by dsimp only; omega), ih]

theorem le_adoptedFrom : kept.1.version ≤ (adoptedFrom kept l).1.version := by
  induction l using List.reverseRecOn with
  | nil => exact le_rfl
  | append_singleton l e ih =>
    cases hc : e.config? with
    | none => rwa [adoptedFrom_concat_none hc]
    | some d =>
      rw [adoptedFrom_concat_some hc, take]
      split
      · exact ih
      · exact ih.trans (by dsimp only at *; omega)

theorem adoptedFrom_pos (h : Positive l) (hk : 0 < kept.2) : 0 < (adoptedFrom kept l).2 := by
  induction l using List.reverseRecOn with
  | nil => exact hk
  | append_singleton l e ih =>
    have hpre := ih (h.restrict (List.prefix_append l [e]))
    have hlen := h e (by simp)
    cases hc : e.config? with
    | none => rwa [adoptedFrom_concat_none hc]
    | some d =>
      rw [adoptedFrom_concat_some hc, take]
      split
      · exact hpre
      · exact Nat.add_pos_right _ hlen

/-! ## Records -/

/-- A record over the log that its kernel observed: it is the fold wherever the log goes
    past it, and its predecessor is the fold on the stretch before. -/
structure Tracks (kept : ClusterConfig × ℕ) (l : List LogItem) (r : ConfigRecord) : Prop where
  within : r.position ≤ logEnd l
  cur : ∀ p, p <+: l → r.position ≤ logEnd p → adoptedFrom kept p = (r.config, r.position)
  prev : ∀ p, p <+: l → r.prevPosition ≤ logEnd p → logEnd p < r.position →
    adoptedFrom kept p = (r.prev, r.prevPosition)

namespace Tracks

theorem adopted (h : Tracks kept l r) : adoptedFrom kept l = (r.config, r.position) :=
  h.cur l (List.prefix_refl l) h.within

theorem config_eq (h : Tracks kept l r) : r.config = (adoptedFrom kept l).1 := by
  rw [h.adopted]

theorem position_eq (h : Tracks kept l r) : r.position = (adoptedFrom kept l).2 := by
  rw [h.adopted]

theorem fiat (hc : ∀ e ∈ l, ∀ d ∈ e.config?, d.version ≤ c.version) :
    Tracks (c, logEnd l) l ⟨logEnd l, c, logEnd l, c⟩ := by
  refine ⟨le_rfl, ?_, fun p _ h1 h2 => absurd (h1.trans_lt h2) (lt_irrefl _)⟩
  intro p hpl _
  exact adoptedFrom_stale fun e he d hd => hc e (hpl.subset he) d hd

theorem seed (c : ClusterConfig) : Tracks (c, 0) [] (.seed c) := by
  refine @fiat c [] ?_
  intro e he
  cases he

theorem restrict (h : Tracks kept l r) (hp : p <+: l) (hle : r.position ≤ logEnd p) :
    Tracks kept p r :=
  ⟨hle, fun q hq => h.cur q (hq.trans hp), fun q hq => h.prev q (hq.trans hp)⟩

theorem observe (h : Tracks kept l r) (he : 0 < e.length) :
    Tracks kept (l ++ [e]) ((e.frameAt (logEnd l)).elim r r.observe) := by
  have hcur := h.adopted
  have hlen : logEnd (l ++ [e]) = logEnd l + e.length := by simp
  have hkeep : adoptedFrom kept (l ++ [e]) = adoptedFrom kept l → Tracks kept (l ++ [e]) r := by
    intro hsame
    refine ⟨h.within.trans (by omega), ?_, ?_⟩
    · intro p hp hle
      rcases List.prefix_concat_iff.mp hp with rfl | hp
      · rw [hsame, hcur]
      · exact h.cur p hp hle
    · intro p hp h1 h2
      rcases List.prefix_concat_iff.mp hp with rfl | hp
      · exact absurd (h.within.trans (by omega)) (not_le.mpr h2)
      · exact h.prev p hp h1 h2
  cases hc : e.config? with
  | none =>
    rw [LogItem.frameAt, hc]
    exact hkeep (adoptedFrom_concat_none hc)
  | some d =>
    have hstep : adoptedFrom kept (l ++ [e]) = _ := adoptedFrom_concat_some hc
    rw [LogItem.frameAt, hc]
    dsimp only [Option.map_some, Option.elim_some]
    rw [hcur, take] at hstep
    unfold ConfigRecord.observe
    dsimp only at hstep ⊢
    by_cases hv : d.version ≤ r.config.version
    · rw [if_pos hv] at hstep ⊢
      exact hkeep (hstep.trans hcur.symm)
    · rw [if_neg hv] at hstep ⊢
      have hend : (⟨logEnd l, e.length, d⟩ : MembershipFrame).frameEnd = logEnd (l ++ [e]) := hlen.symm
      rw [hend] at hstep ⊢
      refine ⟨le_rfl, ?_, ?_⟩
      · intro p hp hle
        rcases List.prefix_concat_iff.mp hp with rfl | hp
        · exact hstep
        · exact absurd (logEnd_le hp) (by dsimp only at hle; omega)
      · intro p hp h1 h2
        rcases List.prefix_concat_iff.mp hp with rfl | hp
        · exact absurd h2 (lt_irrefl _)
        · exact h.cur p hp h1

theorem promotePrev (h : Tracks kept l r) (hp : p <+: l) (hlt : logEnd p < r.position)
    (hle : r.prevPosition ≤ logEnd p) : Tracks kept p r.promotePrev := by
  refine ⟨hle, ?_, fun q _ h1 h2 => absurd (h1.trans_lt h2) (lt_irrefl _)⟩
  intro q hq hqle
  exact h.prev q (hq.trans hp) hqle ((logEnd_le hq).trans_lt hlt)

theorem revert (h : Tracks kept l r) (hp : p <+: l) (h0 : logEnd p ≠ 0)
    (hw : r.position ≤ logEnd p ∨ r.prevPosition ≤ logEnd p) :
    Tracks kept p (r.revert (logEnd p)) := by
  unfold ConfigRecord.revert
  by_cases hlt : logEnd p < r.position
  · rw [if_pos hlt, if_neg h0]
    exact h.promotePrev hp hlt (hw.resolve_left (not_le.mpr hlt))
  · rw [if_neg hlt]
    exact h.restrict hp (not_lt.mp hlt)

/-! ## Boot -/

theorem rederive_stale (h : Tracks kept l r) :
    rederiveConfig 0 (framesFrom 0 l) r = r := by
  -- a frame at or above the record's position left the fold at the record
  have hstale : ∀ s, s <+: l → ∀ f ∈ framesFrom 0 s, r.position ≤ f.position →
      f.config.version ≤ r.config.version := by
    intro s
    induction s using List.reverseRecOn with
    | nil => exact fun _ f hf => nomatch hf
    | append_singleton s e ih =>
      intro hs f hf hpos
      rw [framesFrom_concat, Nat.zero_add] at hf
      rcases List.mem_append.mp hf with hf | hf
      · exact ih ((List.prefix_append s [e]).trans hs) f hf hpos
      · cases hc : e.config? with
        | none => simp [LogItem.frameAt, hc] at hf
        | some d =>
          simp only [LogItem.frameAt, hc, Option.map_some, Option.toList_some, List.mem_singleton] at hf
          subst hf
          have hbefore := h.cur s ((List.prefix_append s [e]).trans hs) hpos
          have hafter := h.cur (s ++ [e]) hs (hpos.trans (by simp))
          rw [adoptedFrom_concat_some hc, hbefore, take] at hafter
          by_contra hv
          rw [if_neg hv, Prod.mk.injEq] at hafter
          exact hv (by rw [hafter.1])
  have hfold : ∀ fs : List MembershipFrame, (∀ f ∈ fs, f.config.version ≤ r.config.version) →
      fs.foldl ConfigRecord.observe r = r := by
    intro fs
    induction fs with
    | nil => exact fun _ => rfl
    | cons f fs ih =>
      intro hfs
      rw [List.foldl_cons, ConfigRecord.observe, if_pos (hfs f (by simp))]
      exact ih fun x hx => hfs x (by simp [hx])
  refine hfold _ ?_
  intro f hf
  obtain ⟨hmem, hpos⟩ := List.mem_filter.mp hf
  exact hstale l (List.prefix_refl l) f hmem (by simpa using hpos)

theorem rederive (h : Tracks kept p r) (hp : p <+: l) (hpos : Positive l) :
    Tracks kept l (rederiveConfig 0 (framesFrom 0 l) r) := by
  obtain ⟨s, rfl⟩ := hp
  induction s using List.reverseRecOn with
  | nil =>
    rw [List.append_nil, h.rederive_stale]
    exact h
  | append_singleton s e ih =>
    rw [← List.append_assoc] at hpos ⊢
    have ih := ih (hpos.restrict (List.prefix_append _ _))
    have hstep : rederiveConfig 0 (framesFrom 0 (p ++ s ++ [e])) r =
        (e.frameAt (logEnd (p ++ s))).elim (rederiveConfig 0 (framesFrom 0 (p ++ s)) r)
          (rederiveConfig 0 (framesFrom 0 (p ++ s)) r).observe := by
      have habove : r.position ≤ logEnd (p ++ s) := h.within.trans (by simp)
      rw [rederiveConfig, framesFrom_concat, Nat.zero_add, List.filter_append, List.foldl_append]
      cases hf : e.frameAt (logEnd (p ++ s)) with
      | none => rfl
      | some f =>
        have hfp : f.position = logEnd (p ++ s) := by
          obtain ⟨d, -, rfl⟩ := Option.map_eq_some_iff.mp hf
          rfl
        have hkeep : max r.position 0 ≤ f.position := by omega
        rw [Option.toList_some, List.filter_cons_of_pos (by simpa using hkeep)]
        rfl
    rw [hstep]
    exact ih.observe (hpos e (by simp))

theorem recover (h : Tracks kept q r) (hq : q <+: l) (hp : p <+: l) (hpos : Positive l)
    (hw : r.position ≤ logEnd p ∨ r.prevPosition ≤ logEnd p) (c : ClusterConfig) :
    Tracks kept p (recoverConfigRecord (some r) (framesFrom 0 p) 0 (logEnd p) c) := by
  unfold recoverConfigRecord unaheadRecord
  dsimp only [Option.getD_some]
  split
  · rename_i hlt
    have hprev : r.prevPosition ≤ logEnd p := hw.resolve_left (not_le.mpr hlt)
    rw [if_neg (not_lt.mpr hprev)]
    have hpq : p <+: q := hpos.prefix_of_le hp hq (hlt.le.trans h.within)
    exact (h.promotePrev hpq hlt hprev).rederive (List.prefix_refl p) (hpos.restrict hp)
  · rename_i hge
    rcases List.prefix_or_prefix_of_prefix hq hp with hqp | hpq
    · exact h.rederive hqp (hpos.restrict hp)
    · exact (h.restrict hpq (not_lt.mp hge)).rederive (List.prefix_refl p) (hpos.restrict hp)

end Tracks

end UltimaCluster.KernelView
