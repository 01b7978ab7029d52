/-
  `Timed` across a restart.

  The frames above the cursor of the inner machine asked for no timer. A timer frame
  among them took its instance out of the set or moved the mark of its id, or found it
  gone; nothing since has brought it back, so that it is dropped when it is fed again
  (`Done`).
-/
import UltimaCluster.Ledger
import UltimaCluster.Timed

namespace UltimaCluster

open AppFrame (isMessage)

open Std SnapshotStateMachine

namespace Timed

variable {σ τ : Type}

/-- Related inner machines under the same timers. -/
def Lift (R : σ → τ → Prop) (a : Timed σ) (b : Timed τ) : Prop :=
  R a.inner b.inner ∧ a.pending = b.pending ∧ a.tableLast = b.tableLast

theorem deliver_congr {a : Timed σ} {b : Timed τ} (hp : a.pending = b.pending)
    (ht : a.tableLast = b.tableLast) (ev : TimerEvent) : a.deliver ev = b.deliver ev := by
  unfold deliver
  rw [hp, ht]

theorem take_congr {a : Timed σ} {b : Timed τ} (hp : a.pending = b.pending)
    (ht : a.tableLast = b.tableLast) (ev : TimerEvent) :
    (a.take ev).pending = (b.take ev).pending ∧ (a.take ev).tableLast = (b.take ev).tableLast := by
  unfold take
  split_ifs <;> simp [hp, ht]

theorem sim {S : RawStateMachine σ} {T : RawStateMachine τ} {R : σ → τ → Prop} (h : S.Sim T R) :
    (raw S).Sim (raw T) (Lift R) where
  apply := by
    rintro a b ⟨hin, hp, ht⟩ ctx cmd
    obtain ⟨hin', hout⟩ := h.apply hin ctx cmd
    simp only [raw, apply, hout, hp]
    exact ⟨⟨hin', rfl, ht⟩, trivial⟩
  onTimer := by
    rintro a b ⟨hin, hp, ht⟩ ctx ev
    obtain ⟨hin', hout⟩ := h.onTimer hin ctx ev
    have hd : deliver { a with maxPosSeen := maxPos (some ctx.position) a.maxPosSeen } ev =
        deliver { b with maxPosSeen := maxPos (some ctx.position) b.maxPosSeen } ev :=
      deliver_congr hp ht ev
    obtain ⟨hp', ht'⟩ := take_congr
      (a := { a with maxPosSeen := maxPos (some ctx.position) a.maxPosSeen })
      (b := { b with maxPosSeen := maxPos (some ctx.position) b.maxPosSeen }) hp ht ev
    simp only [raw, onTimer, hd]
    split_ifs
    · simp only [hout, hp']
      exact ⟨⟨hin', rfl, ht'⟩, trivial⟩
    · exact ⟨⟨hin, hp, ht⟩, rfl⟩

/-! ## Frames above the cursor -/

section Idle

variable {S : SnapshotStateMachine σ} {t : Timed σ} {f : AppFrame}

/-- A timer frame that finds its instance gone. -/
def Done (t : Timed σ) (f : AppFrame) : Prop := ∀ ev, f.body = .timer ev → t.deliver ev = false

/-- What one frame lets through to the inner machine. -/
def reach (t : Timed σ) (f : AppFrame) : List AppFrame :=
  match f.body with
  | .message _ => [f]
  | .timer ev => if t.deliver ev then [f] else []

def reaches (S : RawStateMachine σ) : Timed σ → List AppFrame → List AppFrame
  | _, [] => []
  | t, f :: fs => reach t f ++ reaches S ((raw S).step t f).1 fs

theorem step_inner (t : Timed σ) (f : AppFrame) :
    ((raw S.toRawStateMachine).step t f).1.inner = S.run t.inner (reach t f) ∧
      ((raw S.toRawStateMachine).step t f).1.maxPosSeen =
        maxPos (some f.ctx.position) t.maxPosSeen := by
  cases hb : f.body with
  | message cmd =>
    rw [step_message (by simp [isMessage, hb])]
    simp [reach, hb]
  | timer ev =>
    cases hd : t.deliver ev with
    | true =>
      rw [step_delivered hb hd]
      simp [reach, hb, hd]
    | false =>
      rw [step_dropped hb hd]
      simp [reach, hb, hd]

theorem run_inner (t : Timed σ) (fs : List AppFrame) :
    ((raw S.toRawStateMachine).run t fs).inner = S.run t.inner (reaches S.toRawStateMachine t fs) := by
  induction fs generalizing t with
  | nil => rfl
  | cons f fs ih =>
    rw [RawStateMachine.run_cons, ih, reaches, RawStateMachine.run_append, (step_inner t f).1]

theorem report_timers (ev : TimerEvent) (r : Sched) : (report ev r).timers = r.timers := by
  unfold report
  split <;> rfl

theorem step_timers (t : Timed σ) (f : AppFrame) :
    ((raw S.toRawStateMachine).step t f).2.1.timers =
      match reach t f with
      | [] => []
      | _ => (S.step t.inner f).2.1.timers := by
  cases hb : f.body with
  | message cmd =>
    rw [step_message (by simp [isMessage, hb])]
    simp [reach, hb]
  | timer ev =>
    cases hd : t.deliver ev with
    | true =>
      rw [step_delivered hb hd]
      simp [reach, hb, hd, report_timers]
    | false =>
      rw [step_dropped hb hd]
      simp [reach, hb, hd, report_timers]

theorem reach_eq (t : Timed σ) (f : AppFrame) : reach t f = [f] ∨ reach t f = [] ∧ f.isMessage = false := by
  unfold reach isMessage
  cases f.body with
  | message cmd => exact .inl rfl
  | timer ev =>
    dsimp only
    split
    · exact .inl rfl
    · exact .inr ⟨rfl, rfl⟩

variable {cursor : σ → Option UInt64}

theorem idleAt_iff (habove : ∀ c ∈ cursor t.inner, c < f.ctx.position) :
    IdleAt (raw S.toRawStateMachine) (fun t => cursor t.inner) t f ↔
      Idle S.toRawStateMachine cursor t.inner (reach t f) := by
  have hin := (step_inner (S := S) t f).1
  have htim := step_timers (S := S) t f
  unfold IdleAt
  dsimp only
  rw [hin, htim]
  rcases reach_eq t f with hr | ⟨hr, -⟩
  · rw [hr]
    simp [Idle, IdleAt]
  · rw [hr]
    simpa [Idle] using habove

/-- What a frame takes, before the inner machine asks for anything. -/
def taken (t : Timed σ) (f : AppFrame) : Timed σ :=
  match f.body with
  | .message _ => t
  | .timer ev => if t.deliver ev then t.take ev else t

theorem step_taken (h : ((raw S.toRawStateMachine).step t f).2.1.timers = []) :
    ((raw S.toRawStateMachine).step t f).1.pending = (taken t f).pending ∧
      ((raw S.toRawStateMachine).step t f).1.tableLast = (taken t f).tableLast := by
  unfold taken
  cases hb : f.body with
  | message cmd =>
    rw [step_message (by simp [isMessage, hb])] at h ⊢
    dsimp only at h ⊢
    rw [h]
    exact ⟨rfl, rfl⟩
  | timer ev =>
    cases hd : t.deliver ev with
    | false =>
      rw [step_dropped hb hd]
      simp [hd]
    | true =>
      rw [step_delivered hb hd] at h ⊢
      dsimp only at h ⊢
      rw [report_timers] at h
      rw [h, if_pos hd]
      exact ⟨rfl, rfl⟩

theorem taken_self (t : Timed σ) (f : AppFrame) : Done (taken t f) f := by
  intro ev hev
  unfold taken
  rw [hev]
  dsimp only
  cases hd : t.deliver ev with
  | false => simpa using hd
  | true =>
    rw [if_pos rfl]
    unfold take deliver
    split_ifs with htable
    · have hlt : ¬ ev.deadlineNs < ev.deadlineNs := by grind
      simp [hlt]
    · simp

theorem taken_done {g : AppFrame} (hg : Done t g) : Done (taken t f) g := by
  intro ev' hev'
  have hno := hg ev' hev'
  unfold taken
  cases hb : f.body with
  | message cmd => exact hno
  | timer ev =>
    dsimp only
    cases hd : t.deliver ev with
    | false => simpa using hno
    | true =>
      rw [if_pos rfl]
      unfold deliver at hd hno ⊢
      unfold take
      split_ifs at hd hno ⊢ with h1 h2
      · -- both are ticks: the mark has only moved up
        rw [ExtTreeMap.getElem?_insert]
        split_ifs with hid
        · have heq : ev.id = ev'.id := LawfulEqOrd.eq_of_compare hid
          rw [heq] at hd
          cases hl : t.tableLast[ev'.id]? with
          | none => simp [hl] at hno
          | some l =>
            grind
        · exact hno
      · exact hno
      · exact hno
      · rw [ExtTreeMap.getElem?_erase]
        split_ifs
        · simp
        · exact hno

theorem step_done (h : ((raw S.toRawStateMachine).step t f).2.1.timers = []) :
    Done ((raw S.toRawStateMachine).step t f).1 f ∧
      ∀ g, Done t g → Done ((raw S.toRawStateMachine).step t f).1 g := by
  obtain ⟨hp, ht⟩ := step_taken h
  have hcongr : ∀ g, Done (taken t f) g → Done ((raw S.toRawStateMachine).step t f).1 g :=
    fun g hg ev hev => (deliver_congr hp ht ev).trans (hg ev hev)
  exact ⟨hcongr f (taken_self t f), fun g hg => hcongr g (taken_done hg)⟩

theorem idle_run {fs : List AppFrame}
    (h : Idle (raw S.toRawStateMachine) (fun t => cursor t.inner) t fs) :
    Idle S.toRawStateMachine cursor t.inner (reaches S.toRawStateMachine t fs) ∧
      (∀ f ∈ fs, Done ((raw S.toRawStateMachine).run t fs) f) ∧
      (∀ g, Done t g → Done ((raw S.toRawStateMachine).run t fs) g) ∧
      ∀ f ∈ fs, ∀ c ∈ cursor t.inner, c < f.ctx.position := by
  induction fs generalizing t with
  | nil => exact ⟨trivial, by simp, fun g hg => hg, by simp⟩
  | cons f fs ih =>
    obtain ⟨hf, hfs⟩ := h
    obtain ⟨h1, h2, h3, h4⟩ := ih hfs
    obtain ⟨hself, hothers⟩ := step_done hf.2.2
    refine ⟨?_, List.forall_mem_cons.mpr ⟨h3 f hself, h2⟩, fun g hg => h3 g (hothers g hg),
      List.forall_mem_cons.mpr ⟨hf.1, fun g hg c hc => h4 g hg c ?_⟩⟩
    · refine idle_append.mpr ⟨(idleAt_iff hf.1).mp hf, ?_⟩
      rw [← (step_inner t f).1]
      exact h1
    · rw [show cursor _ = cursor t.inner from hf.2.1]
      exact hc

/-- Frames whose timers are done reach the inner machine by their messages only. -/
theorem run_done {fs : List AppFrame} (hdone : ∀ f ∈ fs, Done t f)
    (habove : ∀ f ∈ fs, ∀ c ∈ cursor t.inner, c < f.ctx.position)
    (hidle : Idle S.toRawStateMachine cursor t.inner (fs.filter isMessage)) :
    Idle (raw S.toRawStateMachine) (fun t => cursor t.inner) t fs ∧
      ((raw S.toRawStateMachine).run t fs).inner = S.run t.inner (fs.filter isMessage) ∧
      ((raw S.toRawStateMachine).run t fs).pending = t.pending ∧
      ((raw S.toRawStateMachine).run t fs).tableLast = t.tableLast := by
  induction fs generalizing t with
  | nil => exact ⟨trivial, rfl, rfl, rfl⟩
  | cons f fs ih =>
    obtain ⟨hf, hfs⟩ := List.forall_mem_cons.mp hdone
    obtain ⟨hpos, habove⟩ := List.forall_mem_cons.mp habove
    have hreach : reach t f = [f].filter isMessage := by
      cases hb : f.body with
      | message cmd => simp [reach, hb, isMessage]
      | timer ev => simp [reach, hb, isMessage, hf ev hb]
    have htaken : taken t f = t := by
      cases hb : f.body with
      | message cmd => simp [taken, hb]
      | timer ev => simp [taken, hb, hf ev hb]
    rw [← List.singleton_append, List.filter_append, ← hreach] at hidle ⊢
    obtain ⟨hidle₁, hidle₂⟩ := idle_append.mp hidle
    have hin := (step_inner (S := S) t f).1
    have hat := (idleAt_iff hpos).mpr hidle₁
    obtain ⟨hp, ht⟩ := step_taken hat.2.2
    rw [htaken] at hp ht
    rw [← hin] at hidle₂
    have hcur : cursor ((raw S.toRawStateMachine).step t f).1.inner = cursor t.inner := hat.2.1
    obtain ⟨h1, h2, h3, h4⟩ := ih
      (fun g hg ev hev => (deliver_congr hp ht ev).trans (hfs g hg ev hev))
      (fun g hg => by rw [hcur]; exact habove g hg) hidle₂
    rw [List.singleton_append, RawStateMachine.run_cons, RawStateMachine.run_append, ← hin]
    exact ⟨⟨hat, h1⟩, h2, h3.trans hp, h4.trans ht⟩

theorem reaches_append (fs gs : List AppFrame) :
    reaches S.toRawStateMachine t (fs ++ gs) = reaches S.toRawStateMachine t fs ++
      reaches S.toRawStateMachine ((raw S.toRawStateMachine).run t fs) gs := by
  induction fs generalizing t with
  | nil => rfl
  | cons f fs ih => simp [reaches, ih]

theorem reaches_messages (fs : List AppFrame) :
    (reaches S.toRawStateMachine t fs).filter isMessage = fs.filter isMessage := by
  induction fs generalizing t with
  | nil => rfl
  | cons f fs ih =>
    rw [reaches, List.filter_append, ih]
    rcases reach_eq t f with hr | ⟨hr, hm⟩
    · rw [hr, ← List.filter_append, List.singleton_append]
    · rw [hr, List.filter_cons_of_neg (by simp [hm])]
      rfl

/-- The messages among the frames that are fed again, as the inner machine saw them. -/
theorem refed_reaches {is js : List AppFrame} (h : Refed is js) :
    Refed (reaches S.toRawStateMachine t is) (js.filter isMessage) := by
  obtain ⟨ks, ⟨u, rfl⟩, -, hmsg⟩ := h
  refine ⟨reaches S.toRawStateMachine ((raw S.toRawStateMachine).run t u) ks, ?_, ?_, ?_⟩
  · rw [reaches_append]
    exact List.suffix_append _ _
  · rw [hmsg, ← reaches_messages (S := S) (t := (raw S.toRawStateMachine).run t u)]
    exact List.filter_sublist
  · rw [List.filter_filter, reaches_messages, ← hmsg]
    simp

end Idle

/-! ## The artifact -/

section Artifact

variable {codec : ImageCodec TimedImage} {S : SnapshotStateMachine σ} {t live : Timed σ}
variable {img blob : Bytes} {p P : UInt64}

theorem freeze_eq (h : S.freeze t.inner = .ok (img, p)) (hblob : codec.encodeToVec t.image = .ok blob) :
    (machine codec S).freeze t = .ok (Bytes.le 8 blob.length ++ blob ++ img, p) := by
  simp [machine, freeze, h, hblob, Except.mapError, bind, Except.bind, pure, Except.pure]

/-- An artifact is the encoded timers in front of an artifact of the inner machine. -/
theorem freeze_ok {art : Bytes} (h : (machine codec S).freeze t = .ok (art, p)) :
    ∃ img blob, S.freeze t.inner = .ok (img, p) ∧ codec.encodeToVec t.image = .ok blob ∧
      art = Bytes.le 8 blob.length ++ blob ++ img := by
  cases hin : S.freeze t.inner with
  | error e => simp [machine, freeze, hin, bind, Except.bind] at h
  | ok r =>
    cases hblob : codec.encodeToVec t.image with
    | error e => simp [machine, freeze, hin, hblob, Except.mapError, bind, Except.bind] at h
    | ok blob =>
      rw [freeze_eq hin hblob] at h
      cases h
      exact ⟨r.1, blob, rfl, rfl, rfl⟩

theorem machine_installSnapshot : (machine codec S).installSnapshot = installSnapshot codec S := rfl

theorem install_eq (hcodec : codec.Lawful) (hblob : codec.encodeToVec t.image = .ok blob)
    (hlen : blob.length ≤ maxImageLen) :
    (machine codec S).installSnapshot live P (Bytes.le 8 blob.length ++ blob ++ img) =
      (S.installSnapshot live.inner P img).map fun r =>
        (⟨r.1, t.pending, t.tableLast, S.lastApplied r.1⟩, r.2) := by
  have hshort : blob.length < 2 ^ 64 := by
    unfold maxImageLen at hlen
    omega
  have hread := Bytes.readNum_le (show blob.length < 256 ^ 8 by omega) (blob ++ img)
  have hdec := hcodec _ _ hblob hshort
  rw [machine_installSnapshot, installSnapshot, List.append_assoc, hread]
  simp only [bind, Except.bind, if_neg (Nat.not_lt.mpr hlen), pure, Except.pure, List.take_left,
    ne_eq, not_true_eq_false, if_false, hdec, Except.mapError, image, List.drop_left]
  cases S.installSnapshot live.inner P img <;> rfl

theorem install_too_long (hlen : maxImageLen < blob.length) (hshort : blob.length < 2 ^ 64) :
    (machine codec S).installSnapshot live P (Bytes.le 8 blob.length ++ blob ++ img) =
      .error (.codec ("timed image blob length " ++ toString blob.length ++ " exceeds the " ++
        toString maxImageLen ++ "-byte sanity bound")) := by
  have hread := Bytes.readNum_le (show blob.length < 256 ^ 8 by omega) (blob ++ img)
  rw [machine_installSnapshot, installSnapshot, List.append_assoc, hread]
  simp only [bind, Except.bind, if_pos hlen]
  rfl

end Artifact

/-! ## The restart -/

/-- Idle frames that are fed again: their timers are dropped, and the inner machine
    sees their messages only. -/
theorem refed_run {S : SnapshotStateMachine σ} (R : S.Resumable) {t : Timed σ}
    {is js : List AppFrame}
    (his : Idle (raw S.toRawStateMachine) (fun t => R.cursor t.inner) t is) (hjs : Refed is js) :
    Idle S.toRawStateMachine R.cursor ((raw S.toRawStateMachine).run t is).inner
        (js.filter isMessage) ∧
      Idle (raw S.toRawStateMachine) (fun t => R.cursor t.inner)
        ((raw S.toRawStateMachine).run t is) js ∧
      ((raw S.toRawStateMachine).run ((raw S.toRawStateMachine).run t is) js).inner =
        S.run ((raw S.toRawStateMachine).run t is).inner (js.filter isMessage) ∧
      ((raw S.toRawStateMachine).run ((raw S.toRawStateMachine).run t is) js).pending =
        ((raw S.toRawStateMachine).run t is).pending ∧
      ((raw S.toRawStateMachine).run ((raw S.toRawStateMachine).run t is) js).tableLast =
        ((raw S.toRawStateMachine).run t is).tableLast := by
  obtain ⟨hinner, hdone, -, habove⟩ := idle_run his
  have hidle := (R.settle _ _ _ hinner (refed_reaches hjs)).1
  have hmem : ∀ f ∈ js, f ∈ is := by
    obtain ⟨ks, hks, hsub, -⟩ := hjs
    exact fun f hf => hks.mem (hsub.mem hf)
  rw [← run_inner (S := S) t is] at hidle
  have hcur : R.cursor ((raw S.toRawStateMachine).run t is).inner = R.cursor t.inner := his.run_cursor
  exact ⟨hidle, run_done (fun f hf => hdone f (hmem f hf))
    (fun f hf => by rw [hcur]; exact habove f (hmem f hf)) hidle⟩

/-- Over an inner machine that resumes. -/
def resumable {codec : ImageCodec TimedImage} (hcodec : codec.Lawful) {S : SnapshotStateMachine σ}
    (R : S.Resumable) : (machine codec S).Resumable where
  cursor t := R.cursor t.inner
  Same := Lift R.Same
  refl t := ⟨R.refl t.inner, rfl, rfl⟩
  trans h h' := ⟨R.trans h.1 h'.1, h.2.1.trans h'.2.1, h.2.2.trans h'.2.2⟩
  sim := sim R.sim
  step_cursor t f := by
    have hin : ((machine codec S).step t f).1.inner = _ := (step_inner (S := S) t f).1
    have htim : ((machine codec S).step t f).2.1.timers = _ := step_timers (S := S) t f
    rw [hin, htim]
    rcases reach_eq t f with hr | ⟨hr, -⟩
    · rw [hr]
      exact R.step_cursor t.inner f
    · rw [hr]
      exact .inr ⟨rfl, rfl⟩
  step_seen t f p hp := by
    obtain ⟨hin, hmark⟩ := step_inner (S := S) t f
    rcases mem_maxPos hp with hp | hp
    · have hp' : p ∈ S.lastApplied (S.run t.inner (reach t f)) := hin ▸ hp
      rcases reach_eq t f with hr | ⟨hr, -⟩
      · rw [hr] at hp'
        rcases R.step_seen t.inner f p hp' with hle | ⟨p₀, hp₀, hle⟩
        · exact .inl hle
        · obtain ⟨q, hq, hle'⟩ := le_maxPos (b := t.maxPosSeen) (.inl hp₀)
          exact .inr ⟨q, hq, UInt64.le_trans hle hle'⟩
      · rw [hr] at hp'
        exact .inr (le_maxPos (.inl hp'))
    · have hp' : p ∈ maxPos (some f.ctx.position) t.maxPosSeen := hmark ▸ hp
      rcases mem_maxPos hp' with hp' | hp'
      · cases hp'
        exact .inl (UInt64.le_refl _)
      · exact .inr (le_maxPos (.inr hp'))
  settle t is js his hjs := by
    have hsame := (R.settle _ _ _ (idle_run his).1 (refed_reaches hjs)).2
    rw [← run_inner (S := S) t is] at hsame
    obtain ⟨-, hidle, hin, hp, ht⟩ := refed_run R his hjs
    refine ⟨hidle, ?_, hp.symm, ht.symm⟩
    rw [show ((machine codec S).run ((machine codec S).run t is) js).inner = _ from hin]
    exact hsame
  Peer live t := R.Peer live.inner t.inner
  Keeps live t := R.Keeps live.inner t.inner
  Fits t := R.Fits t.inner ∧ codec.Within t.image maxImageLen
  restore := by
    rintro t live art p P ⟨hfits, hlen⟩ hpeer hfreeze hP
    obtain ⟨img, blob, hin, hblob, rfl⟩ := freeze_ok hfreeze
    obtain ⟨b, hb, hsame, hseen, hkeeps⟩ := R.restore hfits hpeer hin hP
    refine ⟨⟨b, t.pending, t.tableLast, S.lastApplied b⟩,
      by rw [install_eq hcodec hblob (hlen.le hblob), hb]; rfl, ⟨hsame, rfl, rfl⟩, ?_, hkeeps⟩
    show maxPos (S.lastApplied b) (S.lastApplied b) = _
    rw [maxPos_self, hseen]

end Timed

end UltimaCluster
