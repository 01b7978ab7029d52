/-
  `Sessioned` across a restart.

  The artifact carries the table as it stands, and the cursor of the inner machine.
  The frames above that cursor were retries, malformed, or timers that the inner
  machine ignored; fed again they only move the last-seen marks of their clients,
  and leave them where they were (`touches_twice`).
-/
import UltimaCluster.SessionOnce

namespace UltimaCluster

open Std SnapshotStateMachine

namespace Sessioned

variable {σ τ : Type}

/-! ## Simulations lift -/

/-- Related inner machines under the same table. The mark of the wrapper does not
    decide anything but where a replay begins. -/
def Lift (R : σ → τ → Prop) (a : Sessioned σ) (b : Sessioned τ) : Prop :=
  R a.inner b.inner ∧ a.table = b.table

theorem sim {S : RawStateMachine σ} {T : RawStateMachine τ} {R : σ → τ → Prop} (h : S.Sim T R) :
    (raw S).Sim (raw T) (Lift R) where
  apply := by
    rintro a b ⟨hin, htab⟩ ctx cmd
    simp only [raw, apply, htab]
    split
    · exact ⟨⟨hin, rfl⟩, rfl⟩
    · rename_i e _
      split
      · exact ⟨⟨hin, rfl⟩, rfl⟩
      · obtain ⟨hin', hout⟩ := h.apply hin ctx e.body
        rw [hout]
        exact ⟨⟨hin', rfl⟩, rfl⟩
  onTimer := by
    rintro a b ⟨hin, htab⟩ ctx ev
    obtain ⟨hin', hout⟩ := h.onTimer hin ctx ev
    exact ⟨⟨hin', htab⟩, hout⟩

/-! ## Last-seen marks -/

/-- What a frame that is no fresh command does to the table. -/
def touch (t : SessionTable) (f : AppFrame) : SessionTable :=
  match f.envelope with
  | none => t
  | some e =>
    match t.clients[e.clientId]? with
    | none => t
    | some st =>
      { t with clients := t.clients.insert e.clientId { st with lastSeenPos := f.ctx.position } }

def touches (t : SessionTable) (fs : List AppFrame) : SessionTable := fs.foldl touch t

/-- The last position at which the frames show a client. -/
def lastSeen (c : UInt64) (fs : List AppFrame) : Option UInt64 :=
  fs.foldl (fun p f => if f.envelope.any (·.clientId = c) then some f.ctx.position else p) none

def mark (p : Option UInt64) (st : ClientState) : ClientState :=
  match p with
  | none => st
  | some p => { st with lastSeenPos := p }

theorem touch_rest (t : SessionTable) (f : AppFrame) :
    (touch t f).cfg = t.cfg ∧ (touch t f).totalBytes = t.totalBytes := by
  unfold touch
  split
  · exact ⟨rfl, rfl⟩
  · split <;> exact ⟨rfl, rfl⟩

theorem touches_rest (t : SessionTable) (fs : List AppFrame) :
    (touches t fs).cfg = t.cfg ∧ (touches t fs).totalBytes = t.totalBytes := by
  induction fs generalizing t with
  | nil => exact ⟨rfl, rfl⟩
  | cons f fs ih =>
    obtain ⟨h1, h2⟩ := ih (touch t f)
    obtain ⟨h3, h4⟩ := touch_rest t f
    exact ⟨h1.trans h3, h2.trans h4⟩

theorem map_mark_none (o : Option ClientState) : o.map (mark none) = o := by
  cases o <;> rfl

theorem touch_getElem? (t : SessionTable) (f : AppFrame) (c : UInt64) :
    (touch t f).clients[c]? = t.clients[c]?.map
      (mark (if f.envelope.any (·.clientId = c) then some f.ctx.position else none)) := by
  unfold touch
  cases he : f.envelope with
  | none => simp [map_mark_none]
  | some e =>
    by_cases hc : e.clientId = c
    · subst hc
      cases hst : t.clients[e.clientId]? <;> simp [mark, hst]
    · have hcmp : ¬ compare e.clientId c = .eq := fun h => hc (LawfulEqOrd.eq_of_compare h)
      have hany : (some e).any (·.clientId = c) = false := by simp [hc]
      rw [hany, if_neg (by simp), map_mark_none]
      cases hst : t.clients[e.clientId]? with
      | none => simp [hst]
      | some st => simp [hst, ExtTreeMap.getElem?_insert, hcmp]

theorem touches_getElem? (t : SessionTable) (fs : List AppFrame) (c : UInt64) :
    (touches t fs).clients[c]? = t.clients[c]?.map (mark (lastSeen c fs)) := by
  induction fs using List.reverseRecOn with
  | nil => cases h : t.clients[c]? <;> simp [touches, lastSeen, mark, h]
  | append_singleton fs f ih =>
    have htouch : touches t (fs ++ [f]) = touch (touches t fs) f := by simp [touches]
    have hlast : lastSeen c (fs ++ [f]) =
        if f.envelope.any (·.clientId = c) then some f.ctx.position else lastSeen c fs := by
      simp [lastSeen]
    rw [htouch, touch_getElem?, ih, hlast, Option.map_map]
    congr 1
    ext1 st
    split_ifs
    · cases lastSeen c fs <;> rfl
    · rfl

theorem table_ext {t u : SessionTable} (hcfg : t.cfg = u.cfg) (htotal : t.totalBytes = u.totalBytes)
    (h : ∀ c : UInt64, t.clients[c]? = u.clients[c]?) : t = u := by
  have hclients : t.clients = u.clients := ExtTreeMap.ext_getElem? h
  cases t
  cases u
  simp_all

theorem touches_twice (t : SessionTable) (fs : List AppFrame) :
    touches (touches t fs) fs = touches t fs := by
  refine table_ext (touches_rest _ _).1 (touches_rest _ _).2 fun c => ?_
  rw [touches_getElem?, touches_getElem?, Option.map_map]
  congr 1
  ext1 st
  cases lastSeen c fs <;> rfl

theorem touches_messages (t : SessionTable) (fs : List AppFrame) :
    touches t (fs.filter AppFrame.isMessage) = touches t fs := by
  induction fs generalizing t with
  | nil => rfl
  | cons f fs ih =>
    cases hf : f.isMessage with
    | true =>
      rw [List.filter_cons_of_pos hf]
      exact ih (touch t f)
    | false =>
      have htimer : f.envelope = none := by
        unfold AppFrame.isMessage at hf
        unfold AppFrame.envelope
        split at hf
        · cases hf
        · simp [*]
      have htouch : touch t f = t := by simp [touch, htimer]
      rw [List.filter_cons_of_neg (by simp [hf]), ih]
      show _ = touches (touch t f) fs
      rw [htouch]

/-! ## Idle frames -/

/-- The pair of the frame has been seen, so that it is answered from the table. -/
def Seen (t : SessionTable) (f : AppFrame) : Prop :=
  ∀ e, f.envelope = some e → t.Answered e.clientId e.seq fun _ => True

variable {t : SessionTable}

theorem answered_touch_iff {g : AppFrame} {c q : UInt64} :
    (touch t g).Answered c q (fun _ => True) ↔ t.Answered c q fun _ => True := by
  have hmark : ∀ (p : Option UInt64) (st : ClientState), (mark p st).highestSeq = st.highestSeq := by
    intro p st
    cases p <;> rfl
  unfold SessionTable.Answered
  simp only [touch_getElem?, Option.map_eq_some_iff]
  constructor
  · rintro ⟨_, h, ⟨st, hst, rfl⟩, hh, hle, -⟩
    exact ⟨st, h, hst, (hmark _ _).symm.trans hh, hle, fun _ _ _ => trivial⟩
  · rintro ⟨st, h, hst, hh, hle, -⟩
    exact ⟨_, h, ⟨st, hst, rfl⟩, (hmark _ _).trans hh, hle, fun _ _ _ => trivial⟩

theorem seen_touch_iff {f g : AppFrame} : Seen (touch t g) f ↔ Seen t f :=
  forall₂_congr fun _ _ => answered_touch_iff

theorem seen_touches {f : AppFrame} (h : Seen t f) (fs : List AppFrame) :
    Seen (touches t fs) f := by
  induction fs generalizing t with
  | nil => exact h
  | cons g fs ih => exact ih (seen_touch_iff.mpr h)

def timers (fs : List AppFrame) : List AppFrame := fs.filter fun f => !f.isMessage

section Idle

variable {S : SnapshotStateMachine σ} {s : Sessioned σ} {f : AppFrame}

theorem envelope_of_timer (hf : f.isMessage = false) : f.envelope = none := by
  unfold AppFrame.isMessage at hf
  unfold AppFrame.envelope
  split at hf
  · cases hf
  · simp [*]

theorem step_of_timer (hf : f.isMessage = false) :
    ((raw S.toRawStateMachine).step s f).1.inner = (S.step s.inner f).1 ∧
      ((raw S.toRawStateMachine).step s f).1.table = touch s.table f ∧
      ((raw S.toRawStateMachine).step s f).2.1 = (S.step s.inner f).2.1 := by
  have he := envelope_of_timer hf
  cases hb : f.body with
  | message cmd => simp [AppFrame.isMessage, hb] at hf
  | timer ev =>
    rw [step_timer hb]
    simp [RawStateMachine.step, hb, touch, he]

theorem step_of_seen (hf : f.isMessage = true) (h : Seen s.table f) :
    ((raw S.toRawStateMachine).step s f).1.inner = s.inner ∧
      ((raw S.toRawStateMachine).step s f).1.table = touch s.table f ∧
      ((raw S.toRawStateMachine).step s f).2.1.timers = [] := by
  cases he : f.envelope with
  | none =>
    cases hb : f.body with
    | message cmd => simp [step_malformed hb he, touch, he]
    | timer ev => simp [AppFrame.isMessage, hb] at hf
  | some e =>
    obtain ⟨out, hr⟩ : ∃ out, (s.table.see e.clientId f.ctx.position).retry e.seq = some out := by
      rcases (h e he).retry (p := f.ctx.position) with ⟨w, -, -, hr⟩ | ⟨-, hr⟩
      · exact ⟨_, hr⟩
      · exact ⟨_, hr⟩
    obtain ⟨st, hst, hsee⟩ := SessionTable.see_of_retry hr
    simp [step_retry he hr, touch, he, hst, hsee]

variable {cursor : σ → Option UInt64}

/-- Where every call of `apply` moves the cursor, an idle command is a retry. -/
theorem seen_of_idle (hadv : ∀ a ctx cmd, cursor (S.apply a ctx cmd).1 = some ctx.position)
    (h : IdleAt (raw S.toRawStateMachine) (fun s => cursor s.inner) s f) : Seen s.table f := by
  intro e he
  cases hr : (s.table.see e.clientId f.ctx.position).retry e.seq with
  | some out => exact SessionTable.answered_of_retry hr
  | none =>
    obtain ⟨habove, hstay, -⟩ := h
    rw [step_fresh he hr] at hstay
    have := habove f.ctx.position (by rw [← hstay]; exact hadv _ _ _)
    grind

variable {fs : List AppFrame}

theorem run_of_seen (h : ∀ f ∈ fs, Seen s.table f) :
    ((raw S.toRawStateMachine).run s fs).inner = S.run s.inner (timers fs) ∧
      ((raw S.toRawStateMachine).run s fs).table = touches s.table fs := by
  induction fs generalizing s with
  | nil => exact ⟨rfl, rfl⟩
  | cons f fs ih =>
    obtain ⟨hf, hfs⟩ := List.forall_mem_cons.mp h
    cases hm : f.isMessage with
    | true =>
      obtain ⟨h1, h2, -⟩ := step_of_seen (S := S) hm hf
      have hnext := ih (s := ((raw S.toRawStateMachine).step s f).1)
        fun g hg => by rw [h2]; exact seen_touch_iff.mpr (hfs g hg)
      rw [h1, h2] at hnext
      simpa [timers, hm, touches] using hnext
    | false =>
      obtain ⟨h1, h2, -⟩ := step_of_timer (S := S) (s := s) hm
      have hnext := ih (s := ((raw S.toRawStateMachine).step s f).1)
        fun g hg => by rw [h2]; exact seen_touch_iff.mpr (hfs g hg)
      rw [h1, h2] at hnext
      simpa [timers, hm, touches] using hnext

theorem idle_iff (hseen : ∀ f ∈ fs, Seen s.table f)
    (habove : ∀ f ∈ fs, ∀ c ∈ cursor s.inner, c < f.ctx.position) :
    Idle (raw S.toRawStateMachine) (fun s => cursor s.inner) s fs ↔
      Idle S.toRawStateMachine cursor s.inner (timers fs) := by
  induction fs generalizing s with
  | nil => exact Iff.rfl
  | cons f fs ih =>
    obtain ⟨hf, hfs⟩ := List.forall_mem_cons.mp hseen
    obtain ⟨hpos, habove⟩ := List.forall_mem_cons.mp habove
    cases hm : f.isMessage with
    | true =>
      obtain ⟨h1, h2, h3⟩ := step_of_seen (S := S) hm hf
      have hnext := ih (s := ((raw S.toRawStateMachine).step s f).1)
        (fun g hg => by rw [h2]; exact seen_touch_iff.mpr (hfs g hg))
        (fun g hg => by rw [h1]; exact habove g hg)
      rw [h1] at hnext
      simp only [timers, hm, Bool.not_true, List.filter_cons_of_neg, Bool.false_eq_true,
        not_false_eq_true]
      refine Iff.trans ?_ hnext
      exact ⟨fun h => h.2, fun h => ⟨⟨hpos, congrArg cursor h1, h3⟩, h⟩⟩
    | false =>
      obtain ⟨h1, h2, h3⟩ := step_of_timer (S := S) (s := s) hm
      simp only [timers, hm, Bool.not_false, List.filter_cons_of_pos]
      have hat : IdleAt (raw S.toRawStateMachine) (fun s => cursor s.inner) s f ↔
          IdleAt S.toRawStateMachine cursor s.inner f := by
        unfold IdleAt
        dsimp only
        rw [h1, h3]
      have hnext (hidle : IdleAt S.toRawStateMachine cursor s.inner f) :=
        ih (s := ((raw S.toRawStateMachine).step s f).1)
          (fun g hg => by rw [h2]; exact seen_touch_iff.mpr (hfs g hg))
          (fun g hg => by rw [h1, hidle.2.1]; exact habove g hg)
      rw [h1] at hnext
      constructor
      · rintro ⟨hf', hrest⟩
        exact ⟨hat.mp hf', (hnext (hat.mp hf')).mp hrest⟩
      · rintro ⟨hf', hrest⟩
        exact ⟨hat.mpr hf', (hnext hf').mpr hrest⟩

theorem seen_of_idle_run (hadv : ∀ a ctx cmd, cursor (S.apply a ctx cmd).1 = some ctx.position)
    (h : Idle (raw S.toRawStateMachine) (fun s => cursor s.inner) s fs) :
    ∀ f ∈ fs, Seen s.table f ∧ ∀ c ∈ cursor s.inner, c < f.ctx.position := by
  induction fs generalizing s with
  | nil => simp
  | cons f fs ih =>
    obtain ⟨hf, hfs⟩ := h
    have hseen := seen_of_idle hadv hf
    have htable : ((raw S.toRawStateMachine).step s f).1.table = touch s.table f := by
      cases hm : f.isMessage with
      | true => exact (step_of_seen hm hseen).2.1
      | false => exact (step_of_timer hm).2.1
    refine List.forall_mem_cons.mpr ⟨⟨hseen, hf.1⟩, fun g hg => ?_⟩
    obtain ⟨hg1, hg2⟩ := ih hfs g hg
    rw [htable] at hg1
    refine ⟨seen_touch_iff.mp hg1, fun c hc => hg2 c ?_⟩
    rw [show cursor _ = cursor s.inner from hf.2.1]
    exact hc

end Idle

theorem refed_timers {is js : List AppFrame} (h : Refed is js) : Refed (timers is) (timers js) := by
  obtain ⟨ks, hks, hsub, -⟩ := h
  have hnone : ∀ fs : List AppFrame, (timers fs).filter AppFrame.isMessage = [] := by
    intro fs
    simp [timers, List.filter_filter]
  exact ⟨timers ks, hks.filter _, hsub.filter _, by rw [hnone, hnone]⟩

theorem touches_refed {is js : List AppFrame} (h : Refed is js) :
    touches (touches t is) js = touches t is := by
  obtain ⟨ks, ⟨u, rfl⟩, -, hmsg⟩ := h
  have happ : touches t (u ++ ks) = touches (touches t u) ks := List.foldl_append
  rw [happ, ← touches_messages _ js, hmsg, touches_messages, touches_twice]

/-! ## The artifact -/

section Artifact

variable {codec : ImageCodec TableImage} {S : SnapshotStateMachine σ} {s live : Sessioned σ}
variable {img blob : Bytes} {p P : UInt64}

theorem freeze_eq (h : S.freeze s.inner = .ok (img, p)) (hblob : codec.encodeToVec s.image = .ok blob) :
    (machine codec S).freeze s = .ok (Bytes.le 8 blob.length ++ blob ++ img, p) := by
  simp [machine, freeze, h, hblob, Except.mapError, bind, Except.bind, pure, Except.pure]

/-- An artifact is an encoded table in front of an artifact of the inner machine. -/
theorem freeze_ok {art : Bytes} (h : (machine codec S).freeze s = .ok (art, p)) :
    ∃ img blob, S.freeze s.inner = .ok (img, p) ∧ codec.encodeToVec s.image = .ok blob ∧
      art = Bytes.le 8 blob.length ++ blob ++ img := by
  cases hin : S.freeze s.inner with
  | error e => simp [machine, freeze, hin, bind, Except.bind] at h
  | ok r =>
    cases hblob : codec.encodeToVec s.image with
    | error e => simp [machine, freeze, hin, hblob, Except.mapError, bind, Except.bind] at h
    | ok blob =>
      rw [freeze_eq hin hblob] at h
      cases h
      exact ⟨r.1, blob, rfl, rfl, rfl⟩

theorem machine_installSnapshot : (machine codec S).installSnapshot = installSnapshot codec S := rfl

theorem install_eq (hcodec : codec.Lawful) (hblob : codec.encodeToVec s.image = .ok blob)
    (hlen : blob.length ≤ maxTableBlobLen) (hcfg : live.table.cfg = s.table.cfg) :
    (machine codec S).installSnapshot live P (Bytes.le 8 blob.length ++ blob ++ img) =
      (S.installSnapshot live.inner P img).map fun r =>
        ({ inner := r.1
           table :=
            ⟨s.table.cfg, s.table.clients, MapSum.total ClientState.windowBytes s.table.clients⟩
           maxPosSeen := S.lastApplied r.1 }, r.2) := by
  have hshort : blob.length < 2 ^ 64 := by
    unfold maxTableBlobLen at hlen
    omega
  have hread := Bytes.readNum_le (show blob.length < 256 ^ 8 by omega) (blob ++ img)
  have hdec := hcodec _ _ hblob hshort
  rw [machine_installSnapshot, installSnapshot, List.append_assoc, hread]
  simp only [bind, Except.bind, if_neg (Nat.not_lt.mpr hlen), pure, Except.pure, List.take_left,
    ne_eq, not_true_eq_false, if_false, hdec, Except.mapError, image, hcfg, List.drop_left]
  cases S.installSnapshot live.inner P img <;> rfl

theorem install_too_long (hlen : maxTableBlobLen < blob.length) (hshort : blob.length < 2 ^ 64) :
    (machine codec S).installSnapshot live P (Bytes.le 8 blob.length ++ blob ++ img) =
      .error (.codec ("session table blob length " ++ toString blob.length ++ " exceeds the " ++
        toString maxTableBlobLen ++ "-byte sanity bound")) := by
  have hread := Bytes.readNum_le (show blob.length < 256 ^ 8 by omega) (blob ++ img)
  rw [machine_installSnapshot, installSnapshot, List.append_assoc, hread]
  simp only [bind, Except.bind, if_pos hlen]
  rfl

end Artifact

/-! ## The restart -/

/-- Over an inner machine of which every `apply` moves the cursor. -/
def resumable {codec : ImageCodec TableImage} (hcodec : codec.Lawful) {S : SnapshotStateMachine σ}
    (R : S.Resumable) (hadv : ∀ a ctx cmd, R.cursor (S.apply a ctx cmd).1 = some ctx.position) :
    (machine codec S).Resumable where
  cursor s := R.cursor s.inner
  Same := Lift R.Same
  refl s := ⟨R.refl s.inner, rfl⟩
  trans h h' := ⟨R.trans h.1 h'.1, h.2.trans h'.2⟩
  sim := sim R.sim
  step_cursor s f := by
    cases hm : f.isMessage with
    | false =>
      obtain ⟨h1, -, h3⟩ := step_of_timer (S := S) (s := s) hm
      show R.cursor ((raw S.toRawStateMachine).step s f).1.inner = _ ∨
        (R.cursor ((raw S.toRawStateMachine).step s f).1.inner = _ ∧
          ((raw S.toRawStateMachine).step s f).2.1.timers = [])
      rw [h1, h3]
      exact R.step_cursor s.inner f
    | true =>
      by_cases hseen : Seen s.table f
      · obtain ⟨h1, -, h3⟩ := step_of_seen (S := S) hm hseen
        exact .inr ⟨congrArg R.cursor h1, h3⟩
      · obtain ⟨e, he, hnot⟩ : ∃ e, f.envelope = some e ∧
            (s.table.see e.clientId f.ctx.position).retry e.seq = none := by
          simp only [Seen, not_forall] at hseen
          obtain ⟨e, he, hnot⟩ := hseen
          refine ⟨e, he, ?_⟩
          by_contra hr
          obtain ⟨out, hout⟩ := Option.ne_none_iff_exists'.mp hr
          exact hnot (SessionTable.answered_of_retry hout)
        left
        show R.cursor ((raw S.toRawStateMachine).step s f).1.inner = _
        rw [step_fresh he hnot]
        exact hadv _ _ _
  step_seen s f p hp := by
    obtain ⟨hinner, hmark⟩ := step_inner (S := S.toRawStateMachine) s f
    rcases mem_maxPos hp with hp | hp
    · have hp' : p ∈ maxPos (some f.ctx.position) s.maxPosSeen ∨ p = f.ctx.position := by
        rcases hmark with hmark | hmark
        · exact .inr (Option.some.inj (hp.symm.trans hmark))
        · exact .inl (hmark ▸ hp)
      rcases hp' with hp' | rfl
      · rcases mem_maxPos hp' with hp' | hp'
        · cases hp'
          exact .inl (UInt64.le_refl _)
        · exact .inr (le_maxPos (.inl hp'))
      · exact .inl (UInt64.le_refl _)
    · rcases hinner with hsame | ⟨b, hb⟩
      · rw [show ((machine codec S).step s f).1.inner = s.inner from hsame] at hp
        exact .inr (le_maxPos (.inr hp))
      · rw [show ((machine codec S).step s f).1.inner = _ from hb] at hp
        rcases R.step_seen s.inner ⟨f.ctx, b⟩ p hp with hle | ⟨p₀, hp₀, hle⟩
        · exact .inl hle
        · obtain ⟨q, hq, hle'⟩ := le_maxPos (a := s.maxPosSeen) (.inr hp₀)
          exact .inr ⟨q, hq, UInt64.le_trans hle hle'⟩
  settle s is js his hjs := by
    have hseen := seen_of_idle_run hadv his
    have hinner := (idle_iff (fun f hf => (hseen f hf).1) fun f hf => (hseen f hf).2).mp his
    obtain ⟨hrun1, hrun2⟩ := run_of_seen (S := S) fun f hf => (hseen f hf).1
    obtain ⟨hidle, hsame⟩ := R.settle _ _ _ hinner (refed_timers hjs)
    have hmem : ∀ f ∈ js, f ∈ is := by
      obtain ⟨ks, hks, hsub, -⟩ := hjs
      exact fun f hf => hks.mem (hsub.mem hf)
    have hseen' : ∀ f ∈ js, Seen ((raw S.toRawStateMachine).run s is).table f := by
      intro f hf
      rw [hrun2]
      exact seen_touches (hseen f (hmem f hf)).1 is
    have habove : ∀ f ∈ js, ∀ c ∈ R.cursor ((raw S.toRawStateMachine).run s is).inner,
        c < f.ctx.position := by
      intro f hf
      rw [hrun1, hinner.run_cursor]
      exact (hseen f (hmem f hf)).2
    obtain ⟨hrun1', hrun2'⟩ := run_of_seen (S := S) hseen'
    refine ⟨(idle_iff hseen' habove).mpr (by rw [hrun1]; exact hidle), ?_, ?_⟩
    · show R.Same ((raw S.toRawStateMachine).run s is).inner _
      rw [show ((machine codec S).run ((machine codec S).run s is) js).inner = _ from hrun1', hrun1]
      exact hsame
    · show ((raw S.toRawStateMachine).run s is).table = _
      rw [show ((machine codec S).run ((machine codec S).run s is) js).table = _ from hrun2', hrun2]
      exact (touches_refed hjs).symm
  Peer live s := R.Peer live.inner s.inner ∧ live.table.cfg = s.table.cfg
  Keeps live s := R.Keeps live.inner s.inner
  Fits s := R.Fits s.inner ∧ codec.Within s.image maxTableBlobLen ∧ s.table.Exact
  restore := by
    rintro s live art p P ⟨hfits, hlen, hexact⟩ ⟨hpeer, hcfg⟩ hfreeze hP
    obtain ⟨img, blob, hin, hblob, rfl⟩ := freeze_ok hfreeze
    obtain ⟨b, hb, hsame, hseen, hkeeps⟩ := R.restore hfits hpeer hin hP
    refine ⟨_, by rw [install_eq hcodec hblob (hlen.le hblob) hcfg, hb]; rfl, ⟨hsame, ?_⟩, ?_, hkeeps⟩
    · rw [← hexact]
    · show maxPos (S.lastApplied b) (S.lastApplied b) = _
      rw [maxPos_self, hseen]

end Sessioned

end UltimaCluster
