/-
  The wrappers over an inner machine that restarts with state of its own.

  The inner machine comes back as it was after the frames up to its `last_applied`; the
  wrapper comes back empty, and reports the same position.  What the framework feeds again
  is what lies above it.
-/
import UltimaCluster.ExactlyOnce
import UltimaCluster.TimerDelivery

namespace UltimaCluster

open Std SnapshotStateMachine

variable {σ : Type} {S : RawStateMachine σ}

/-- The frames above what a machine has applied, as the log holds them. -/
structure Fed (M : RawStateMachine σ) (s : σ) (fs : List AppFrame) : Prop where
  above : ∀ f ∈ fs, M.above s f = true
  ordered : AppFrame.Ordered fs

/-- The inner machine has applied up to the last position there is. -/
def LogFull (S : RawStateMachine σ) (inner : σ) : Prop :=
  S.lastApplied inner = some (.ofNat (2 ^ 64 - 1))

/-- A position above the last one of the inner machine. -/
def nextPosition (S : RawStateMachine σ) (inner : σ) : UInt64 :=
  match S.lastApplied inner with
  | none => 0
  | some x => x + 1

theorem lt_nextPosition {inner : σ} (h : ¬ LogFull S inner) :
    (S.lastApplied inner).all (· < nextPosition S inner) = true := by
  unfold nextPosition
  unfold LogFull at h
  cases hx : S.lastApplied inner with
  | none => rfl
  | some x =>
    have hlt : x.toNat + 1 < 2 ^ 64 := by
      have hbound := x.toNat_lt
      have hne : x.toNat ≠ 2 ^ 64 - 1 := fun he => h (by rw [hx, ← he, UInt64.ofNat_toNat])
      omega
    simp only [Option.all_some, decide_eq_true_eq]
    rw [UInt64.lt_iff_toNat_lt, UInt64.toNat_add]
    simp only [UInt64.toNat_one]
    rw [Nat.mod_eq_of_lt hlt]
    exact Nat.lt_succ_self _

theorem Fed.nil_of_full {M : RawStateMachine σ} {s : σ} {fs : List AppFrame} (h : Fed M s fs)
    (hfull : M.lastApplied s = some (.ofNat (2 ^ 64 - 1))) : fs = [] := by
  refine List.eq_nil_iff_forall_not_mem.mpr fun f hf => ?_
  have habove := h.above f hf
  simp only [RawStateMachine.above, hfull, Option.all_some, decide_eq_true_eq] at habove
  have hlt : (2 ^ 64 - 1 : ℕ) < f.ctx.position.toNat := habove
  have := f.ctx.position.toNat_lt
  omega

theorem maxPos_of_lt {p : UInt64} {m : Option UInt64} (h : ∀ q ∈ m, q < p) :
    maxPos (some p) m = some p := by
  cases m with
  | none => rfl
  | some q =>
    have hq := h q rfl
    simp only [maxPos]
    rw [if_neg (by grind)]

/-- A mark that the position `m` covers does not count. -/
theorem maxPos_of_cover {a m : Option UInt64} (h : ∀ q ∈ a, m.all (· < q) = false) :
    maxPos a m = m := by
  cases a with
  | none => rfl
  | some q =>
    have hq := h q rfl
    cases m with
    | none => cases hq
    | some x =>
      simp only [maxPos]
      rw [if_pos (by grind)]

theorem maxPos_comm (a b : Option UInt64) : maxPos a b = maxPos b a := by
  cases a <;> cases b <;> simp [maxPos]
  grind

namespace RawStateMachine

theorem Sim.same : S.Sim S Eq := by
  refine ⟨?_, ?_⟩
  · rintro a _ rfl ctx cmd
    exact ⟨rfl, rfl⟩
  · rintro a _ rfl ctx ev
    exact ⟨rfl, rfl⟩

theorem feed_of_above {s : σ} {f : AppFrame} (h : S.above s f = true) :
    S.feed s f = ((S.step s f).1, some (S.step s f).2) := if_pos h

/-- States that stand at one position, and that a frame above it leaves alike, are answered
    alike. -/
theorem replay_alike {R : σ → σ → Prop} (hlast : ∀ {a b}, R a b → S.lastApplied a = S.lastApplied b)
    (hstep : ∀ {a b f}, R a b → S.above a f = true →
      R (S.step a f).1 (S.step b f).1 ∧ (S.step a f).2 = (S.step b f).2)
    {a b : σ} (h : R a b) (fs : List AppFrame) :
    R (S.replay a fs) (S.replay b fs) ∧ S.replayAnswers a fs = S.replayAnswers b fs := by
  induction fs generalizing a b with
  | nil => exact ⟨h, rfl⟩
  | cons f fs ih =>
    have habove : S.above b f = S.above a f := by
      unfold above
      rw [hlast h]
    have hfeed : R (S.feed a f).1 (S.feed b f).1 ∧ (S.feed a f).2 = (S.feed b f).2 := by
      by_cases hf : S.above a f = true
      · rw [feed_of_above hf, feed_of_above (habove.trans hf)]
        exact ⟨(hstep h hf).1, congrArg some (hstep h hf).2⟩
      · unfold feed
        rw [habove, if_neg hf, if_neg hf]
        exact ⟨h, rfl⟩
    obtain ⟨hrest, hans⟩ := ih hfeed.1
    refine ⟨hrest, ?_⟩
    rw [replayAnswers, replayAnswers, hfeed.2, hans]

end RawStateMachine

/-! ## Sessions -/

namespace Sessioned

variable {s : Sessioned σ}

/-- The wrapper after a restart over the persisted inner machine. -/
def restart (s : Sessioned σ) : Sessioned σ := .new s.inner s.table.cfg

/-- Once the frames above the last applied position are replayed, every later one is answered
    as on `s`, which did not restart. -/
def Rebuilds (S : RawStateMachine σ) (s : Sessioned σ) : Prop :=
  ∀ mid post, Fed (raw S) s.restart (mid ++ post) →
    (raw S).replayAnswers ((raw S).replay s.restart mid) post =
      (raw S).replayAnswers ((raw S).replay s mid) post

theorem replay_ok (h : s.table.Ok) (fs : List AppFrame) : ((raw S).replay s fs).table.Ok := by
  induction fs generalizing s with
  | nil => exact h
  | cons f fs ih =>
    refine ih (s := ((raw S).feed s f).1) ?_
    unfold RawStateMachine.feed
    split
    · exact step_ok h
    · exact h

theorem replay_mark (fs : List AppFrame) {q : UInt64} (hq : q ∈ ((raw S).replay s fs).maxPosSeen) :
    q ∈ s.maxPosSeen ∨ ∃ f ∈ fs, f.ctx.position = q := by
  induction fs generalizing s with
  | nil => exact .inl hq
  | cons f fs ih =>
    rcases ih (s := ((raw S).feed s f).1) hq with hmark | ⟨g, hg, hpos⟩
    · unfold RawStateMachine.feed at hmark
      split at hmark
      · rcases (step_inner (S := S) s f).2 with hstep | hstep
        · rw [hstep] at hmark
          exact .inr ⟨f, by simp, Option.some.inj hmark⟩
        · rw [hstep] at hmark
          rcases mem_maxPos hmark with hnew | hold
          · exact .inr ⟨f, by simp, Option.some.inj hnew⟩
          · exact .inl hold
      · exact .inl hmark
    · exact .inr ⟨g, by simp [hg], hpos⟩

theorem step_alike {a b : Sessioned σ} {f : AppFrame}
    (h : Lift Eq a b ∧ lastApplied S a = lastApplied S b) (hf : (raw S).above a f = true) :
    (Lift Eq ((raw S).step a f).1 ((raw S).step b f).1 ∧
      lastApplied S ((raw S).step a f).1 = lastApplied S ((raw S).step b f).1) ∧
      ((raw S).step a f).2 = ((raw S).step b f).2 := by
  obtain ⟨hlift, hlast⟩ := h
  obtain ⟨hnext, hout⟩ := (sim (RawStateMachine.Sim.same (S := S))).step hlift f
  -- every frame above the mark leaves the mark at its own position
  have hmark : ∀ {c : Sessioned σ}, lastApplied S c = lastApplied S a →
      ((raw S).step c f).1.maxPosSeen = some f.ctx.position := by
    intro c hc
    have hlt : ∀ q ∈ c.maxPosSeen, q < f.ctx.position := by
      intro q hq
      obtain ⟨r, hr, hle⟩ := le_maxPos (b := S.lastApplied c.inner) (.inl hq)
      have hr' : lastApplied S a = some r := hc ▸ hr
      simp only [RawStateMachine.above, raw, hr', Option.all_some, decide_eq_true_eq] at hf
      exact UInt64.lt_of_le_of_lt hle hf
    rcases (step_inner (S := S) c f).2 with hstep | hstep
    · exact hstep
    · rw [hstep, maxPos_of_lt hlt]
  refine ⟨⟨hnext, ?_⟩, hout⟩
  unfold lastApplied
  rw [hmark rfl, hmark hlast.symm, hnext.1]

theorem rebuilds_of_empty (hok : s.table.Ok) (hlast : lastApplied S s = S.lastApplied s.inner)
    (hempty : s.table.clients = ∅) : Rebuilds S s := by
  have htable : s.restart.table = s.table := by
    refine table_ext rfl ?_ fun c => ?_
    · rw [hok.exact, hempty]
      exact MapSum.total_empty.symm
    · rw [hempty]
      rfl
  have hsame : Lift Eq s.restart s ∧ lastApplied S s.restart = lastApplied S s :=
    ⟨⟨rfl, htable⟩, hlast.symm⟩
  intro mid post _
  have hmid := RawStateMachine.replay_alike (S := raw S) And.right step_alike hsame mid
  exact (RawStateMachine.replay_alike (S := raw S) And.right step_alike hmid.1 post).2

/-- A command that a client of the table has sent before. -/
def again (position c q : UInt64) : AppFrame :=
  ⟨⟨position, 0, 0⟩, .message (Bytes.le 8 c.toNat ++ Bytes.le 8 q.toNat)⟩

theorem again_envelope (position c q : UInt64) :
    (again position c q).envelope = some ⟨c, q, []⟩ := by
  have hc : c.toNat < 256 ^ 8 := by have := c.toNat_lt; omega
  have hq : q.toNat < 256 ^ 8 := by have := q.toNat_lt; omega
  have hlen : (Bytes.le 8 c.toNat ++ Bytes.le 8 q.toNat).length = 16 := by simp
  simp only [AppFrame.envelope, again, Envelope.read, sessionHeaderLen, hlen]
  rw [if_neg (by omega), Bytes.num_append_left (by simp), Bytes.num_le hc,
    Bytes.num_append_le (by simp) (by simp) hq, List.drop_eq_nil_of_le (by simp)]
  simp

theorem retry_of_client {c q p : UInt64} {st : ClientState} (hst : s.table.clients[c]? = some st)
    (hq : st.highestSeq = some q) :
    ∃ tag rest, (s.table.see c p).retry q = some (tag :: rest) ∧ tag ≠ tagFresh := by
  have hle : q ≤ q := UInt64.le_refl q
  simp only [SessionTable.see, hst, Option.getD_some, ClientState.retry, hq, if_pos hle]
  cases hf : st.window.find? (fun e => e.1 == q) with
  | some e => exact ⟨tagReplayed, e.2, rfl, by decide⟩
  | none => exact ⟨tagExpired, [], rfl, by decide⟩

theorem empty_of_rebuilds (hok : s.table.Ok) (hlast : lastApplied S s = S.lastApplied s.inner)
    (hroom : ¬ LogFull S s.inner) (h : Rebuilds S s) : s.table.clients = ∅ := by
  refine ExtTreeMap.ext_getElem? fun c => ?_
  rw [ExtTreeMap.getElem?_empty]
  by_contra hne
  obtain ⟨st, hst⟩ := Option.ne_none_iff_exists'.mp hne
  obtain ⟨q, hq, -⟩ := (hok.sane c st hst).highest
  -- the client sends its highest number again
  have hnext : (raw S).above s.restart (again (nextPosition S s.inner) c q) = true :=
    lt_nextPosition hroom
  have hnext' : (raw S).above s (again (nextPosition S s.inner) c q) = true := by
    simp only [RawStateMachine.above, raw, hlast]
    exact lt_nextPosition hroom
  have hfed : Fed (raw S) s.restart ([] ++ [again (nextPosition S s.inner) c q]) := by
    refine ⟨fun f hf => ?_, List.pairwise_singleton _ _⟩
    obtain rfl := List.mem_singleton.mp hf
    exact hnext
  have hans := h [] [again (nextPosition S s.inner) c q] hfed
  have henv := again_envelope (nextPosition S s.inner) c q
  have hfresh : (s.restart.table.see c (nextPosition S s.inner)).retry q = none := by
    simp [restart, new, SessionTable.new, SessionTable.see, ClientState.retry]
  obtain ⟨tag, rest, hretry, htag⟩ := retry_of_client (p := nextPosition S s.inner) hst hq
  simp only [RawStateMachine.replay, List.foldl_nil, RawStateMachine.replayAnswers,
    RawStateMachine.feed_of_above hnext, RawStateMachine.feed_of_above hnext'] at hans
  rw [step_fresh henv hfresh, step_retry henv hretry] at hans
  simp only [List.cons.injEq, Option.some.injEq, Prod.mk.injEq, and_true] at hans
  exact htag hans.2.1.symm

theorem lastApplied_of_cover {inner : σ} {cfg : SessionConfig} {pre : List AppFrame}
    (hcover : ∀ f ∈ pre, S.above ((raw S).replay (.new inner cfg) pre).inner f = false) :
    lastApplied S ((raw S).replay (.new inner cfg) pre) =
      S.lastApplied ((raw S).replay (.new inner cfg) pre).inner := by
  refine maxPos_of_cover fun q hq => ?_
  rcases replay_mark pre hq with hnew | ⟨f, hf, rfl⟩
  · cases hnew
  · exact hcover f hf

end Sessioned

/-! ## Timers -/

namespace Timed

variable {t : Timed σ}

def restart (t : Timed σ) : Timed σ := .new t.inner

/-- The frames that the guard and the wrapper let through to the inner machine. -/
def handed (S : RawStateMachine σ) : Timed σ → List AppFrame → List AppFrame
  | _, [] => []
  | t, f :: fs => (if (raw S).above t f then reach t f else []) ++ handed S ((raw S).feed t f).1 fs

/-- Once the frames above the last applied position are replayed, every later one is answered,
    and is handed on or not, as on `t`, which did not restart. -/
def Rebuilds (S : RawStateMachine σ) (t : Timed σ) : Prop :=
  ∀ mid post, Fed (raw S) t.restart (mid ++ post) →
    (raw S).replayAnswers ((raw S).replay t.restart mid) post =
        (raw S).replayAnswers ((raw S).replay t mid) post ∧
      handed S ((raw S).replay t.restart mid) post = handed S ((raw S).replay t mid) post

theorem lastApplied_restart (t : Timed σ) : lastApplied S t.restart = S.lastApplied t.inner :=
  maxPos_comm _ _

theorem step_mark (t : Timed σ) (f : AppFrame) :
    ((raw S).step t f).1.maxPosSeen = maxPos (some f.ctx.position) t.maxPosSeen := by
  cases hb : f.body with
  | message cmd => rw [step_message (by simp [AppFrame.isMessage, hb])]
  | timer ev =>
    cases hd : t.deliver ev with
    | true => rw [step_delivered hb hd]
    | false => rw [step_dropped hb hd]

theorem replay_mark (fs : List AppFrame) {q : UInt64} (hq : q ∈ ((raw S).replay t fs).maxPosSeen) :
    q ∈ t.maxPosSeen ∨ ∃ f ∈ fs, f.ctx.position = q := by
  induction fs generalizing t with
  | nil => exact .inl hq
  | cons f fs ih =>
    rcases ih (t := ((raw S).feed t f).1) hq with hmark | ⟨g, hg, hpos⟩
    · unfold RawStateMachine.feed at hmark
      split at hmark
      · rw [step_mark] at hmark
        rcases mem_maxPos hmark with hnew | hold
        · exact .inr ⟨f, by simp, Option.some.inj hnew⟩
        · exact .inl hold
      · exact .inl hmark
    · exact .inr ⟨g, by simp [hg], hpos⟩

theorem step_alike {a b : Timed σ} {f : AppFrame}
    (h : Lift Eq a b ∧ lastApplied S a = lastApplied S b) (hf : (raw S).above a f = true) :
    (Lift Eq ((raw S).step a f).1 ((raw S).step b f).1 ∧
      lastApplied S ((raw S).step a f).1 = lastApplied S ((raw S).step b f).1) ∧
      ((raw S).step a f).2 = ((raw S).step b f).2 := by
  obtain ⟨hlift, hlast⟩ := h
  obtain ⟨hnext, hout⟩ := (sim (RawStateMachine.Sim.same (S := S))).step hlift f
  have hmark : ∀ {c : Timed σ}, lastApplied S c = lastApplied S a →
      ((raw S).step c f).1.maxPosSeen = some f.ctx.position := by
    intro c hc
    rw [step_mark]
    refine maxPos_of_lt fun q hq => ?_
    obtain ⟨r, hr, hle⟩ := le_maxPos (a := S.lastApplied c.inner) (.inr hq)
    have hr' : lastApplied S a = some r := hc ▸ hr
    simp only [RawStateMachine.above, raw, hr', Option.all_some, decide_eq_true_eq] at hf
    exact UInt64.lt_of_le_of_lt hle hf
  refine ⟨⟨hnext, ?_⟩, hout⟩
  unfold lastApplied
  rw [hmark rfl, hmark hlast.symm, hnext.1]

theorem handed_alike {a b : Timed σ} (h : Lift Eq a b ∧ lastApplied S a = lastApplied S b)
    (fs : List AppFrame) : handed S a fs = handed S b fs := by
  induction fs generalizing a b with
  | nil => rfl
  | cons f fs ih =>
    have hreach : reach a f = reach b f := by
      unfold reach
      cases f.body with
      | message cmd => rfl
      | timer ev =>
        dsimp only
        rw [deliver_congr h.1.2.1 h.1.2.2]
    have habove : (raw S).above a f = (raw S).above b f := by
      simp only [RawStateMachine.above, raw, h.2]
    have hone : Lift Eq ((raw S).feed a f).1 ((raw S).feed b f).1 ∧
        lastApplied S ((raw S).feed a f).1 = lastApplied S ((raw S).feed b f).1 :=
      (RawStateMachine.replay_alike (S := raw S) And.right step_alike h [f]).1
    rw [handed, handed, hreach, habove, ih hone]

theorem rebuilds_of_empty (hlast : lastApplied S t = S.lastApplied t.inner) (hp : t.pending = ∅)
    (hl : t.tableLast = ∅) : Rebuilds S t := by
  have hsame : Lift Eq t.restart t ∧ lastApplied S t.restart = lastApplied S t :=
    ⟨⟨rfl, hp.symm, hl.symm⟩, (lastApplied_restart t).trans hlast.symm⟩
  intro mid post _
  have hmid := RawStateMachine.replay_alike (S := raw S) And.right step_alike hsame mid
  exact ⟨(RawStateMachine.replay_alike (S := raw S) And.right step_alike hmid.1 post).2,
    handed_alike hmid.1 post⟩

theorem Rebuilds.deliver (h : Rebuilds S t) (hlast : lastApplied S t = S.lastApplied t.inner)
    (hroom : ¬ LogFull S t.inner) (ev : TimerEvent) : t.restart.deliver ev = t.deliver ev := by
  let f : AppFrame := ⟨⟨nextPosition S t.inner, 0, 0⟩, .timer ev⟩
  have hnext : (raw S).above t.restart f = true := by
    simp only [RawStateMachine.above, raw, lastApplied_restart]
    exact lt_nextPosition hroom
  have hnext' : (raw S).above t f = true := by
    simp only [RawStateMachine.above, raw, hlast]
    exact lt_nextPosition hroom
  have hfed : Fed (raw S) t.restart ([] ++ [f]) := by
    refine ⟨fun g hg => ?_, List.pairwise_singleton _ _⟩
    obtain rfl := List.mem_singleton.mp hg
    exact hnext
  have hreach : reach t.restart f = reach t f := by
    simpa [RawStateMachine.replay, handed, hnext, hnext'] using (h [] [f] hfed).2
  cases hr : t.restart.deliver ev <;> cases ht : t.deliver ev <;> simp_all [reach, f]

theorem empty_of_rebuilds (hlast : lastApplied S t = S.lastApplied t.inner)
    (hroom : ¬ LogFull S t.inner) (h : Rebuilds S t) : t.pending = ∅ ∧ t.tableLast = ∅ := by
  constructor
  · refine ExtTreeMap.ext_getElem? fun id => ?_
    rw [ExtTreeMap.getElem?_empty]
    by_contra hne
    obtain ⟨d, hd⟩ := Option.ne_none_iff_exists'.mp hne
    have hsame := h.deliver hlast hroom ⟨id, d, false⟩
    simp [Timed.deliver, restart, new, hd] at hsame
  · refine ExtTreeMap.ext_getElem? fun id => ?_
    rw [ExtTreeMap.getElem?_empty]
    by_contra hne
    obtain ⟨d, hd⟩ := Option.ne_none_iff_exists'.mp hne
    have hsame := h.deliver hlast hroom ⟨id, d, true⟩
    simp [Timed.deliver, restart, new, hd] at hsame

theorem lastApplied_of_cover {inner : σ} {pre : List AppFrame}
    (hcover : ∀ f ∈ pre, S.above ((raw S).replay (.new inner) pre).inner f = false) :
    lastApplied S ((raw S).replay (.new inner) pre) =
      S.lastApplied ((raw S).replay (.new inner) pre).inner := by
  unfold lastApplied
  rw [maxPos_comm]
  refine maxPos_of_cover fun q hq => ?_
  rcases replay_mark pre hq with hnew | ⟨f, hf, rfl⟩
  · cases hnew
  · exact hcover f hf

end Timed

/-- `inner` comes back as the log `pre` left it, having applied all of it. -/
theorem rebuilds_iff (S : RawStateMachine σ) (inner : σ) (cfg : SessionConfig) (pre : List AppFrame) :
    ((∀ f ∈ pre, S.above ((Sessioned.raw S).replay (.new inner cfg) pre).inner f = false) →
      (Sessioned.Rebuilds S ((Sessioned.raw S).replay (.new inner cfg) pre) ↔
        ((Sessioned.raw S).replay (.new inner cfg) pre).table.clients = ∅ ∨
          LogFull S ((Sessioned.raw S).replay (.new inner cfg) pre).inner)) ∧
    ((∀ f ∈ pre, S.above ((Timed.raw S).replay (.new inner) pre).inner f = false) →
      (Timed.Rebuilds S ((Timed.raw S).replay (.new inner) pre) ↔
        (((Timed.raw S).replay (.new inner) pre).pending = ∅ ∧
          ((Timed.raw S).replay (.new inner) pre).tableLast = ∅) ∨
          LogFull S ((Timed.raw S).replay (.new inner) pre).inner)) := by
  constructor
  · intro hcover
    have hok := Sessioned.replay_ok (S := S) (s := .new inner cfg) (SessionTable.Ok.new cfg) pre
    have hlast := Sessioned.lastApplied_of_cover hcover
    constructor
    · intro h
      by_cases hfull : LogFull S ((Sessioned.raw S).replay (.new inner cfg) pre).inner
      · exact .inr hfull
      · exact .inl (Sessioned.empty_of_rebuilds hok hlast hfull h)
    · rintro (hempty | hfull)
      · exact Sessioned.rebuilds_of_empty hok hlast hempty
      · intro mid post hfed
        have hnil := hfed.nil_of_full hfull
        rw [(List.append_eq_nil_iff.mp hnil).2]
        rfl
  · intro hcover
    have hlast := Timed.lastApplied_of_cover hcover
    constructor
    · intro h
      by_cases hfull : LogFull S ((Timed.raw S).replay (.new inner) pre).inner
      · exact .inr hfull
      · exact .inl (Timed.empty_of_rebuilds hlast hfull h)
    · rintro (⟨hp, hl⟩ | hfull)
      · exact Timed.rebuilds_of_empty hlast hp hl
      · intro mid post hfed
        have hnil := hfed.nil_of_full ((Timed.lastApplied_restart _).trans hfull)
        rw [(List.append_eq_nil_iff.mp hnil).2]
        exact ⟨rfl, rfl⟩

/-- Asks for timer 3 at 500 on every command, and remembers where a timer was handed to it. -/
def ticking : RawStateMachine (Option UInt64) :=
  { asking.toRawStateMachine with onTimer := fun _ ctx _ => (some ctx.position, {}) }

/-- Under `Timed`, the command of 32 asks for the timer that is delivered at 96; under
    `Sessioned`, it is malformed. -/
def askedAndFired : List AppFrame :=
  [⟨⟨32, 0, 0⟩, .message [1]⟩, ⟨⟨96, 0, 0⟩, .timer ⟨3, 500, false⟩⟩]

/-- No client is left in the table, and no timer in the set: both rebuild at 96. -/
theorem rebuilds_iff_fired :
    (∃ s, s = (Sessioned.raw ticking).replay (.new none ⟨4, 4, 100⟩) askedAndFired ∧
      s.inner = some 96 ∧ Sessioned.Rebuilds ticking s) ∧
    ∃ t, t = (Timed.raw ticking).replay (.new none) askedAndFired ∧
      Timed.handed ticking (.new none) askedAndFired = askedAndFired ∧ t.inner = some 96 ∧
      Timed.Rebuilds ticking t := by
  obtain ⟨hsession, htimed⟩ := rebuilds_iff ticking none ⟨4, 4, 100⟩ askedAndFired
  refine ⟨⟨_, rfl, by decide +kernel, (hsession (by decide +kernel)).mpr (.inl rfl)⟩, _, rfl,
    by decide +kernel, by decide +kernel, (htimed (by decide +kernel)).mpr (.inl ⟨?_, rfl⟩)⟩
  exact ExtTreeMap.eq_empty_iff_size_eq_zero.mpr (by decide +kernel)

/-- The inner machines come back at 32. The command of 32 is run again at 96, and the timer
    that it asked for is not delivered. -/
theorem wrapper_forgets :
    (∃ s, s = (Sessioned.raw (cursorMachine id).toRawStateMachine).replay (.new none ⟨4, 4, 100⟩)
        [Sessioned.command 32 1 [5]] ∧ s.inner = some 32 ∧
      (Sessioned.raw (cursorMachine id).toRawStateMachine).replayAnswers s
        [Sessioned.command 96 1 [5]] = [some ({}, [tagReplayed, 5])] ∧
      (Sessioned.raw (cursorMachine id).toRawStateMachine).replayAnswers s.restart
        [Sessioned.command 96 1 [5]] = [some ({}, [tagFresh, 5])] ∧
      ¬ Sessioned.Rebuilds (cursorMachine id).toRawStateMachine s) ∧
    ∃ t, t = (Timed.raw asking.toRawStateMachine).replay (.new none) [⟨⟨32, 0, 0⟩, .message [1]⟩] ∧
      t.inner = some 32 ∧
      Timed.handed asking.toRawStateMachine t [⟨⟨96, 0, 0⟩, .timer ⟨3, 500, false⟩⟩] =
        [⟨⟨96, 0, 0⟩, .timer ⟨3, 500, false⟩⟩] ∧
      Timed.handed asking.toRawStateMachine t.restart [⟨⟨96, 0, 0⟩, .timer ⟨3, 500, false⟩⟩] = [] ∧
      ¬ Timed.Rebuilds asking.toRawStateMachine t := by
  refine ⟨⟨_, rfl, rfl, ?_, ?_, ?_⟩, _, rfl, rfl, ?_, ?_, ?_⟩
  · decide +kernel
  · decide +kernel
  · intro h
    have hans := h [] [Sessioned.command 96 1 [5]] ⟨by decide +kernel, List.pairwise_singleton _ _⟩
    revert hans
    decide +kernel
  · decide +kernel
  · decide +kernel
  · intro h
    have hans := (h [] [⟨⟨96, 0, 0⟩, .timer ⟨3, 500, false⟩⟩]
      ⟨by decide +kernel, List.pairwise_singleton _ _⟩).2
    revert hans
    decide +kernel

end UltimaCluster
