/-
  `Sessioned` over whole runs, for every inner machine.

  A frame leaves the table, touches the client of a retry, or records a fresh
  response (`step_table`). From that: the bounds of the table hold after every
  frame, and a pair that has been seen stays answered for as long as its client is
  in the table.
-/
import UltimaCluster.SessionLaws

namespace UltimaCluster

open Std

/-- The envelope of a frame, if it carries one. -/
def AppFrame.envelope (f : AppFrame) : Option Envelope :=
  match f.body with
  | .message cmd => Envelope.read cmd
  | .timer _ => none

namespace Sessioned

variable {σ τ : Type} {S : RawStateMachine σ}

section Step

variable {s : Sessioned σ} {f : AppFrame} {e : Envelope}

theorem step_retry {out : Bytes} (he : f.envelope = some e)
    (hr : (s.table.see e.clientId f.ctx.position).retry e.seq = some out) :
    (raw S).step s f = ({ s with
          table := { s.table with
            clients := s.table.clients.insert e.clientId (s.table.see e.clientId f.ctx.position) }
          maxPosSeen := some f.ctx.position }, {}, out) := by
  unfold AppFrame.envelope at he
  unfold RawStateMachine.step
  cases hb : f.body with
  | message cmd =>
    rw [hb] at he
    simp only [raw, apply, he, hr]
  | timer ev =>
    rw [hb] at he
    cases he

theorem step_fresh (he : f.envelope = some e)
    (hr : (s.table.see e.clientId f.ctx.position).retry e.seq = none) :
    (raw S).step s f =
      ({ inner := (S.apply s.inner f.ctx e.body).1
         table := s.table.record e.clientId e.seq (s.table.see e.clientId f.ctx.position)
          (S.apply s.inner f.ctx e.body).2.2
         maxPosSeen := some f.ctx.position },
        (S.apply s.inner f.ctx e.body).2.1, tagFresh :: (S.apply s.inner f.ctx e.body).2.2) := by
  unfold AppFrame.envelope at he
  unfold RawStateMachine.step
  cases hb : f.body with
  | message cmd =>
    rw [hb] at he
    simp only [raw, apply, he, hr]
  | timer ev =>
    rw [hb] at he
    cases he

theorem step_timer {ev : TimerEvent} (hb : f.body = .timer ev) : (raw S).step s f = ({ s with
          inner := (S.onTimer s.inner f.ctx ev).1
          maxPosSeen := maxPos (some f.ctx.position) s.maxPosSeen },
        (S.onTimer s.inner f.ctx ev).2, []) := by
  simp [RawStateMachine.step, hb, raw, onTimer]

theorem step_malformed {cmd : Bytes} (hb : f.body = .message cmd) (he : f.envelope = none) :
    (raw S).step s f = ({ s with maxPosSeen := some f.ctx.position }, {}, [tagExpired]) := by
  have he' : Envelope.read cmd = none := by
    rw [AppFrame.envelope, hb] at he
    exact he
  simp [RawStateMachine.step, hb, raw, apply, he']

theorem step_table_of_none (he : f.envelope = none) : ((raw S).step s f).1.table = s.table := by
  cases hb : f.body with
  | message cmd => rw [step_malformed hb he]
  | timer ev => rw [step_timer hb]

theorem step_inner (s : Sessioned σ) (f : AppFrame) : (((raw S).step s f).1.inner = s.inner ∨
        ∃ b, ((raw S).step s f).1.inner = (S.step s.inner ⟨f.ctx, b⟩).1) ∧
      (((raw S).step s f).1.maxPosSeen = some f.ctx.position ∨
        ((raw S).step s f).1.maxPosSeen = maxPos (some f.ctx.position) s.maxPosSeen) := by
  cases he : f.envelope with
  | none =>
    cases hb : f.body with
    | message cmd =>
      rw [step_malformed hb he]
      exact ⟨.inl rfl, .inl rfl⟩
    | timer ev =>
      rw [step_timer hb]
      exact ⟨.inr ⟨.timer ev, rfl⟩, .inr rfl⟩
  | some e =>
    cases hr : (s.table.see e.clientId f.ctx.position).retry e.seq with
    | some out =>
      rw [step_retry he hr]
      exact ⟨.inl rfl, .inl rfl⟩
    | none =>
      rw [step_fresh he hr]
      exact ⟨.inr ⟨.message e.body, rfl⟩, .inl rfl⟩

theorem step_table (s : Sessioned σ) (f : AppFrame) : ((raw S).step s f).1.table = s.table ∨
      (∃ c st, s.table.clients[c]? = some st ∧ ((raw S).step s f).1.table = { s.table with
          clients := s.table.clients.insert c { st with lastSeenPos := f.ctx.position } }) ∨
      ∃ c q r, (s.table.see c f.ctx.position).retry q = none ∧ ((raw S).step s f).1.table =
        s.table.record c q (s.table.see c f.ctx.position) r := by
  cases he : f.envelope with
  | none => exact .inl (step_table_of_none he)
  | some e =>
    cases hr : (s.table.see e.clientId f.ctx.position).retry e.seq with
    | some out =>
      obtain ⟨st, hst, hsee⟩ := SessionTable.see_of_retry hr
      rw [step_retry he hr, hsee]
      exact .inr (.inl ⟨e.clientId, st, hst, rfl⟩)
    | none =>
      rw [step_fresh he hr]
      exact .inr (.inr ⟨e.clientId, e.seq, _, hr, rfl⟩)

theorem step_ok (h : s.table.Ok) : ((raw S).step s f).1.table.Ok := by
  rcases step_table (S := S) s f with heq | ⟨c, st, hst, heq⟩ | ⟨c, q, r, hr, heq⟩
  · rwa [heq]
  · rw [heq]
    exact h.retry hst
  · rw [heq]
    exact h.record hr

theorem step_answered {c q : UInt64} {P : Bytes → Prop} (hok : s.table.Ok)
    (h : s.table.Answered c q P) (hc : c ∈ ((raw S).step s f).1.table.clients) :
    ((raw S).step s f).1.table.Answered c q P := by
  rcases step_table (S := S) s f with heq | ⟨d, st, hst, heq⟩ | ⟨d, q', r, hr, heq⟩
  · rwa [heq]
  · rw [heq]
    exact h.touch hst
  · rw [heq] at hc ⊢
    exact (h.write hr).shrinks (SessionTable.record_shrinks hok.exact) hc

end Step

theorem run_ok {s : Sessioned σ} (h : s.table.Ok) (fs : List AppFrame) :
    ((raw S).run s fs).table.Ok := by
  induction fs generalizing s with
  | nil => exact h
  | cons f fs ih => exact ih (step_ok h)

theorem step_cfg (s : Sessioned σ) (f : AppFrame) (h : s.table.Ok) :
    ((raw S).step s f).1.table.cfg = s.table.cfg := by
  rcases step_table (S := S) s f with heq | ⟨c, st, hst, heq⟩ | ⟨c, q, r, hr, heq⟩
  · rw [heq]
  · rw [heq]
  · rw [heq]
    exact (SessionTable.record_shrinks h.exact).cfg

theorem run_cfg {s : Sessioned σ} (h : s.table.Ok) (fs : List AppFrame) :
    ((raw S).run s fs).table.cfg = s.table.cfg := by
  induction fs generalizing s with
  | nil => rfl
  | cons f fs ih => exact (ih (step_ok h)).trans (step_cfg s f h)

/-! ## Retries -/

/-- The state before frame `k`, with the calls that the inner machine has taken. -/
def recorded (S : RawStateMachine σ) (inner : σ) (cfg : SessionConfig) (fs : List AppFrame) (k : ℕ) :
    Sessioned (σ × List (AppFrame × Sched × Bytes)) :=
  (raw S.recorder).run (.new (inner, []) cfg) (fs.take k)

section Recorded

variable {inner : σ} {cfg : SessionConfig} {fs : List AppFrame}

theorem recorded_succ {k : ℕ} {f : AppFrame} (hk : fs[k]? = some f) :
    recorded S inner cfg fs (k + 1) = ((raw S.recorder).step (recorded S inner cfg fs k) f).1 := by
  obtain ⟨hlt, rfl⟩ := List.getElem?_eq_some_iff.mp hk
  rw [recorded, List.take_succ_eq_append_getElem hlt, RawStateMachine.run_concat]
  rfl

theorem recorded_ok (k : ℕ) : (recorded S inner cfg fs k).table.Ok :=
  run_ok (SessionTable.Ok.new cfg) _

theorem answered_upTo {c q : UInt64} {P : Bytes → Prop} {i j : ℕ} (hij : i ≤ j) (hj : j ≤ fs.length)
    (h : (recorded S inner cfg fs i).table.Answered c q P)
    (hstay : ∀ k, i < k → k ≤ j → c ∈ (recorded S inner cfg fs k).table.clients) :
    (recorded S inner cfg fs j).table.Answered c q P := by
  induction j, hij using Nat.le_induction with
  | base => exact h
  | succ j hij ih =>
    have hprev := ih (by omega) fun k hk hkj => hstay k hk (by omega)
    have hget : fs[j]? = some fs[j] := List.getElem?_eq_getElem (by omega)
    have hnow := hstay (j + 1) (by omega) le_rfl
    rw [recorded_succ hget] at hnow ⊢
    exact step_answered (recorded_ok j) hprev hnow

/-- After a frame its pair is answered, by what the inner machine answered if the
    frame reached it. -/
theorem answered_succ {i : ℕ} {f : AppFrame} {e : Envelope} (hi : fs[i]? = some f)
    (he : f.envelope = some e)
    (hc : e.clientId ∈ (recorded S inner cfg fs (i + 1)).table.clients) :
    (recorded S inner cfg fs (i + 1)).table.Answered e.clientId e.seq fun w =>
      ∀ r, (recorded S inner cfg fs (i + 1)).inner.2 =
        (recorded S inner cfg fs i).inner.2 ++ [(⟨f.ctx, .message e.body⟩, r)] → w = r.2 := by
  have hok : (recorded S inner cfg fs i).table.Ok := recorded_ok i
  rw [recorded_succ hi] at hc ⊢
  generalize recorded S inner cfg fs i = s at hok hc ⊢
  cases hr : (s.table.see e.clientId f.ctx.position).retry e.seq with
  | some out =>
    obtain ⟨st, h, hst, hh, hle, -⟩ := SessionTable.answered_of_retry hr
    have hsee : s.table.see e.clientId f.ctx.position = { st with lastSeenPos := f.ctx.position } := by
      simp [SessionTable.see, hst]
    rw [step_retry he hr]
    refine ⟨_, h, ExtTreeMap.getElem?_insert_self, by rw [hsee]; exact hh, hle, ?_⟩
    intro w _ _ r hcall
    simp at hcall
  | none =>
    rw [step_fresh he hr] at hc ⊢
    have hwrite := SessionTable.answered_write
      (r := (S.recorder.apply s.inner f.ctx e.body).2.2) hok hr
    have hrec := hwrite.shrinks (SessionTable.record_shrinks hok.exact) hc
    obtain ⟨st, h, hst, hh, hle, hall⟩ := hrec
    refine ⟨st, h, hst, hh, hle, fun w hw hwq r hcall => ?_⟩
    rw [hall w hw hwq]
    have hlast : (S.recorder.apply s.inner f.ctx e.body).1.2 =
      s.inner.2 ++ [(⟨f.ctx, .message e.body⟩, (S.recorder.apply s.inner f.ctx e.body).2)] := rfl
    dsimp only at hcall
    rw [hlast] at hcall
    have hpair := List.append_cancel_left hcall
    simp only [List.cons.injEq, Prod.mk.injEq, true_and, and_true] at hpair
    rw [← hpair]

end Recorded

end Sessioned

end UltimaCluster
