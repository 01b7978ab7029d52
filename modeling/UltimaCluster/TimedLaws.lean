/-
  Which timers reach the inner machine of `Timed`.

  What the inner machine has asked for and been given is read off the calls that it
  has taken (`marks`), the instance before what its handler asks for. The set of
  pending timers is that history's: an instance is pending when the last word about
  its id was to schedule it (`Live`).
-/
import UltimaCluster.Timed

namespace UltimaCluster

open Std

/-- What a call says about timers. -/
inductive Mark
  | scheduled (id atNs : UInt64)
  | cancelled (id : UInt64)
  | delivered (id deadlineNs : UInt64)
  | ticked (id deadlineNs : UInt64)
  deriving DecidableEq

namespace Mark

def ofReq : TimerReq → Mark
  | .schedule id atNs => .scheduled id atNs
  | .cancel id => .cancelled id

def ofEvent (ev : TimerEvent) : Mark :=
  if ev.table then .ticked ev.id ev.deadlineNs else .delivered ev.id ev.deadlineNs

/-- Whether it changes what is pending for the id. -/
def About (id : UInt64) : Mark → Prop
  | .scheduled i _ => i = id
  | .cancelled i => i = id
  | .delivered i _ => i = id
  | .ticked _ _ => False

end Mark

def marksOf (c : AppFrame × Sched × Bytes) : List Mark :=
  (match c.1.body with
    | .message _ => []
    | .timer ev => [Mark.ofEvent ev]) ++ c.2.1.timers.map Mark.ofReq

/-- The history of timers in the calls that a machine has taken. -/
def marks (calls : List (AppFrame × Sched × Bytes)) : List Mark := calls.flatMap marksOf

/-- The instance is the one last scheduled, and has been neither cancelled nor
    delivered since. -/
def Live (ms : List Mark) (id deadline : UInt64) : Prop :=
  ∃ h₁ h₂, ms = h₁ ++ Mark.scheduled id deadline :: h₂ ∧ ∀ m ∈ h₂, ¬ m.About id

theorem live_nil {id d : UInt64} : ¬ Live [] id d := by
  rintro ⟨h₁, h₂, h, -⟩
  simp at h

theorem live_concat {ms : List Mark} {m : Mark} {id d : UInt64} :
    Live (ms ++ [m]) id d ↔ m = .scheduled id d ∨ (¬ m.About id ∧ Live ms id d) := by
  constructor
  · rintro ⟨h₁, h₂, heq, hall⟩
    induction h₂ using List.reverseRecOn with
    | nil =>
      have := List.append_inj_right' heq rfl
      exact .inl (by simpa using this)
    | append_singleton h₂ m' _ =>
      rw [← List.cons_append, ← List.append_assoc] at heq
      obtain ⟨rfl, hm⟩ := List.append_inj' heq rfl
      obtain rfl : m = m' := by simpa using hm
      exact .inr ⟨hall m (by simp), h₁, h₂, rfl, fun m' hm' => hall m' (by simp [hm'])⟩
  · rintro (rfl | ⟨hm, h₁, h₂, rfl, hall⟩)
    · exact ⟨ms, [], rfl, by simp⟩
    · refine ⟨h₁, h₂ ++ [m], by simp, fun m' hm' => ?_⟩
      rcases List.mem_append.mp hm' with hm' | hm'
      · exact hall m' hm'
      · rwa [List.mem_singleton.mp hm']

namespace Timed

variable {σ : Type}

/-- The set holds the instances that are live. -/
def Follows (pending : ExtTreeMap UInt64 UInt64) (ms : List Mark) : Prop :=
  ∀ id d, pending[id]? = some d ↔ Live ms id d

variable {ms : List Mark} {p : ExtTreeMap UInt64 UInt64}

theorem Follows.insert (h : Follows p ms) (id d : UInt64) :
    Follows (p.insert id d) (ms ++ [.scheduled id d]) := by
  intro id' d'
  rw [ExtTreeMap.getElem?_insert, live_concat, ← h id' d']
  by_cases hid : id = id'
  · subst hid
    simp [Mark.About]
  · have hcmp : ¬ compare id id' = .eq := fun h => hid (LawfulEqOrd.eq_of_compare h)
    simp [Mark.About, hid, hcmp]

theorem Follows.erase (h : Follows p ms) {id : UInt64} {m : Mark}
    (hm : m = .cancelled id ∨ ∃ d, m = .delivered id d) : Follows (p.erase id) (ms ++ [m]) := by
  intro id' d'
  have habout : m.About id' ↔ id = id' := by
    rcases hm with rfl | ⟨d, rfl⟩ <;> exact Iff.rfl
  have hne : m ≠ .scheduled id' d' := by
    rcases hm with rfl | ⟨d, rfl⟩ <;> simp
  rw [ExtTreeMap.getElem?_erase, live_concat, ← h id' d', habout]
  by_cases hid : id = id'
  · simp [hne]
  · have hcmp : ¬ compare id id' = .eq := fun h => hid (LawfulEqOrd.eq_of_compare h)
    simp [hid, hcmp, hne]

theorem Follows.ticked (h : Follows p ms) (id d : UInt64) : Follows p (ms ++ [.ticked id d]) := by
  intro id' d'
  rw [live_concat, h id' d']
  simp [Mark.About]

theorem Follows.absorb (h : Follows p ms) (reqs : List TimerReq) :
    Follows (absorb p reqs) (ms ++ reqs.map Mark.ofReq) := by
  induction reqs generalizing p ms with
  | nil => simpa [Timed.absorb] using h
  | cons r reqs ih =>
    have hone : Follows (absorbOne p r) (ms ++ [Mark.ofReq r]) := by
      cases r with
      | schedule id atNs => exact h.insert id atNs
      | cancel id => exact h.erase (.inl rfl)
    simpa [Timed.absorb] using ih hone

/-- The marks hold the last tick of each id. -/
def Ticks (tableLast : ExtTreeMap UInt64 UInt64) (ms : List Mark) : Prop :=
  ∀ id d, tableLast[id]?.all (· < d) = true ↔ ∀ d', Mark.ticked id d' ∈ ms → d' < d

theorem Ticks.append {l : ExtTreeMap UInt64 UInt64} {ms ms' : List Mark} (h : Ticks l ms)
    (hms : ∀ id d, Mark.ticked id d ∉ ms') : Ticks l (ms ++ ms') := by
  intro id d
  rw [h id d]
  simp [hms]

theorem Ticks.insert {l : ExtTreeMap UInt64 UInt64} {id d : UInt64} (h : Ticks l ms)
    (hd : l[id]?.all (· < d) = true) : Ticks (l.insert id d) (ms ++ [.ticked id d]) := by
  intro id' d'
  rw [ExtTreeMap.getElem?_insert]
  by_cases hid : id = id'
  · subst hid
    have hold := (h id d).mp hd
    simp only [compare_self, if_true, Option.all_some, decide_eq_true_eq, List.mem_append,
      List.mem_singleton, Mark.ticked.injEq, true_and]
    constructor
    · rintro hlt d'' (hmem | rfl)
      · grind
      · exact hlt
    · exact fun hall => hall d (.inr rfl)
  · have hcmp : ¬ compare id id' = .eq := fun h => hid (LawfulEqOrd.eq_of_compare h)
    rw [if_neg hcmp, h id' d']
    simp [Ne.symm hid]

theorem ticked_not_mem_reqs (reqs : List TimerReq) (id d : UInt64) :
    Mark.ticked id d ∉ reqs.map Mark.ofReq := by
  rw [List.mem_map]
  rintro ⟨r, -, hr⟩
  cases r <;> simp [Mark.ofReq] at hr

/-! ## Over a run -/

variable {S : RawStateMachine σ}

/-- The wrapper and the history of its inner machine agree. -/
structure Faithful (t : Timed (σ × List (AppFrame × Sched × Bytes))) : Prop where
  pending : Follows t.pending (marks t.inner.2)
  ticks : Ticks t.tableLast (marks t.inner.2)

theorem Faithful.new (inner : σ) : Faithful (.new (inner, [])) where
  pending id d := by simp [Timed.new, marks, live_nil]
  ticks id d := by simp [Timed.new, marks]

theorem marks_concat (cs : List (AppFrame × Sched × Bytes)) (c : AppFrame × Sched × Bytes) :
    marks (cs ++ [c]) = marks cs ++ marksOf c := by
  simp [marks]

variable {t : Timed (σ × List (AppFrame × Sched × Bytes))}

theorem Faithful.deliver_iff (h : Faithful t) (ev : TimerEvent) :
    t.deliver ev = true ↔
      if ev.table then ∀ d, Mark.ticked ev.id d ∈ marks t.inner.2 → d < ev.deadlineNs
      else Live (marks t.inner.2) ev.id ev.deadlineNs := by
  unfold deliver
  split_ifs
  · exact h.ticks ev.id ev.deadlineNs
  · rw [decide_eq_true_eq]
    exact h.pending ev.id ev.deadlineNs

theorem Faithful.step (h : Faithful t) (f : AppFrame) : Faithful ((raw S.recorder).step t f).1 := by
  cases hb : f.body with
  | message cmd =>
    rw [step_message (by simp [AppFrame.isMessage, hb])]
    have hmarks : marks (S.recorder.step t.inner f).1.2 = marks t.inner.2 ++
        (S.recorder.step t.inner f).2.1.timers.map Mark.ofReq := by
      simp [RawStateMachine.step, hb, RawStateMachine.recorder, marks_concat, marksOf]
    constructor
    · rw [hmarks]
      exact h.pending.absorb _
    · rw [hmarks]
      exact h.ticks.append (ticked_not_mem_reqs _)
  | timer ev =>
    cases hd : t.deliver ev with
    | false =>
      rw [step_dropped hb hd]
      exact ⟨h.pending, h.ticks⟩
    | true =>
      rw [step_delivered hb hd]
      have hmarks : marks (S.recorder.step t.inner f).1.2 = (marks t.inner.2 ++ [Mark.ofEvent ev]) ++
          (S.recorder.step t.inner f).2.1.timers.map Mark.ofReq := by
        simp [RawStateMachine.step, hb, RawStateMachine.recorder, marks_concat, marksOf]
      have htaken : Follows (t.take ev).pending (marks t.inner.2 ++ [Mark.ofEvent ev]) ∧
          Ticks (t.take ev).tableLast (marks t.inner.2 ++ [Mark.ofEvent ev]) := by
        unfold take Mark.ofEvent
        unfold deliver at hd
        split_ifs at hd ⊢ with htable
        · exact ⟨h.pending.ticked _ _, h.ticks.insert hd⟩
        · exact ⟨h.pending.erase (.inr ⟨_, rfl⟩), h.ticks.append (by simp)⟩
      constructor
      · rw [hmarks]
        exact htaken.1.absorb _
      · rw [hmarks]
        exact htaken.2.append (ticked_not_mem_reqs _)

theorem Faithful.run (h : Faithful t) (fs : List AppFrame) :
    Faithful ((raw S.recorder).run t fs) := by
  induction fs generalizing t with
  | nil => exact h
  | cons f fs ih => exact ih (h.step f)

/-- **A timer frame reaches the inner machine exactly when its instance is due**: it
    is the one last scheduled and neither cancelled nor delivered since; a tick of the
    table, when it is above every one delivered for its id. -/
theorem delivered_iff (S : RawStateMachine σ) (inner : σ) (fs : List AppFrame) (f : AppFrame)
    (ev : TimerEvent) (hf : f.body = .timer ev) :
    let t := (raw S.recorder).run (.new (inner, [])) fs
    let calls := ((raw S.recorder).step t f).1.inner.2
    ((if ev.table then ∀ d, Mark.ticked ev.id d ∈ marks t.inner.2 → d < ev.deadlineNs
        else Live (marks t.inner.2) ev.id ev.deadlineNs) →
      calls = t.inner.2 ++ [(f, (S.onTimer t.inner.1 f.ctx ev).2, [])]) ∧
    (¬ (if ev.table then ∀ d, Mark.ticked ev.id d ∈ marks t.inner.2 → d < ev.deadlineNs
        else Live (marks t.inner.2) ev.id ev.deadlineNs) →
      calls = t.inner.2) := by
  intro t calls
  have hfaithful : Faithful t := (Faithful.new inner).run fs
  rw [← hfaithful.deliver_iff ev]
  constructor
  · intro hd
    show ((raw S.recorder).step t f).1.inner.2 = _
    rw [step_delivered hf hd]
    obtain ⟨ctx, body⟩ := f
    obtain rfl : body = .timer ev := hf
    rfl
  · intro hd
    show ((raw S.recorder).step t f).1.inner.2 = _
    rw [step_dropped hf (by simpa using hd)]

end Timed

end UltimaCluster
