/-
  What the apply loop tells the node about timers (`uc_service/src/apply.rs`).

  A leader's loop sends a schedule record for every request of a live frame.  On the edge to
  leader, and after a replay pass, it announces the set that is due: the machine's own if it
  keeps one (`Timed`), the mirror of the loop if not.  A replay pass sends nothing.
-/
import UltimaCluster.Lib.Trace
import UltimaCluster.TimerDelivery

namespace UltimaCluster

open Timed (absorb absorbOne raw report report_timers step_dropped take)

open Std

/-- What is announced. -/
inductive SchedOp
  | schedule
  | cancel
  | consumed
  | tableConsumed
  deriving DecidableEq

/-- One announcement. -/
structure SchedRecord where
  op : SchedOp
  timerId : UInt64
  deadlineNs : UInt64
  deriving DecidableEq

def TimerReq.record : TimerReq → SchedRecord
  | .schedule id atNs => ⟨.schedule, id, atNs⟩
  | .cancel id => ⟨.cancel, id, 0⟩

/-- `take_sched_records`: the requests first, then the reports. -/
def Sched.records (r : Sched) : List SchedRecord :=
  r.timers.map TimerReq.record ++ (r.consumed.map fun c => ⟨.consumed, c.1, c.2⟩) ++
    r.consumedTable.map fun c => ⟨.tableConsumed, c.1, c.2⟩

/-- `id ↦ deadline`. -/
abbrev TimerSet := ExtTreeMap UInt64 UInt64

namespace TimerSet

/-- What a record does to the pending set of the node (`RowTimers`). -/
def hear (m : TimerSet) (r : SchedRecord) : TimerSet :=
  match r.op with
  | .schedule => m.insert r.timerId r.deadlineNs
  | .cancel => m.erase r.timerId
  | .consumed => if m[r.timerId]? = some r.deadlineNs then m.erase r.timerId else m
  | .tableConsumed => m

def hears (m : TimerSet) (rs : List SchedRecord) : TimerSet := rs.foldl hear m

/-- A frame delivers the instance that it names. -/
def delivered (m : TimerSet) (f : AppFrame) : TimerSet :=
  match f.body with
  | .message _ => m
  | .timer ev => if ev.table = false ∧ m[ev.id]? = some ev.deadlineNs then m.erase ev.id else m

end TimerSet

/-- The last thing that the requests say about a timer. -/
def word (id : UInt64) (reqs : List TimerReq) : Option (Option UInt64) :=
  reqs.foldl (fun w r =>
    match r with
    | .schedule i d => if i = id then some (some d) else w
    | .cancel i => if i = id then some none else w) none

theorem word_concat (id : UInt64) (reqs : List TimerReq) (r : TimerReq) : word id (reqs ++ [r]) =
      match r with
      | .schedule i d => if i = id then some (some d) else word id reqs
      | .cancel i => if i = id then some none else word id reqs := by
  unfold word
  rw [List.foldl_append]
  rfl

theorem Timed.absorb_get (m : TimerSet) (reqs : List TimerReq) (id : UInt64) :
    (absorb m reqs)[id]? = (word id reqs).getD m[id]? := by
  induction reqs using List.reverseRecOn with
  | nil => rfl
  | append_singleton reqs r ih =>
    have hlast : absorb m (reqs ++ [r]) = absorbOne (absorb m reqs) r := by
      simp [absorb]
    rw [hlast, word_concat]
    cases r with
    | schedule i d =>
      simp only [absorbOne, ExtTreeMap.getElem?_insert, Std.compare_eq_iff_eq, ih]
      split <;> rfl
    | cancel i =>
      simp only [absorbOne, ExtTreeMap.getElem?_erase, Std.compare_eq_iff_eq, ih]
      split <;> rfl

namespace TimerSet

theorem hears_append (m : TimerSet) (rs rs' : List SchedRecord) :
    hears m (rs ++ rs') = hears (hears m rs) rs' := List.foldl_append

theorem hears_requests (m : TimerSet) (reqs : List TimerReq) :
    hears m (reqs.map TimerReq.record) = absorb m reqs := by
  unfold hears absorb
  rw [List.foldl_map]
  congr 1
  funext m r
  cases r <;> rfl

theorem hears_ticks (m : TimerSet) (l : List (UInt64 × UInt64)) :
    hears m (l.map fun c => ⟨.tableConsumed, c.1, c.2⟩) = m := by
  induction l with
  | nil => rfl
  | cons c l ih => exact ih

theorem hear_consumed_get (m : TimerSet) (i d id : UInt64) :
    (m.hear ⟨.consumed, i, d⟩)[id]? = if id = i ∧ m[id]? = some d then none else m[id]? := by
  unfold hear
  by_cases hd : m[i]? = some d
  · rw [if_pos hd, ExtTreeMap.getElem?_erase]
    simp only [Std.compare_eq_iff_eq]
    by_cases hi : i = id
    · subst hi
      rw [if_pos rfl, if_pos ⟨rfl, hd⟩]
    · rw [if_neg hi, if_neg fun h => hi h.1.symm]
  · rw [if_neg hd, if_neg]
    rintro ⟨rfl, h⟩
    exact hd h

theorem delivered_get (m : TimerSet) {f : AppFrame} {ev : TimerEvent} (hb : f.body = .timer ev)
    (id : UInt64) : (m.delivered f)[id]? =
      if ev.table = false ∧ id = ev.id ∧ m[id]? = some ev.deadlineNs then none else m[id]? := by
  unfold delivered
  rw [hb]
  dsimp only
  by_cases ht : ev.table = false
  · have hget := hear_consumed_get m ev.id ev.deadlineNs id
    simp only [hear] at hget
    simpa [ht] using hget
  · rw [if_neg fun h => ht h.1, if_neg fun h => ht h.1]

theorem delivered_other (m : TimerSet) {f : AppFrame} {id : UInt64}
    (h : ¬ ∃ ev, f.body = .timer ev ∧ ev.table = false ∧ ev.id = id) :
    (m.delivered f)[id]? = m[id]? := by
  cases hb : f.body with
  | message cmd =>
    unfold delivered
    rw [hb]
  | timer ev => rw [delivered_get m hb, if_neg fun hid => h ⟨ev, hb, hid.1, hid.2.1.symm⟩]

theorem word_schedules (id : UInt64) (l : List (UInt64 × UInt64)) :
    (∃ d, word id (l.map fun c => .schedule c.1 c.2) = some (some d) ∧ (id, d) ∈ l) ∨
      word id (l.map fun c => .schedule c.1 c.2) = none ∧ ∀ d, (id, d) ∉ l := by
  induction l using List.reverseRecOn with
  | nil => exact .inr ⟨rfl, by simp⟩
  | append_singleton l c ih =>
    obtain ⟨i, d⟩ := c
    rw [List.map_append, List.map_singleton, word_concat]
    dsimp only
    by_cases hi : i = id
    · subst hi
      rw [if_pos rfl]
      exact .inl ⟨d, rfl, by simp⟩
    · rw [if_neg hi]
      rcases ih with ⟨e, hw, hmem⟩ | ⟨hw, hnone⟩
      · exact .inl ⟨e, hw, by simp [hmem]⟩
      · refine .inr ⟨hw, fun e he => ?_⟩
        rcases List.mem_append.mp he with he | he
        · exact hnone e he
        · exact hi (Prod.mk.inj (List.mem_singleton.mp he)).1.symm

/-- An announcement of `a` puts its timers over what the node has heard. -/
theorem hears_announced (m a : TimerSet) (ticks : List (UInt64 × UInt64)) (id : UInt64) :
    (hears m ((a.toList.map fun c => ⟨.schedule, c.1, c.2⟩) ++
      ticks.map fun c => ⟨.tableConsumed, c.1, c.2⟩))[id]? = a[id]?.or m[id]? := by
  have hmap : (a.toList.map fun c => (⟨.schedule, c.1, c.2⟩ : SchedRecord)) =
      (a.toList.map fun c => TimerReq.schedule c.1 c.2).map TimerReq.record := by
    rw [List.map_map]
    rfl
  rw [hears_append, hears_ticks, hmap, hears_requests, Timed.absorb_get]
  rcases word_schedules id a.toList with ⟨d, hw, hmem⟩ | ⟨hw, hnone⟩
  · rw [hw, ExtTreeMap.mem_toList_iff_getElem?_eq_some.mp hmem]
    rfl
  · have hget : a[id]? = none := by
      by_contra hne
      obtain ⟨d, hd⟩ := Option.ne_none_iff_exists'.mp hne
      exact hnone d (ExtTreeMap.mem_toList_iff_getElem?_eq_some.mpr hd)
    rw [hw, hget]
    rfl

end TimerSet

section Due

variable {σ : Type} (M : RawStateMachine σ) (s₀ : σ)

def dueStep (p : σ × TimerSet) (f : AppFrame) : σ × TimerSet :=
  if M.above p.1 f then
    ((M.step p.1 f).1, Timed.absorb (p.2.delivered f) (M.step p.1 f).2.1.timers)
  else p

/-- The timers scheduled by the frames, and neither cancelled nor delivered. -/
def due (hist : List AppFrame) : TimerSet := (hist.foldl (dueStep M) (s₀, ∅)).2

variable {M s₀}

theorem dueStep_machine (hist : List AppFrame) (p : σ × TimerSet) :
    (hist.foldl (dueStep M) p).1 = M.replay p.1 hist := by
  induction hist generalizing p with
  | nil => rfl
  | cons f hist ih =>
    have hfeed : (dueStep M p f).1 = (M.feed p.1 f).1 := by
      unfold dueStep RawStateMachine.feed
      split <;> rfl
    rw [List.foldl_cons, ih, hfeed]
    rfl

theorem due_concat {hist : List AppFrame} {f : AppFrame} (hf : M.above (M.replay s₀ hist) f = true) :
    due M s₀ (hist ++ [f]) =
      absorb ((due M s₀ hist).delivered f) (M.step (M.replay s₀ hist) f).2.1.timers := by
  have hsm := dueStep_machine (M := M) hist (s₀, ∅)
  unfold due
  rw [List.foldl_append, List.foldl_cons, List.foldl_nil, dueStep, hsm, if_pos hf]

end Due

/-! ## The loop -/

/-- The worker that announces. -/
structure Announcer where
  /-- The frames that the state of the machine stands for. -/
  hist : List AppFrame := []
  pending : TimerSet := ∅
  tableLast : TimerSet := ∅
  announcePending : Bool := true
  wasLeader : Bool := false
  /-- The records sent since the last edge to leader. -/
  sent : List SchedRecord := []

/-- `top` begins a duty cycle with the flag read there; `live` is a frame of its batch; `pass` is
    a replay pass that leaves the machine with the frames of `hist`, by an install or without. -/
inductive AnnounceStep
  | top (leader : Bool)
  | live (f : AppFrame)
  | pass (hist : List AppFrame) (moved : Bool)

/-- `track_sched`. -/
def trackSched (m : TimerSet × TimerSet) (recs : List SchedRecord) : TimerSet × TimerSet :=
  recs.foldl (fun m r =>
    match r.op with
    | .schedule => (m.1.insert r.timerId r.deadlineNs, m.2)
    | .cancel | .consumed => (m.1.erase r.timerId, m.2)
    | .tableConsumed => (m.1, m.2.insert r.timerId r.deadlineNs)) m

namespace Announcer

variable {σ : Type} (M : RawStateMachine σ) (s₀ : σ) (st : Announcer)

def sm : σ := M.replay s₀ st.hist

/-- What the flush sends: the maps of the loop if the hooks give nothing. -/
def announcement : List SchedRecord :=
  let hooks := (M.pendingTimers (st.sm M s₀), M.tableDelivered (st.sm M s₀))
  let sets :=
    if hooks.1.isEmpty && hooks.2.isEmpty then (st.pending.toList, st.tableLast.toList) else hooks
  (sets.1.map fun c => ⟨.schedule, c.1, c.2⟩) ++ sets.2.map fun c => ⟨.tableConsumed, c.1, c.2⟩

/-- Send the announcement. -/
def flush : Announcer :=
  { st with announcePending := false, sent := st.sent ++ st.announcement M s₀ }

/-- The top of a cycle. -/
def top (leader : Bool) : Announcer :=
  let edge := leader && !st.wasLeader
  let st := { st with
    announcePending := st.announcePending || edge
    wasLeader := leader
    sent := if edge then [] else st.sent }
  if st.announcePending && leader then st.flush M s₀ else st

/-- The bookkeeping of `on_timer_frame`, before the machine sees the frame. -/
def deliver (f : AppFrame) : TimerSet × TimerSet :=
  match f.body with
  | .message _ => (st.pending, st.tableLast)
  | .timer ev =>
    (st.pending.erase ev.id, if ev.table then st.tableLast.insert ev.id ev.deadlineNs else st.tableLast)

/-- A frame off the ring. -/
def live (f : AppFrame) : Announcer :=
  if M.above (st.sm M s₀) f then
    let recs := (M.step (st.sm M s₀) f).2.1.records
    let maps := trackSched (st.deliver f) recs
    { st with
      hist := st.hist ++ [f]
      pending := maps.1
      tableLast := maps.2
      sent := if st.wasLeader then st.sent ++ recs else st.sent }
  else st

/-- A pass of the journal. -/
def pass (hist : List AppFrame) (moved : Bool) : Announcer :=
  { st with hist := hist, announcePending := st.announcePending || moved }

def exec : AnnounceStep → Announcer
  | .top leader => st.top M s₀ leader
  | .live f => st.live M s₀ f
  | .pass hist moved => st.pass hist moved

def run (steps : List AnnounceStep) : Announcer := steps.foldl (exec M s₀) {}

/-- The node's set after the records since the edge. -/
def told : TimerSet := TimerSet.hears ∅ st.sent

/-- Once flushed, the records of a leader tell exactly what is due. -/
def Complete : Prop :=
  st.wasLeader = true → st.announcePending = false → st.told = due M s₀ st.hist

/-- The requests that a frame makes. -/
def requests (f : AppFrame) : List TimerReq := (M.step (st.sm M s₀) f).2.1.timers

end Announcer

/-- A machine that keeps no set of its own: the hooks are the provided ones, and nothing but
    `Timed` reports. -/
structure Bare {σ : Type} (M : RawStateMachine σ) : Prop where
  pendingTimers : ∀ s, M.pendingTimers s = []
  tableDelivered : ∀ s, M.tableDelivered s = []
  consumed : ∀ s f, (M.step s f).2.1.consumed = []
  consumedTable : ∀ s f, (M.step s f).2.1.consumedTable = []

namespace Announcer

variable {σ : Type} (M : RawStateMachine σ) (s₀ : σ) (st : Announcer)

/-- What a bare machine's mirror and records cover: no replay pass changes what is due; a live
    timer frame whose handler says nothing of its timer finds none of that id due, or delivers
    the very instance, of which the node has not been told. -/
def BareCovered : AnnounceStep → Prop
  | .top _ => True
  | .live f => ∀ ev, f.body = .timer ev → word ev.id (st.requests M s₀ f) = none →
      (due M s₀ st.hist)[ev.id]? = none ∨
        ev.table = false ∧ (due M s₀ st.hist)[ev.id]? = some ev.deadlineNs ∧
          (st.wasLeader = true → st.told[ev.id]? = none)
  | .pass hist _ => due M s₀ hist = due M s₀ st.hist

/-- What `Timed` and its records cover: an announcement of nothing finds the mirror empty; while
    leading, no replay pass takes away a due timer, and one that does not move the cursor
    changes nothing; no handler asks for the very instance that it is handed, and between a pass
    and its flush no instance is delivered that the node knows under another deadline. -/
def TimedCovered : AnnounceStep → Prop
  | .top leader => leader = true → (st.announcePending = true ∨ st.wasLeader = false) →
      M.pendingTimers (st.sm M s₀) = [] → M.tableDelivered (st.sm M s₀) = [] → st.pending = ∅
  | .live f => st.wasLeader = true → ∀ ev, f.body = .timer ev → ev.table = false →
      (due M s₀ st.hist)[ev.id]? = some ev.deadlineNs →
      (word ev.id (st.requests M s₀ f) = none → ∀ d ∈ st.told[ev.id]?, d = ev.deadlineNs) ∧
        (st.announcePending = false → word ev.id (st.requests M s₀ f) ≠ some (some ev.deadlineNs))
  | .pass hist moved => st.wasLeader = true →
      (∀ id : UInt64, (due M s₀ st.hist)[id]? ≠ none → (due M s₀ hist)[id]? ≠ none) ∧
        (moved = false → st.announcePending = false → due M s₀ hist = due M s₀ st.hist)

variable {M s₀ st}

/-! ## One step -/

/-- What the node has been told of and not told off is due, and once flushed the other way too. -/
structure Told (M : RawStateMachine σ) (s₀ : σ) (st : Announcer) : Prop where
  complete : st.Complete M s₀
  within : st.wasLeader = true → ∀ id : UInt64, st.told[id]? ≠ none → (due M s₀ st.hist)[id]? ≠ none

theorem Told.top {leader : Bool} (h : Told M s₀ st)
    (hann : leader = true → (st.announcePending = true ∨ st.wasLeader = false) →
      ∀ (m : TimerSet) (id : UInt64),
        (m.hears (st.announcement M s₀))[id]? = (due M s₀ st.hist)[id]?.or m[id]?) :
    Told M s₀ (st.top M s₀ leader) := by
  cases leader with
  | false =>
    simp only [Announcer.top, Bool.false_and, Bool.and_false, Bool.or_false]
    exact ⟨fun hl => (nomatch hl), fun hl => (nomatch hl)⟩
  | true =>
    cases hwas : st.wasLeader with
    | false =>
      -- on the edge the records begin anew
      have htold : (st.top M s₀ true).told = due M s₀ st.hist := by
        refine ExtTreeMap.ext_getElem? fun id => ?_
        simp only [Announcer.top, hwas, Bool.not_false, Bool.and_true, Bool.or_true, if_true, flush,
          List.nil_append, told]
        have hget := hann rfl (.inr hwas) ∅ id
        rw [ExtTreeMap.getElem?_empty, Option.or_none] at hget
        exact hget
      have hhist : (st.top M s₀ true).hist = st.hist := by
        simp [Announcer.top, hwas, flush]
      refine ⟨fun _ _ => by rw [htold, hhist], fun _ id hid => ?_⟩
      rwa [htold, ← hhist] at hid
    | true =>
      cases hpend : st.announcePending with
      | false =>
        have hsame : st.top M s₀ true = st := by
          simp only [Announcer.top, hwas, hpend, Bool.not_true, Bool.and_false, Bool.or_false,
            Bool.false_and, Bool.false_eq_true, if_false]
          rw [← hwas, ← hpend]
        rw [hsame]
        exact h
      | true =>
        have htold : (st.top M s₀ true).told = due M s₀ st.hist := by
          refine ExtTreeMap.ext_getElem? fun id => ?_
          simp only [Announcer.top, hwas, hpend, Bool.not_true, Bool.and_false, Bool.or_false,
            Bool.and_true, Bool.false_eq_true, if_true, if_false, flush, told,
            TimerSet.hears_append]
          have hget := hann rfl (.inl hpend) st.told id
          have hwithin := h.within hwas id
          refine hget.trans ?_
          cases hd : (due M s₀ st.hist)[id]? with
          | some d => rfl
          | none =>
            rw [Option.none_or]
            by_contra hne
            exact hwithin hne hd
        have hhist : (st.top M s₀ true).hist = st.hist := by
          simp [Announcer.top, hwas, hpend, flush]
        refine ⟨fun _ _ => by rw [htold, hhist], fun _ id hid => ?_⟩
        rwa [htold, ← hhist] at hid

theorem told_live {f : AppFrame} (hf : M.above (st.sm M s₀) f = true)
    (hnext : st.wasLeader = true → ∀ id : UInt64, (st.announcePending = false →
        (st.told.hears (M.step (st.sm M s₀) f).2.1.records)[id]? = (due M s₀ (st.hist ++ [f]))[id]?) ∧
      ((st.told.hears (M.step (st.sm M s₀) f).2.1.records)[id]? ≠ none →
        (due M s₀ (st.hist ++ [f]))[id]? ≠ none)) :
    Told M s₀ (st.live M s₀ f) := by
  cases hl : st.wasLeader with
  | false =>
    have hfollow : (st.live M s₀ f).wasLeader = false := by
      simp only [Announcer.live, hf, if_true, hl]
    exact ⟨fun hlead => absurd (hfollow ▸ hlead) (by simp),
      fun hlead => absurd (hfollow ▸ hlead) (by simp)⟩
  | true =>
    have htold : (st.live M s₀ f).told = st.told.hears (M.step (st.sm M s₀) f).2.1.records := by
      simp only [Announcer.live, hf, if_true, hl, told, TimerSet.hears_append]
    have hhist : (st.live M s₀ f).hist = st.hist ++ [f] := by
      simp only [Announcer.live, hf, if_true]
    have hpend : (st.live M s₀ f).announcePending = st.announcePending := by
      simp only [Announcer.live, hf, if_true]
    refine ⟨fun _ hflushed => ?_, fun _ id => ?_⟩
    · rw [htold, hhist]
      refine ExtTreeMap.ext_getElem? fun id => ?_
      exact (hnext hl id).1 (hpend ▸ hflushed)
    · rw [htold, hhist]
      exact (hnext hl id).2

theorem Told.pass {hist : List AppFrame} {moved : Bool} (h : Told M s₀ st)
    (hcov : st.wasLeader = true →
      (∀ id : UInt64, (due M s₀ st.hist)[id]? ≠ none → (due M s₀ hist)[id]? ≠ none) ∧
        (moved = false → st.announcePending = false → due M s₀ hist = due M s₀ st.hist)) :
    Told M s₀ (st.pass hist moved) := by
  refine ⟨fun hl hflushed => ?_, fun hl id hid => (hcov hl).1 id (h.within hl id hid)⟩
  obtain ⟨hpend, hstay⟩ := Bool.or_eq_false_iff.mp hflushed
  exact (h.complete hl hpend).trans ((hcov hl).2 hstay hpend).symm

/-! ## Bare machines -/

theorem live_skip {f : AppFrame} (hf : ¬ M.above (st.sm M s₀) f = true) : st.live M s₀ f = st := by
  unfold Announcer.live
  rw [if_neg hf]

theorem deliver_other {f : AppFrame} {id : UInt64} (h : ¬ ∃ ev, f.body = .timer ev ∧ ev.id = id) :
    (st.deliver f).1[id]? = st.pending[id]? := by
  unfold Announcer.deliver
  cases hb : f.body with
  | message cmd => rfl
  | timer ev =>
    have hne : ev.id ≠ id := fun hid => h ⟨ev, hb, hid⟩
    simp [ExtTreeMap.getElem?_erase, hne]

section OfBare

variable (hM : Bare M)

include hM

theorem Bare.records (s : σ) (f : AppFrame) :
    (M.step s f).2.1.records = (M.step s f).2.1.timers.map TimerReq.record := by
  simp [Sched.records, hM.consumed, hM.consumedTable]

/-- What every step of a bare machine keeps. -/
structure BareInv (M : RawStateMachine σ) (s₀ : σ) (st : Announcer) : Prop extends Told M s₀ st where
  mirror : st.pending = due M s₀ st.hist

omit hM in
theorem trackSched_requests (m : TimerSet × TimerSet) (reqs : List TimerReq) :
    trackSched m (reqs.map TimerReq.record) = (absorb m.1 reqs, m.2) := by
  induction reqs generalizing m with
  | nil => rfl
  | cons r reqs ih =>
    cases r with
    | schedule id atNs => exact ih (m.1.insert id atNs, m.2)
    | cancel id => exact ih (m.1.erase id, m.2)

theorem BareInv.live {f : AppFrame} (h : BareInv M s₀ st) (hcov : st.BareCovered M s₀ (.live f)) :
    BareInv M s₀ (st.live M s₀ f) := by
  by_cases hf : M.above (st.sm M s₀) f = true
  swap
  · rw [live_skip hf]
    exact h
  have hdue : due M s₀ (st.hist ++ [f]) =
      absorb ((due M s₀ st.hist).delivered f) (st.requests M s₀ f) := due_concat hf
  have hrecs : (M.step (st.sm M s₀) f).2.1.records = (st.requests M s₀ f).map TimerReq.record :=
    Bare.records hM _ _
  have hword : ∀ ev, f.body = .timer ev → word ev.id (st.requests M s₀ f) = none →
      ((due M s₀ st.hist).delivered f)[ev.id]? = none ∧
        (st.wasLeader = true → st.told[ev.id]? = none) := by
    intro ev hb hnone
    rw [TimerSet.delivered_get _ hb]
    rcases hcov ev hb hnone with hfree | ⟨htable, hthis, hquiet⟩
    · refine ⟨by rw [hfree]; simp, fun hl => ?_⟩
      by_contra hne
      exact h.within hl ev.id hne hfree
    · exact ⟨if_pos ⟨htable, rfl, hthis⟩, hquiet⟩
  refine ⟨told_live hf fun hl id => ?_, ?_⟩
  · rw [hrecs, TimerSet.hears_requests, hdue, Timed.absorb_get, Timed.absorb_get]
    cases hw : word id (st.requests M s₀ f) with
    | some w => exact ⟨fun _ => rfl, fun hne => hne⟩
    | none =>
      by_cases hnames : ∃ ev, f.body = .timer ev ∧ ev.id = id
      · obtain ⟨ev, hb, rfl⟩ := hnames
        obtain ⟨hgone, hquiet⟩ := hword ev hb hw
        rw [hgone, hquiet hl]
        exact ⟨fun _ => rfl, fun hne => hne⟩
      · rw [TimerSet.delivered_other _ fun ⟨ev, hb, _, hid⟩ => hnames ⟨ev, hb, hid⟩]
        exact ⟨fun hflushed => by rw [h.complete hl hflushed], h.within hl id⟩
  · have hmaps : (st.live M s₀ f).pending = absorb (st.deliver f).1 (st.requests M s₀ f) := by
      simp only [Announcer.live, hf, if_true, hrecs, trackSched_requests]
    have hhist : (st.live M s₀ f).hist = st.hist ++ [f] := by
      simp only [Announcer.live, hf, if_true]
    rw [hmaps, hhist, hdue]
    refine ExtTreeMap.ext_getElem? fun id => ?_
    rw [Timed.absorb_get, Timed.absorb_get]
    cases hw : word id (st.requests M s₀ f) with
    | some w => rfl
    | none =>
      by_cases hnames : ∃ ev, f.body = .timer ev ∧ ev.id = id
      · obtain ⟨ev, hb, rfl⟩ := hnames
        rw [(hword ev hb hw).1, Announcer.deliver, hb]
        simp
      · rw [TimerSet.delivered_other _ fun ⟨ev, hb, _, hid⟩ => hnames ⟨ev, hb, hid⟩, ← h.mirror,
          deliver_other hnames]

theorem BareInv.exec {step : AnnounceStep} (h : BareInv M s₀ st) (hcov : st.BareCovered M s₀ step) :
    BareInv M s₀ (st.exec M s₀ step) := by
  cases step with
  | top leader =>
    have htop : (st.top M s₀ leader).pending = st.pending ∧ (st.top M s₀ leader).hist = st.hist := by
      unfold Announcer.top flush
      dsimp only
      split <;> exact ⟨rfl, rfl⟩
    refine ⟨h.toTold.top fun _ _ m id => ?_, ?_⟩
    · have hann : st.announcement M s₀ = (st.pending.toList.map fun c => ⟨.schedule, c.1, c.2⟩) ++
            st.tableLast.toList.map fun c => ⟨.tableConsumed, c.1, c.2⟩ := by
        simp [announcement, hM.pendingTimers, hM.tableDelivered]
      rw [hann, TimerSet.hears_announced, h.mirror]
    · exact htop.1.trans (h.mirror.trans (congrArg _ htop.2.symm))
  | live f => exact h.live hM hcov
  | pass hist moved =>
    have hsame : due M s₀ hist = due M s₀ st.hist := hcov
    refine ⟨h.toTold.pass fun _ => ⟨fun id hid => by rwa [hsame], fun _ _ => hsame⟩, ?_⟩
    exact h.mirror.trans hsame.symm

end OfBare

/-! ## Wrapped machines -/

/-- A machine that keeps the set that is due, and reports every timer frame. -/
structure Keeper (M : RawStateMachine σ) (s₀ : σ) : Prop where
  pendingTimers : ∀ hist, M.pendingTimers (M.replay s₀ hist) = (due M s₀ hist).toList
  dropped : ∀ hist f ev, f.body = .timer ev → ev.table = false →
    (due M s₀ hist)[ev.id]? ≠ some ev.deadlineNs → (M.step (M.replay s₀ hist) f).2.1.timers = []
  records : ∀ s f, (M.step s f).2.1.records = (M.step s f).2.1.timers.map TimerReq.record ++
    match f.body with
    | .message _ => []
    | .timer ev => [⟨if ev.table then .tableConsumed else .consumed, ev.id, ev.deadlineNs⟩]

section OfTimed

variable {S : RawStateMachine σ} {inner : σ}

theorem step_pending (t : Timed σ) (f : AppFrame) : ((raw S).step t f).1.pending =
      absorb (TimerSet.delivered t.pending f) ((raw S).step t f).2.1.timers := by
  cases hb : f.body with
  | message cmd =>
    rw [Timed.step_message (by simp [AppFrame.isMessage, hb])]
    simp only [TimerSet.delivered, hb]
  | timer ev =>
    cases hd : t.deliver ev with
    | true =>
      rw [Timed.step_delivered hb hd]
      simp only [report_timers, TimerSet.delivered, hb, take]
      unfold Timed.deliver at hd
      cases ht : ev.table with
      | true => simp
      | false =>
        simp only [ht, Bool.false_eq_true, if_false, decide_eq_true_eq] at hd
        simp [hd]
    | false =>
      rw [step_dropped hb hd]
      simp only [report_timers, TimerSet.delivered, hb]
      unfold Timed.deliver at hd
      cases ht : ev.table with
      | true => simp [absorb]
      | false =>
        simp only [ht, Bool.false_eq_true, if_false, decide_eq_false_iff_not] at hd
        simp [hd, absorb]

theorem due_eq_pending (hist : List AppFrame) :
    due (raw S) (.new inner) hist = ((raw S).replay (.new inner) hist).pending := by
  have hfold : ∀ p : Timed σ × TimerSet, p.2 = p.1.pending →
      (hist.foldl (dueStep (raw S)) p).2 = (hist.foldl (dueStep (raw S)) p).1.pending := by
    induction hist with
    | nil => exact fun p hp => hp
    | cons f hist ih =>
      intro p hp
      refine ih _ ?_
      unfold dueStep
      split
      · rw [step_pending, hp]
      · exact hp
  rw [← dueStep_machine (M := raw S) hist (.new inner, ∅)]
  exact hfold _ rfl

theorem timed_keeper (hS : Bare S) : Keeper (raw S) (.new inner) where
  pendingTimers hist := by
    rw [due_eq_pending]
    rfl
  dropped hist f ev hb ht hd := by
    rw [due_eq_pending] at hd
    rw [step_dropped hb (by simpa [Timed.deliver, ht] using hd)]
    exact report_timers ev {}
  records t f := by
    cases hb : f.body with
    | message cmd =>
      rw [Timed.step_message (by simp [AppFrame.isMessage, hb])]
      simp [Sched.records, hS.consumed, hS.consumedTable]
    | timer ev =>
      cases hd : t.deliver ev with
      | true =>
        rw [Timed.step_delivered hb hd]
        cases ht : ev.table <;> simp [Sched.records, report, ht, hS.consumed, hS.consumedTable]
      | false =>
        rw [step_dropped hb hd]
        cases ht : ev.table <;> simp [Sched.records, report, ht]

end OfTimed

namespace Keeper

variable (hM : Keeper M s₀)

include hM

theorem hears_other (m : TimerSet) (s : σ) {f : AppFrame} {id : UInt64}
    (h : ¬ ∃ ev, f.body = .timer ev ∧ ev.table = false ∧ ev.id = id) :
    (m.hears (M.step s f).2.1.records)[id]? = (absorb m (M.step s f).2.1.timers)[id]? := by
  rw [hM.records, TimerSet.hears_append, TimerSet.hears_requests]
  cases hb : f.body with
  | message cmd => rfl
  | timer ev =>
    cases ht : ev.table with
    | true =>
      simp only [ht, if_true]
      rfl
    | false =>
      simp only [TimerSet.hears, List.foldl_cons, List.foldl_nil, ht, Bool.false_eq_true, if_false]
      rw [TimerSet.hear_consumed_get, if_neg fun hc => h ⟨ev, hb, ht, hc.1.symm⟩]

theorem hears_named (m : TimerSet) (s : σ) {f : AppFrame} {ev : TimerEvent}
    (hb : f.body = .timer ev) (ht : ev.table = false) :
    (m.hears (M.step s f).2.1.records)[ev.id]? =
      if (absorb m (M.step s f).2.1.timers)[ev.id]? = some ev.deadlineNs then none
      else (absorb m (M.step s f).2.1.timers)[ev.id]? := by
  rw [hM.records, TimerSet.hears_append, TimerSet.hears_requests, hb]
  simp only [TimerSet.hears, List.foldl_cons, List.foldl_nil, ht, Bool.false_eq_true, if_false]
  rw [TimerSet.hear_consumed_get]
  simp only [true_and]

theorem told_live {f : AppFrame} (h : Told M s₀ st) (hcov : st.TimedCovered M s₀ (.live f)) :
    Told M s₀ (st.live M s₀ f) := by
  by_cases hf : M.above (st.sm M s₀) f = true
  swap
  · rw [live_skip hf]
    exact h
  have hdue : due M s₀ (st.hist ++ [f]) =
      absorb ((due M s₀ st.hist).delivered f) (st.requests M s₀ f) := due_concat hf
  have hreq : (M.step (st.sm M s₀) f).2.1.timers = st.requests M s₀ f := rfl
  refine Announcer.told_live hf fun hl id => ?_
  by_cases hnames : ∃ ev, f.body = .timer ev ∧ ev.table = false ∧ ev.id = id
  · obtain ⟨ev, hb, ht, rfl⟩ := hnames
    rw [hM.hears_named _ _ hb ht, hreq, hdue, Timed.absorb_get, Timed.absorb_get,
      TimerSet.delivered_get _ hb]
    by_cases hd : (due M s₀ st.hist)[ev.id]? = some ev.deadlineNs
    · obtain ⟨hsilent, hagain⟩ := hcov hl ev hb ht hd
      rw [if_pos (⟨ht, rfl, hd⟩ : _ ∧ _ ∧ _)]
      cases hw : word ev.id (st.requests M s₀ f) with
      | none =>
        have hcleared := hsilent hw
        cases htold : st.told[ev.id]? with
        | none => simp
        | some d =>
          rw [hcleared d htold]
          simp
      | some w =>
        rw [hw] at hagain
        cases w with
        | none => simp
        | some d =>
          refine ⟨fun hflushed => if_neg fun hsame => ?_, by simp⟩
          exact hagain hflushed (congrArg some hsame)
    · -- a stale frame: the requests say nothing, and the report finds no such instance
      have hnone : st.requests M s₀ f = [] := hM.dropped _ f ev hb ht hd
      rw [hnone, if_neg (fun hc => hd hc.2.2 : ¬ (_ ∧ _ ∧ _))]
      refine ⟨fun hflushed => ?_, fun hne => ?_⟩
      · rw [h.complete hl hflushed]
        exact if_neg hd
      · refine h.within hl ev.id fun htold => hne ?_
        rw [htold]
        rfl
  · rw [hM.hears_other _ _ hnames, hreq, hdue, Timed.absorb_get, Timed.absorb_get,
      TimerSet.delivered_other _ hnames]
    cases word id (st.requests M s₀ f) with
    | some w => exact ⟨fun _ => rfl, fun hne => hne⟩
    | none => exact ⟨fun hflushed => by rw [h.complete hl hflushed], h.within hl id⟩

theorem told_exec {step : AnnounceStep} (h : Told M s₀ st) (hcov : st.TimedCovered M s₀ step) :
    Told M s₀ (st.exec M s₀ step) := by
  cases step with
  | top leader =>
    refine h.top fun hlead hflush m id => ?_
    have hpending : M.pendingTimers (st.sm M s₀) = (due M s₀ st.hist).toList := hM.pendingTimers _
    by_cases hnothing : M.pendingTimers (st.sm M s₀) = [] ∧ M.tableDelivered (st.sm M s₀) = []
    · -- the mirror is announced in the place of the empty sets, and is empty too
      have hann : st.announcement M s₀ = (st.pending.toList.map fun c => ⟨.schedule, c.1, c.2⟩) ++
            st.tableLast.toList.map fun c => ⟨.tableConsumed, c.1, c.2⟩ := by
        simp only [announcement, hnothing.1, hnothing.2, List.isEmpty_nil, Bool.and_self, if_true]
      have hdue : due M s₀ st.hist = ∅ :=
        ExtTreeMap.toList_eq_nil_iff.mp (hpending.symm.trans hnothing.1)
      rw [hann, TimerSet.hears_announced, hcov hlead hflush hnothing.1 hnothing.2, hdue]
    · have hann : st.announcement M s₀ =
          ((due M s₀ st.hist).toList.map fun c => ⟨.schedule, c.1, c.2⟩) ++
            (M.tableDelivered (st.sm M s₀)).map fun c => ⟨.tableConsumed, c.1, c.2⟩ := by
        rw [← hpending]
        simp only [announcement, Bool.and_eq_true, List.isEmpty_iff, if_neg hnothing]
      rw [hann, TimerSet.hears_announced]
  | live f => exact hM.told_live h hcov
  | pass hist moved => exact h.pass hcov

end Keeper

/-! ## Runs -/

theorem Told.start : Told M s₀ {} := by
  refine ⟨fun hl => (nomatch hl), fun hl => (nomatch hl)⟩

/-- Whether the duty cycle of the step has read the leader flag. -/
def leading (st : Announcer) : AnnounceStep → Bool
  | .top leader => leader
  | _ => st.wasLeader

theorem sent_of_follower {step : AnnounceStep} (h : st.leading step = false) :
    (st.exec M s₀ step).sent = st.sent := by
  cases step with
  | top leader =>
    obtain rfl : leader = false := h
    simp [exec, Announcer.top]
  | live f =>
    have hl : st.wasLeader = false := h
    unfold exec Announcer.live
    dsimp only
    split
    · simp [hl]
    · rfl
  | pass hist moved => rfl

/-- Over a bare machine and over `Timed` of it, the node has been told what is due in every
    flushed state of a leader, if the steps stay off what the mirror and the announcement do
    not cover. -/
theorem timers_announced (S : RawStateMachine σ) (hS : Bare S) (inner : σ)
    (steps : List AnnounceStep) :
    (Trace.Admits (exec S inner) (BareCovered S inner) {} steps →
      ∀ n, (run S inner (steps.take n)).Complete S inner) ∧
    (Trace.Admits (exec (Timed.raw S) (.new inner)) (TimedCovered (Timed.raw S) (.new inner)) {} steps →
      ∀ n, (run (Timed.raw S) (.new inner) (steps.take n)).Complete (Timed.raw S) (.new inner)) ∧
    ∀ n step, steps[n]? = some step → ((run S inner (steps.take n)).leading step = false →
        (run S inner (steps.take (n + 1))).sent = (run S inner (steps.take n)).sent) ∧
      ((run (Timed.raw S) (.new inner) (steps.take n)).leading step = false →
        (run (Timed.raw S) (.new inner) (steps.take (n + 1))).sent =
          (run (Timed.raw S) (.new inner) (steps.take n)).sent) := by
  refine ⟨fun hrun n => ?_, fun hrun n => ?_, fun n step hstep => ?_⟩
  · have hinv : BareInv S inner (run S inner (steps.take n)) := by
      refine Trace.Admits.rule (P := fun is => BareInv S inner (run S inner is)) ?_ ?_ (hrun.take n)
      · exact ⟨Told.start, rfl⟩
      · intro is i hinv hcov
        simpa [run] using hinv.exec hS hcov
    exact hinv.complete
  · have hinv : Told (Timed.raw S) (.new inner) (run (Timed.raw S) (.new inner) (steps.take n)) := by
      refine Trace.Admits.rule
        (P := fun is => Told (Timed.raw S) (.new inner) (run (Timed.raw S) (.new inner) is))
        Told.start ?_ (hrun.take n)
      intro is i hinv hcov
      simpa [run] using (timed_keeper hS).told_exec hinv hcov
    exact hinv.complete
  · have hlast : steps.take (n + 1) = steps.take n ++ [step] := by
      rw [List.take_add_one, hstep]
      rfl
    rw [hlast]
    constructor
    · intro hfollow
      simpa [run] using sent_of_follower hfollow
    · intro hfollow
      simpa [run] using sent_of_follower hfollow

theorem asking_bare : Bare asking.toRawStateMachine := by
  refine ⟨fun _ => rfl, fun _ => rfl, fun s f => ?_, fun s f => ?_⟩ <;>
  · unfold RawStateMachine.step
    cases f.body <;> rfl

/-- The command at 32 asks for timer 3 at 500, and the leader passes it on. -/
theorem timers_announced_asking :
    (run asking.toRawStateMachine none [.top true, .live ⟨⟨32, 0, 0⟩, .message [1]⟩]).told[(3 : UInt64)]? =
        some 500 ∧
      (run asking.toRawStateMachine none [.top true, .live ⟨⟨32, 0, 0⟩, .message [1]⟩]).Complete
        asking.toRawStateMachine none ∧ (run (Timed.raw asking.toRawStateMachine) (.new none)
        [.top true, .live ⟨⟨32, 0, 0⟩, .message [1]⟩]).Complete (Timed.raw asking.toRawStateMachine)
          (.new none) := by
  have hall := timers_announced asking.toRawStateMachine asking_bare none
    [.top true, .live ⟨⟨32, 0, 0⟩, .message [1]⟩]
  refine ⟨by decide +kernel, hall.1 ⟨trivial, ?_, trivial⟩ 2, hall.2.1 ⟨?_, ?_, trivial⟩ 2⟩
  · rintro ev ⟨⟩
  · exact fun _ _ _ _ => rfl
  · rintro - ev ⟨⟩

/-- A request in a replayed frame of a bare machine is never announced; and a timer that `Timed`
    delivers in a replay pass is announced anew, from the mirror. -/
theorem timers_unannounced : (∃ st, st = run asking.toRawStateMachine none
        [.top true, .pass [⟨⟨32, 0, 0⟩, .message [1]⟩] true, .top true] ∧
      st.wasLeader = true ∧ st.announcePending = false ∧ st.told[(3 : UInt64)]? = none ∧
      (due asking.toRawStateMachine none st.hist)[(3 : UInt64)]? = some 500 ∧
      ¬ st.Complete asking.toRawStateMachine none) ∧
    ∃ st, st = run (Timed.raw asking.toRawStateMachine) (.new none)
        [.top true, .live ⟨⟨32, 0, 0⟩, .message [1]⟩,
          .pass [⟨⟨32, 0, 0⟩, .message [1]⟩, ⟨⟨96, 0, 0⟩, .timer ⟨3, 500, false⟩⟩] true, .top true] ∧
      st.wasLeader = true ∧ st.announcePending = false ∧ st.told[(3 : UInt64)]? = some 500 ∧
      (due (Timed.raw asking.toRawStateMachine) (.new none) st.hist)[(3 : UInt64)]? = none ∧
      ¬ st.Complete (Timed.raw asking.toRawStateMachine) (.new none) := by
  refine ⟨⟨_, rfl, by decide +kernel, by decide +kernel, by decide +kernel, by decide +kernel, ?_⟩,
    _, rfl, by decide +kernel, by decide +kernel, by decide +kernel, by decide +kernel, ?_⟩
  · intro hcomplete
    have hsame := congrArg (·[(3 : UInt64)]?) (hcomplete (by decide +kernel) (by decide +kernel))
    revert hsame
    decide +kernel
  · intro hcomplete
    have hsame := congrArg (·[(3 : UInt64)]?) (hcomplete (by decide +kernel) (by decide +kernel))
    revert hsame
    decide +kernel

end Announcer

end UltimaCluster
