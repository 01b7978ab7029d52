/-
  The state machines that a service drives off the committed log
  (`uc_service/src/traits.rs`), as transitions on an explicit state.

  `RawStateMachine` and `SnapshotStateMachine` are the traits. An `ApplyCtx` is
  built for every frame, and a call can only add to its lists, so a call returns
  what it adds (`Sched`). `step` dispatches one frame and `feed` is the guard of
  the apply loop and of the journal replay, by position.

  A machine that restarts installs an artifact and is fed again what its journal
  still holds. `Resumable` is what makes that invisible, `Resumable.replay_same`
  says so, and `Conforms` is the documented contract of a user's own machine,
  which gives it.
-/
import UltimaCluster.Lib.Bytes
import Mathlib.Data.List.Basic
import Mathlib.Data.List.Induction

namespace UltimaCluster

/-- What a machine asks of the timers. -/
inductive TimerReq
  | schedule (id atNs : UInt64)
  | cancel (id : UInt64)
  deriving DecidableEq

/-- A fired timer. -/
structure TimerEvent where
  id : UInt64
  deadlineNs : UInt64
  table : Bool
  deriving DecidableEq

/-- Where and when a frame is applied. -/
structure ApplyCtx where
  position : UInt64
  timeNs : UInt64
  term : UInt32
  deriving DecidableEq

/-- `SchedLists`: what one call asked the node to do. -/
@[ext]
structure Sched where
  timers : List TimerReq := []
  consumed : List (UInt64 × UInt64) := []
  consumedTable : List (UInt64 × UInt64) := []
  deriving DecidableEq

/-- `SnapshotError` of the service crate. -/
inductive SmSnapshotError
  | io (msg : String)
  | codec (msg : String)
  deriving DecidableEq

/-- `bincode`, a crate of its own, at the type of one image: `encode_to_vec` and
    `decode_from_slice` with the standard configuration. An error is its text. -/
structure ImageCodec (α : Type) where
  encodeToVec : α → Except String Bytes
  decodeFromSlice : Bytes → Except String α

namespace ImageCodec

variable {α : Type} (codec : ImageCodec α)

/-- What is written reads back, at every length that a vector can have. -/
def Lawful : Prop :=
  ∀ a b, codec.encodeToVec a = .ok b → b.length < 2 ^ 64 → codec.decodeFromSlice b = .ok a

/-- The encoding of `a`, if there is one, has at most `n` bytes. -/
def Within (a : α) (n : ℕ) : Prop := ∀ b ∈ (codec.encodeToVec a).toOption, b.length ≤ n

instance (a : α) (n : ℕ) : Decidable (codec.Within a n) :=
  inferInstanceAs (Decidable (∀ b ∈ (codec.encodeToVec a).toOption, _))

variable {codec}

theorem Within.le {a : α} {b : Bytes} {n : ℕ} (h : codec.Within a n)
    (hb : codec.encodeToVec a = .ok b) : b.length ≤ n :=
  h b (by rw [hb]; rfl)

end ImageCodec

/-- The trait of a machine that is fed the log. -/
structure RawStateMachine (σ : Type) where
  apply : σ → ApplyCtx → Bytes → σ × Sched × Bytes
  onTimer : σ → ApplyCtx → TimerEvent → σ × Sched
  lastApplied : σ → Option UInt64
  pendingTimers : σ → List (UInt64 × UInt64) := fun _ => []
  tableDelivered : σ → List (UInt64 × UInt64) := fun _ => []

/-- The artifact is the stream that the handle of `freeze` writes. -/
structure SnapshotStateMachine (σ : Type) extends RawStateMachine σ where
  freeze : σ → Except SmSnapshotError (Bytes × UInt64)
  installSnapshot : σ → UInt64 → Bytes → Except SmSnapshotError (σ × UInt64)

/-- What a frame carries for the state machine. -/
inductive FrameBody
  | message (cmd : Bytes)
  | timer (ev : TimerEvent)
  deriving DecidableEq

/-- A frame as a machine is given it. -/
structure AppFrame where
  ctx : ApplyCtx
  body : FrameBody
  deriving DecidableEq

namespace AppFrame

def isMessage (f : AppFrame) : Bool :=
  match f.body with
  | .message _ => true
  | .timer _ => false

/-- The positions of a log go up. -/
def Ordered (fs : List AppFrame) : Prop := fs.Pairwise fun f g => f.ctx.position < g.ctx.position

end AppFrame

namespace RawStateMachine

variable {σ τ : Type} (M : RawStateMachine σ)

/-- One frame, by its kind. -/
def step (s : σ) (f : AppFrame) : σ × Sched × Bytes :=
  match f.body with
  | .message cmd => M.apply s f.ctx cmd
  | .timer ev => ((M.onTimer s f.ctx ev).1, (M.onTimer s f.ctx ev).2, [])

def run (s : σ) (fs : List AppFrame) : σ := fs.foldl (fun s f => (M.step s f).1) s

/-- What the frames are answered, one by one. -/
def answers : σ → List AppFrame → List (Sched × Bytes)
  | _, [] => []
  | s, f :: fs => (M.step s f).2 :: answers (M.step s f).1 fs

/-- `Some(pos) > sm.last_applied()`. -/
def above (s : σ) (f : AppFrame) : Bool := (M.lastApplied s).all (· < f.ctx.position)

/-- One frame under the guard: a position already applied is skipped. -/
def feed (s : σ) (f : AppFrame) : σ × Option (Sched × Bytes) :=
  if M.above s f then ((M.step s f).1, some (M.step s f).2) else (s, none)

/-- The frames above the cursor. -/
def replay (s : σ) (fs : List AppFrame) : σ := fs.foldl (fun s f => (M.feed s f).1) s

def replayAnswers : σ → List AppFrame → List (Option (Sched × Bytes))
  | _, [] => []
  | s, f :: fs => (M.feed s f).2 :: replayAnswers (M.feed s f).1 fs

variable {M}

@[simp] theorem run_nil (s : σ) : M.run s [] = s := rfl

@[simp] theorem run_cons (s : σ) (f : AppFrame) (fs : List AppFrame) :
    M.run s (f :: fs) = M.run (M.step s f).1 fs := rfl

theorem run_append (s : σ) (fs gs : List AppFrame) : M.run s (fs ++ gs) = M.run (M.run s fs) gs :=
  List.foldl_append

theorem run_concat (s : σ) (fs : List AppFrame) (f : AppFrame) :
    M.run s (fs ++ [f]) = (M.step (M.run s fs) f).1 := by
  rw [run_append]
  rfl

theorem replay_append (s : σ) (fs gs : List AppFrame) :
    M.replay s (fs ++ gs) = M.replay (M.replay s fs) gs := List.foldl_append

theorem replay_skip {s : σ} {fs : List AppFrame} (h : ∀ f ∈ fs, M.above s f = false) :
    M.replay s fs = s := by
  induction fs with
  | nil => rfl
  | cons f fs ih =>
    have hfeed : M.feed s f = (s, none) := by simp [feed, h f (by simp)]
    have hrest := ih fun g hg => h g (by simp [hg])
    simpa [replay, hfeed] using hrest

/-! ## Simulations -/

/-- Related states stay related under the same calls, with the same answers. -/
structure Sim (M : RawStateMachine σ) (N : RawStateMachine τ) (R : σ → τ → Prop) : Prop where
  apply : ∀ {a b}, R a b → ∀ ctx cmd,
    R (M.apply a ctx cmd).1 (N.apply b ctx cmd).1 ∧ (M.apply a ctx cmd).2 = (N.apply b ctx cmd).2
  onTimer : ∀ {a b}, R a b → ∀ ctx ev,
    R (M.onTimer a ctx ev).1 (N.onTimer b ctx ev).1 ∧ (M.onTimer a ctx ev).2 = (N.onTimer b ctx ev).2

namespace Sim

variable {N : RawStateMachine τ} {R : σ → τ → Prop}

theorem step (h : Sim M N R) {a : σ} {b : τ} (hab : R a b) (f : AppFrame) :
    R (M.step a f).1 (N.step b f).1 ∧ (M.step a f).2 = (N.step b f).2 := by
  unfold RawStateMachine.step
  split
  · exact h.apply hab _ _
  · obtain ⟨h1, h2⟩ := h.onTimer hab f.ctx ‹_›
    exact ⟨h1, by rw [h2]⟩

theorem run (h : Sim M N R) {a : σ} {b : τ} (hab : R a b) (fs : List AppFrame) :
    R (M.run a fs) (N.run b fs) := by
  induction fs generalizing a b with
  | nil => exact hab
  | cons f fs ih => exact ih (h.step hab f).1

theorem congr {R' : σ → τ → Prop} (h : Sim M N R) (hR : ∀ a b, R a b ↔ R' a b) : Sim M N R' := by
  obtain rfl : R = R' := funext fun a => funext fun b => propext (hR a b)
  exact h

theorem answers (h : Sim M N R) {a : σ} {b : τ} (hab : R a b) (fs : List AppFrame) :
    M.answers a fs = N.answers b fs := by
  induction fs generalizing a b with
  | nil => rfl
  | cons f fs ih =>
    obtain ⟨hab', hout⟩ := h.step hab f
    simp only [RawStateMachine.answers, hout, ih hab']

end Sim

/-! ## Calls -/

/-- `S` with the calls that it has taken, each with its answer. -/
def recorder (S : RawStateMachine σ) : RawStateMachine (σ × List (AppFrame × Sched × Bytes)) where
  apply s ctx cmd :=
    let r := S.apply s.1 ctx cmd
    ((r.1, s.2 ++ [(⟨ctx, .message cmd⟩, r.2)]), r.2)
  onTimer s ctx ev :=
    let r := S.onTimer s.1 ctx ev
    ((r.1, s.2 ++ [(⟨ctx, .timer ev⟩, r.2, [])]), r.2)
  lastApplied s := S.lastApplied s.1
  pendingTimers s := S.pendingTimers s.1
  tableDelivered s := S.tableDelivered s.1

theorem recorder_sim (S : RawStateMachine σ) : Sim (recorder S) S fun a b => a.1 = b where
  apply := by
    rintro a _ rfl ctx cmd
    exact ⟨rfl, rfl⟩
  onTimer := by
    rintro a _ rfl ctx ev
    exact ⟨rfl, rfl⟩

end RawStateMachine

namespace SnapshotStateMachine

variable {σ : Type}

/-- A frame above the cursor that an artifact records does not move it, and does not
    ask for a timer. -/
def IdleAt (M : RawStateMachine σ) (cursor : σ → Option UInt64) (s : σ) (f : AppFrame) : Prop :=
  (∀ c ∈ cursor s, c < f.ctx.position) ∧ cursor (M.step s f).1 = cursor s ∧
    (M.step s f).2.1.timers = []

def Idle (M : RawStateMachine σ) (cursor : σ → Option UInt64) : σ → List AppFrame → Prop
  | _, [] => True
  | s, f :: fs => IdleAt M cursor s f ∧ Idle M cursor (M.step s f).1 fs

/-- What is fed again of the frames `is`: from some frame on, except for timers
    that no longer get through. -/
def Refed (is js : List AppFrame) : Prop :=
  ∃ ks, ks <:+ is ∧ js.Sublist ks ∧ js.filter AppFrame.isMessage = ks.filter AppFrame.isMessage

/-- What lets a machine restart from an artifact of its own. `cursor` is the
    position that the artifact records, which can lie below the frames seen since;
    `settle` is about those frames. -/
structure Resumable (M : SnapshotStateMachine σ) where
  cursor : σ → Option UInt64
  Same : σ → σ → Prop
  refl : ∀ a, Same a a
  trans : ∀ {a b c}, Same a b → Same b c → Same a c
  sim : M.toRawStateMachine.Sim M.toRawStateMachine Same
  step_cursor : ∀ a f, cursor (M.step a f).1 = some f.ctx.position ∨
    (cursor (M.step a f).1 = cursor a ∧ (M.step a f).2.1.timers = [])
  step_seen : ∀ a f, ∀ p ∈ M.lastApplied (M.step a f).1,
    p ≤ f.ctx.position ∨ ∃ p₀ ∈ M.lastApplied a, p ≤ p₀
  settle : ∀ a is js, Idle M.toRawStateMachine cursor a is → Refed is js →
    Idle M.toRawStateMachine cursor (M.run a is) js ∧ Same (M.run a is) (M.run (M.run a is) js)
  /-- The machine that installs was built like the one that froze. -/
  Peer : σ → σ → Prop
  /-- What an install leaves of the machine that it replaces. -/
  Keeps : σ → σ → Prop
  /-- The artifact is one that an install accepts. -/
  Fits : σ → Prop
  restore : ∀ {a live img p P}, Fits a → Peer live a → M.freeze a = .ok (img, p) →
    (∀ c ∈ cursor a, c < P) →
    ∃ b, M.installSnapshot live P img = .ok (b, P) ∧ Same a b ∧ M.lastApplied b = cursor a ∧
      Keeps live b

section Idle

variable {M : RawStateMachine σ} {cursor : σ → Option UInt64}

theorem idle_append {s : σ} {fs gs : List AppFrame} :
    Idle M cursor s (fs ++ gs) ↔ Idle M cursor s fs ∧ Idle M cursor (M.run s fs) gs := by
  induction fs generalizing s with
  | nil => simp [Idle]
  | cons f fs ih => simp [Idle, ih, and_assoc]

theorem Idle.run_cursor {s : σ} {fs : List AppFrame} (h : Idle M cursor s fs) :
    cursor (M.run s fs) = cursor s := by
  induction fs generalizing s with
  | nil => rfl
  | cons f fs ih => exact (ih h.2).trans h.1.2.1

end Idle

theorem Refed.of_suffix {is js : List AppFrame} (h : js <:+ is) : Refed is js :=
  ⟨js, h, List.Sublist.refl _, rfl⟩

namespace Resumable

variable {M : SnapshotStateMachine σ} (R : M.Resumable)

/-- The positions that a machine has seen lie below the frame. -/
def Below (M : RawStateMachine σ) (s : σ) (f : AppFrame) : Prop :=
  ∀ p ∈ M.lastApplied s, p < f.ctx.position

theorem above_iff {s : σ} {f : AppFrame} : M.above s f = true ↔ Below M.toRawStateMachine s f := by
  simp [RawStateMachine.above, Below, Option.all_eq_true]

include R in
theorem below_step {s : σ} {f g : AppFrame} (hs : Below M.toRawStateMachine s g)
    (hfg : f.ctx.position < g.ctx.position) : Below M.toRawStateMachine (M.step s f).1 g := by
  intro p hp
  rcases R.step_seen s f p hp with h | ⟨p₀, h₀, hle⟩
  · grind
  · have := hs p₀ h₀
    grind

variable {fs : List AppFrame}

include R in
theorem below_run {s : σ} {g : AppFrame} (hs : Below M.toRawStateMachine s g)
    (hfs : ∀ f ∈ fs, f.ctx.position < g.ctx.position) :
    Below M.toRawStateMachine (M.run s fs) g := by
  induction fs generalizing s with
  | nil => exact hs
  | cons f fs ih => exact ih (R.below_step hs (hfs f (by simp))) fun h hh => hfs h (by simp [hh])

include R in
theorem replay_eq_run {s : σ} (ho : AppFrame.Ordered fs)
    (hs : ∀ f ∈ fs, Below M.toRawStateMachine s f) :
    M.replay s fs = M.run s fs ∧ M.replayAnswers s fs = (M.answers s fs).map some := by
  induction fs generalizing s with
  | nil => exact ⟨rfl, rfl⟩
  | cons f fs ih =>
    obtain ⟨hf, ho⟩ := List.pairwise_cons.mp ho
    have habove : M.above s f = true := above_iff.mpr (hs f (by simp))
    have hfeed : M.feed s f = ((M.step s f).1, some (M.step s f).2) := if_pos habove
    have hnext := ih ho fun g hg => below_step R (hs g (by simp [hg])) (hf g hg)
    constructor
    · simpa [RawStateMachine.replay, hfeed] using hnext.1
    · simp [RawStateMachine.replayAnswers, RawStateMachine.answers, hfeed, hnext.2]

theorem run_cursor {a : σ} {c : UInt64} (hc : c ∈ R.cursor (M.run a fs)) :
    c ∈ R.cursor a ∨ ∃ f ∈ fs, f.ctx.position = c := by
  induction fs using List.reverseRecOn with
  | nil => exact .inl hc
  | append_singleton fs f ih =>
    rw [RawStateMachine.run_concat] at hc
    rcases R.step_cursor (M.run a fs) f with hadv | ⟨hstay, -⟩
    · rw [hadv] at hc
      exact .inr ⟨f, by simp, by simpa using hc⟩
    · rw [hstay] at hc
      rcases ih hc with h | ⟨g, hg, hpos⟩
      · exact .inl h
      · exact .inr ⟨g, by simp [hg], hpos⟩

/-- The frames of a log so far are those up to the cursor and idle ones above it. -/
theorem run_split {a : σ} (ha : ∀ f ∈ fs, ∀ c ∈ R.cursor a, c < f.ctx.position)
    (ho : AppFrame.Ordered fs) :
    ∃ gs is, fs = gs ++ is ∧ Idle M.toRawStateMachine R.cursor (M.run a gs) is ∧
      (∀ f ∈ gs, ∃ c ∈ R.cursor (M.run a gs), f.ctx.position ≤ c) ∧
      ∀ f ∈ is, ∀ c ∈ R.cursor (M.run a gs), c < f.ctx.position := by
  induction fs using List.reverseRecOn with
  | nil => exact ⟨[], [], rfl, trivial, by simp, by simp⟩
  | append_singleton fs f ih =>
    obtain ⟨ho', -, hf⟩ := List.pairwise_append.mp ho
    obtain ⟨gs, is, hsplit, hidle, hgs, his⟩ := ih (fun g hg => ha g (by simp [hg])) ho'
    have hcur := hidle.run_cursor
    have hrun : M.run a fs = M.run (M.run a gs) is := by
      rw [hsplit, RawStateMachine.run_append]
    have hlt : ∀ c ∈ R.cursor (M.run a fs), c < f.ctx.position := by
      intro c hc
      rcases R.run_cursor hc with hc | ⟨g, hg, rfl⟩
      · exact ha f (by simp) c hc
      · exact hf g hg f (by simp)
    rcases R.step_cursor (M.run a fs) f with hadv | ⟨hstay, hquiet⟩
    · refine ⟨fs ++ [f], [], by simp, trivial, ?_, by simp⟩
      intro g hg
      rw [RawStateMachine.run_concat]
      refine ⟨f.ctx.position, hadv, ?_⟩
      rcases List.mem_append.mp hg with hg | hg
      · grind
      · rw [List.mem_singleton.mp hg]
        grind
    · refine ⟨gs, is ++ [f], by simp [hsplit], ?_, hgs, ?_⟩
      · refine idle_append.mpr ⟨hidle, ⟨?_, ?_, ?_⟩, trivial⟩
        · rw [← hrun]
          exact hlt
        · rw [← hrun, hstay]
        · rw [← hrun, hquiet]
      · intro g hg c hc
        rcases List.mem_append.mp hg with hg | hg
        · exact his g hg c hc
        rw [List.mem_singleton.mp hg]
        rw [← hcur, ← hrun] at hc
        exact hlt c hc

theorem replay_refed {a b : σ} {pre ks : List AppFrame} (ho : AppFrame.Ordered pre)
    (ha : ∀ f ∈ pre, ∀ c ∈ R.cursor a, c < f.ctx.position)
    (hb : M.lastApplied b = R.cursor (M.run a pre)) (hks : ks <:+ pre) :
    ∃ gs is js, pre = gs ++ is ∧ Idle M.toRawStateMachine R.cursor (M.run a gs) is ∧ js <:+ is ∧
      M.replay b ks = M.run b js := by
  obtain ⟨gs, is, rfl, hidle, hgs, his⟩ := R.run_split ha ho
  have hcur : M.lastApplied b = R.cursor (M.run a gs) := by
    rw [hb, RawStateMachine.run_append, hidle.run_cursor]
  have hord : AppFrame.Ordered is := (List.pairwise_append.mp ho).2.1
  have hisb : ∀ f ∈ is, Below M.toRawStateMachine b f := by
    intro f hf p hp
    rw [hcur] at hp
    exact his f hf p hp
  refine ⟨gs, is, ?_⟩
  obtain ⟨u, hu⟩ := hks
  rcases List.append_eq_append_iff.mp hu with ⟨gs', rfl, rfl⟩ | ⟨v, rfl, rfl⟩
  · -- what is at or below the cursor is skipped
    refine ⟨is, rfl, hidle, List.suffix_refl _, ?_⟩
    have hsame : M.replay b gs' = b := by
      refine RawStateMachine.replay_skip fun f hf => ?_
      obtain ⟨c, hc, hle⟩ := hgs f (by simp [hf])
      rw [← Bool.not_eq_true, above_iff]
      intro hbelow
      have := hbelow c (hcur ▸ hc)
      grind
    rw [RawStateMachine.replay_append, hsame]
    exact (R.replay_eq_run hord hisb).1
  · have hsub : ks <:+ v ++ ks := List.suffix_append v ks
    exact ⟨ks, rfl, hidle, hsub, (R.replay_eq_run (hord.sublist hsub.sublist)
      fun f hf => hisb f (by simp [hf])).1⟩

/-- **A restart is invisible.** `b` is what an install of an artifact of the log
    `pre` gives, and `ks` what is fed to it again of that log: from there on it
    cannot be told from a machine that never stopped. -/
theorem replay_same {a b : σ} {pre ks post : List AppFrame}
    (ho : AppFrame.Ordered (pre ++ post))
    (ha : ∀ f ∈ pre ++ post, ∀ c ∈ R.cursor a, c < f.ctx.position)
    (hab : R.Same (M.run a pre) b) (hb : M.lastApplied b = R.cursor (M.run a pre))
    (hks : ks <:+ pre) :
    R.Same (M.run a pre) (M.replay b ks) ∧
      M.replay b (ks ++ post) = M.run (M.replay b ks) post ∧
      M.replayAnswers (M.replay b ks) post = (M.answers (M.run a pre) post).map some := by
  obtain ⟨hpre, hpost, hcross⟩ := List.pairwise_append.mp ho
  obtain ⟨gs, is, js, rfl, hidle, hjs, hskip⟩ :=
    R.replay_refed hpre (fun f hf => ha f (by simp [hf])) hb hks
  have hback : R.Same (M.run a (gs ++ is)) (M.replay b ks) := by
    rw [hskip]
    rw [RawStateMachine.run_append] at hab ⊢
    exact R.trans (R.settle _ _ _ hidle (Refed.of_suffix hjs)).2 (R.sim.run hab js)
  have hbelow : ∀ f ∈ post, Below M.toRawStateMachine (M.replay b ks) f := by
    intro f hf
    rw [hskip]
    refine R.below_run (fun p hp => ?_) fun g hg => hcross g (by simp [hjs.mem hg]) f hf
    rw [hb] at hp
    rcases R.run_cursor hp with hp | ⟨g, hg, rfl⟩
    · exact ha f (by simp [hf]) p hp
    · exact hcross g hg f hf
  have hend := R.replay_eq_run hpost hbelow
  refine ⟨hback, ?_, ?_⟩
  · rw [RawStateMachine.replay_append, hend.1]
  · rw [hend.2, R.sim.answers hback post]

end Resumable

/-! ## A user's own machine -/

/-- The documented contract of a state machine: `apply` moves `last_applied` to the
    frame, `on_timer` does too unless the machine ignores the timer, and an install
    lands the state that was frozen, with the cursor that the artifact records, at
    any tag above it. -/
structure Conforms (S : SnapshotStateMachine σ) : Prop where
  apply_seen : ∀ a ctx cmd, S.lastApplied (S.apply a ctx cmd).1 = some ctx.position
  onTimer_seen : ∀ a ctx ev, S.lastApplied (S.onTimer a ctx ev).1 = some ctx.position ∨
    ((S.onTimer a ctx ev).1 = a ∧ (S.onTimer a ctx ev).2.timers = [])
  install : ∀ {a live img p P}, S.freeze a = .ok (img, p) → (∀ c ∈ S.lastApplied a, c < P) →
    S.installSnapshot live P img = .ok (a, P)

namespace Conforms

variable {S : SnapshotStateMachine σ}

theorem step_seen (h : S.Conforms) (a : σ) (f : AppFrame) :
    S.lastApplied (S.step a f).1 = some f.ctx.position ∨
      (f.isMessage = false ∧ (S.step a f).1 = a ∧ (S.step a f).2.1.timers = []) := by
  unfold RawStateMachine.step AppFrame.isMessage
  cases f.body with
  | message cmd => exact .inl (h.apply_seen a f.ctx cmd)
  | timer ev => exact (h.onTimer_seen a f.ctx ev).imp id fun h' => ⟨rfl, h'⟩

variable {a : σ}

/-- A frame that leaves the cursor behind was a timer that the machine ignored. -/
theorem idleAt (h : S.Conforms) {f : AppFrame} (hf : IdleAt S.toRawStateMachine S.lastApplied a f) :
    f.isMessage = false ∧ (S.step a f).1 = a := by
  obtain ⟨habove, hstay, -⟩ := hf
  rcases h.step_seen a f with hadv | ⟨hm, hstate, -⟩
  · have := habove f.ctx.position (by rw [← hstay, hadv]; rfl)
    grind
  · exact ⟨hm, hstate⟩

variable {fs : List AppFrame}

theorem idle_iff (h : S.Conforms) :
    Idle S.toRawStateMachine S.lastApplied a fs ↔
      ∀ f ∈ fs, IdleAt S.toRawStateMachine S.lastApplied a f := by
  induction fs with
  | nil => simp [Idle]
  | cons f fs ih =>
    rw [List.forall_mem_cons, ← ih]
    refine and_congr_right fun hf => ?_
    rw [(h.idleAt hf).2]

theorem idle_run (h : S.Conforms) (hfs : Idle S.toRawStateMachine S.lastApplied a fs) :
    S.run a fs = a := by
  induction fs with
  | nil => rfl
  | cons f fs ih =>
    have hf := (h.idleAt hfs.1).2
    rw [RawStateMachine.run_cons, hf]
    exact ih (hf ▸ hfs.2)

theorem idle_messages (h : S.Conforms) (hfs : Idle S.toRawStateMachine S.lastApplied a fs) :
    fs.filter AppFrame.isMessage = [] := by
  refine List.filter_eq_nil_iff.mpr fun f hf => ?_
  simp [(h.idleAt (h.idle_iff.mp hfs f hf)).1]

theorem settle (h : S.Conforms) {is js : List AppFrame}
    (his : Idle S.toRawStateMachine S.lastApplied a is) (hjs : Refed is js) :
    Idle S.toRawStateMachine S.lastApplied a js ∧ S.run a is = a ∧ S.run a js = a := by
  obtain ⟨ks, hks, hsub, -⟩ := hjs
  have hidle : Idle S.toRawStateMachine S.lastApplied a js :=
    h.idle_iff.mpr fun f hf => h.idle_iff.mp his f (hks.mem (hsub.mem hf))
  exact ⟨hidle, h.idle_run his, h.idle_run hidle⟩

def resumable (h : S.Conforms) : S.Resumable where
  cursor := S.lastApplied
  Same := Eq
  refl _ := rfl
  trans := Eq.trans
  sim := ⟨fun hab _ _ => by simp [hab], fun hab _ _ => by simp [hab]⟩
  step_cursor a f := by
    rcases h.step_seen a f with hadv | ⟨-, hstate, hquiet⟩
    · exact .inl hadv
    · exact .inr ⟨by rw [hstate], hquiet⟩
  step_seen a f p hp := by
    rcases h.step_seen a f with hadv | ⟨-, hstate, -⟩
    · rw [hadv] at hp
      cases hp
      exact .inl (by grind)
    · rw [hstate] at hp
      exact .inr ⟨p, hp, by grind⟩
  settle a is js his hjs := by
    obtain ⟨hidle, hrun, hrun'⟩ := h.settle his hjs
    rw [hrun]
    exact ⟨hidle, hrun'.symm⟩
  Peer _ _ := True
  Keeps _ _ := True
  Fits _ := True
  restore _ _ hfreeze hP := ⟨_, h.install hfreeze hP, rfl, rfl, trivial⟩

end Conforms

/-- A machine that remembers nothing but its cursor, and ignores timers. -/
def cursorMachine (reply : Bytes → Bytes) (ask : Bytes → List TimerReq := fun _ => []) :
    SnapshotStateMachine (Option UInt64) where
  apply _ ctx cmd := (some ctx.position, { timers := ask cmd }, reply cmd)
  onTimer s _ _ := (s, {})
  lastApplied s := s
  freeze s := .ok (s.elim [] fun n => Bytes.le 8 n.toNat, s.getD 0)
  installSnapshot _ position img := .ok ((Bytes.readNum 8 img).map fun r => .ofNat r.1, position)

theorem cursorMachine_conforms (reply : Bytes → Bytes) (ask : Bytes → List TimerReq) :
    (cursorMachine reply ask).Conforms where
  apply_seen _ _ _ := rfl
  onTimer_seen _ _ _ := .inr ⟨rfl, rfl⟩
  install := by
    intro a live img p P hfreeze _
    obtain ⟨rfl, -⟩ : (a.elim [] fun n => Bytes.le 8 n.toNat) = img ∧ a.getD 0 = p := by
      simpa [cursorMachine] using hfreeze
    cases a with
    | none => rfl
    | some n =>
      have hread := Bytes.readNum_le (show n.toNat < 256 ^ 8 from n.toNat_lt) []
      rw [List.append_nil] at hread
      simp [cursorMachine, hread]

end SnapshotStateMachine

end UltimaCluster
