/-
  The calls that a state machine takes across a restart.

  `ledger S` is `S` with the calls of its process: an install replaces the state and
  keeps the calls. For a machine built around one (`Around`), `Around.restart` says
  that the machine that never stopped has taken the calls up to the artifact and then
  exactly those of the restarted one: none is lost and none is made twice.
-/
import UltimaCluster.Machine

namespace UltimaCluster

namespace SnapshotStateMachine

variable {σ τ : Type}

/-- What a machine was called with, and its answer. -/
abbrev Call := AppFrame × Sched × Bytes

def ledger (S : SnapshotStateMachine σ) : SnapshotStateMachine (σ × List Call) where
  toRawStateMachine := S.recorder
  freeze s := S.freeze s.1
  installSnapshot live position img :=
    (S.installSnapshot live.1 position img).map fun r => ((r.1, live.2), r.2)

section Ledger

variable {S : SnapshotStateMachine σ}

theorem ledger_step (a : σ × List Call) (f : AppFrame) :
    (S.ledger.step a f).1.1 = (S.step a.1 f).1 ∧ (S.ledger.step a f).2 = (S.step a.1 f).2 := by
  unfold RawStateMachine.step
  cases f.body <;> exact ⟨rfl, rfl⟩

theorem ledger_run (a : σ × List Call) (fs : List AppFrame) :
    (S.ledger.run a fs).1 = S.run a.1 fs :=
  (RawStateMachine.recorder_sim S.toRawStateMachine).run rfl fs

theorem ledger_idle {a : σ × List Call} {fs : List AppFrame} :
    Idle S.ledger.toRawStateMachine (fun s => S.lastApplied s.1) a fs ↔
      Idle S.toRawStateMachine S.lastApplied a.1 fs := by
  induction fs generalizing a with
  | nil => exact Iff.rfl
  | cons f fs ih =>
    obtain ⟨hstate, hout⟩ := ledger_step (S := S) a f
    unfold Idle IdleAt
    dsimp only
    rw [ih, hstate, hout]

theorem ledger_sim (S : SnapshotStateMachine σ) (cs : List Call) :
    S.ledger.Sim S.ledger.toRawStateMachine fun a b => a.1 = b.1 ∧ a.2 = cs ++ b.2 where
  apply := by
    rintro ⟨a, ca⟩ ⟨b, cb⟩ ⟨hab, hcalls⟩ ctx cmd
    dsimp only at hab hcalls
    subst hab hcalls
    refine ⟨⟨rfl, ?_⟩, rfl⟩
    exact List.append_assoc cs cb _
  onTimer := by
    rintro ⟨a, ca⟩ ⟨b, cb⟩ ⟨hab, hcalls⟩ ctx ev
    dsimp only at hab hcalls
    subst hab hcalls
    refine ⟨⟨rfl, ?_⟩, rfl⟩
    exact List.append_assoc cs cb _

def Conforms.resumableLedger (h : S.Conforms) : S.ledger.Resumable where
  cursor s := S.lastApplied s.1
  Same a b := a.1 = b.1
  refl _ := rfl
  trans := Eq.trans
  sim := {
    apply := by
      rintro ⟨a, ca⟩ ⟨b, cb⟩ hab ctx cmd
      dsimp only at hab
      subst hab
      exact ⟨rfl, rfl⟩
    onTimer := by
      rintro ⟨a, ca⟩ ⟨b, cb⟩ hab ctx ev
      dsimp only at hab
      subst hab
      exact ⟨rfl, rfl⟩ }
  step_cursor a f := by
    obtain ⟨hstate, hout⟩ := ledger_step (S := S) a f
    rw [hstate, hout]
    exact h.resumable.step_cursor a.1 f
  step_seen a f p hp := by
    have hp' : p ∈ S.lastApplied (S.step a.1 f).1 := by
      rw [← (ledger_step (S := S) a f).1]
      exact hp
    exact h.resumable.step_seen a.1 f p hp'
  settle a is js his hjs := by
    obtain ⟨hidle, hrun, hrun'⟩ := h.settle (ledger_idle.mp his) hjs
    rw [ledger_idle, ledger_run, hrun, ledger_run, ledger_run, hrun, hrun']
    exact ⟨hidle, rfl⟩
  Peer _ _ := True
  Keeps live b := b.2 = live.2
  Fits _ := True
  restore := by
    intro a live img p P _ _ hfreeze hP
    have hinstall : S.installSnapshot live.1 P img = .ok (a.1, P) := h.install hfreeze hP
    exact ⟨(a.1, live.2), by simp [ledger, hinstall, Except.map], rfl, rfl, rfl⟩

end Ledger

/-- A machine around one with a ledger. -/
structure Around (σ : Type) (M : SnapshotStateMachine τ) (R : M.Resumable) where
  leaf : τ → σ × List Call
  /-- What is the machine's own. -/
  Rest : τ → τ → Prop
  same : ∀ {a b}, R.Same a b → (leaf a).1 = (leaf b).1 ∧ Rest a b
  keeps : ∀ {live b}, R.Keeps live b → (leaf b).2 = (leaf live).2
  sim : ∀ cs, M.Sim M.toRawStateMachine
    fun a b => ((leaf a).1 = (leaf b).1 ∧ (leaf a).2 = cs ++ (leaf b).2) ∧ Rest a b
  /-- Idle frames that are fed again make no call. -/
  refed : ∀ {a is js}, Idle M.toRawStateMachine R.cursor a is → Refed is js →
    (leaf (M.run (M.run a is) js)).2 = (leaf (M.run a is)).2

theorem Around.restart {M : SnapshotStateMachine τ} {R : M.Resumable} (A : Around σ M R) {a live : τ}
    {pre ks post : List AppFrame} {img : Bytes} {p P : UInt64}
    (ho : AppFrame.Ordered (pre ++ post))
    (ha : ∀ c ∈ R.cursor a, c < P ∧ ∀ f ∈ pre ++ post, c < f.ctx.position)
    (hP : ∀ f ∈ pre, f.ctx.position < P) (hks : ks <:+ pre)
    (hfits : R.Fits (M.run a pre)) (hpeer : R.Peer live (M.run a pre)) (hlive : (A.leaf live).2 = [])
    (hfreeze : M.freeze (M.run a pre) = .ok (img, p)) :
    ∃ b, M.installSnapshot live P img = .ok (b, P) ∧
      M.replayAnswers (M.replay b ks) post = (M.answers (M.run a pre) post).map some ∧
      ∀ n, A.Rest (M.run a (pre ++ post.take n)) (M.replay b (ks ++ post.take n)) ∧
        (A.leaf (M.run a (pre ++ post.take n))).1 = (A.leaf (M.replay b (ks ++ post.take n))).1 ∧
        (A.leaf (M.run a (pre ++ post.take n))).2 =
          (A.leaf (M.run a pre)).2 ++ (A.leaf (M.replay b (ks ++ post.take n))).2 := by
  have hcursor : ∀ c ∈ R.cursor (M.run a pre), c < P := by
    intro c hc
    rcases R.run_cursor hc with hc | ⟨f, hf, rfl⟩
    · exact (ha c hc).1
    · exact hP f hf
  obtain ⟨b, hb, hsame, hseen, hkeeps⟩ := R.restore hfits hpeer hfreeze hcursor
  have hstart : ∀ f ∈ pre ++ post, ∀ c ∈ R.cursor a, c < f.ctx.position :=
    fun f hf c hc => (ha c hc).2 f hf
  have hcalls : (A.leaf (M.run a pre)).2 = (A.leaf (M.run a pre)).2 ++ (A.leaf b).2 := by
    rw [A.keeps hkeeps, hlive, List.append_nil]
  -- feeding again what the journal still holds makes no call
  have hrefed : (A.leaf (M.replay b ks)).2 = [] := by
    obtain ⟨gs, is, js, hpre, hidle, hjs, hskip⟩ := R.replay_refed
      (List.pairwise_append.mp ho).1 (fun f hf => hstart f (by simp [hf])) hseen hks
    obtain ⟨hleaf, hrest⟩ := A.same hsame
    obtain ⟨⟨-, hrun⟩, -⟩ := (A.sim _).run ⟨⟨hleaf, hcalls⟩, hrest⟩ js
    have hstill := A.refed hidle (Refed.of_suffix hjs)
    have hpre' : M.run (M.run a gs) is = M.run a pre := by
      rw [hpre, RawStateMachine.run_append]
    rw [hpre', hrun, ← hskip] at hstill
    simpa using hstill
  refine ⟨b, hb, (R.replay_same ho hstart hsame hseen hks).2.2, fun n => ?_⟩
  have hsub : (pre ++ post.take n).Sublist (pre ++ post) :=
    (List.take_sublist n post).append_left pre
  obtain ⟨hback, hreplay, -⟩ :=
    R.replay_same (ho.sublist hsub) (fun f hf => hstart f (hsub.mem hf)) hsame hseen hks
  obtain ⟨hleaf, hrest⟩ := A.same hback
  have hnow : (A.leaf (M.run a pre)).2 = (A.leaf (M.run a pre)).2 ++ (A.leaf (M.replay b ks)).2 := by
    rw [hrefed, List.append_nil]
  obtain ⟨⟨h1, h2⟩, h3⟩ := (A.sim _).run ⟨⟨hleaf, hnow⟩, hrest⟩ (post.take n)
  rw [hreplay, RawStateMachine.run_append]
  exact ⟨h3, h1, h2⟩

end SnapshotStateMachine

end UltimaCluster
