/-
  Each timer is delivered exactly once: over every log, from every freeze point, and
  with `Timed` and `Sessioned` composed in either order.
-/
import UltimaCluster.ExactlyOnce
import UltimaCluster.TimedLaws
import UltimaCluster.TimedRestart

namespace UltimaCluster

open Std Bincode SnapshotStateMachine

variable {σ τ : Type}

/-! ## Either order -/

/-- The same parts, one way around and the other. -/
def Swapped (a : Timed (Sessioned σ)) (b : Sessioned (Timed σ)) : Prop :=
  a.inner.inner = b.inner.inner ∧ a.inner.table = b.table ∧ a.pending = b.inner.pending ∧
    a.tableLast = b.inner.tableLast

theorem swapped_sim (S : RawStateMachine σ) :
    (Timed.raw (Sessioned.raw S)).Sim (Sessioned.raw (Timed.raw S)) Swapped where
  apply := by
    rintro a b ⟨hin, htab, hp, ht⟩ ctx cmd
    simp only [Timed.raw, Sessioned.raw, Timed.apply, Sessioned.apply, htab, hin]
    split
    · exact ⟨⟨rfl, rfl, hp, ht⟩, rfl⟩
    · split
      · exact ⟨⟨rfl, rfl, hp, ht⟩, rfl⟩
      · exact ⟨⟨rfl, rfl, by rw [hp], ht⟩, rfl⟩
  onTimer := by
    rintro a b ⟨hin, htab, hp, ht⟩ ctx ev
    have hd : Timed.deliver { a with maxPosSeen := maxPos (some ctx.position) a.maxPosSeen } ev =
        Timed.deliver { b.inner with maxPosSeen := maxPos (some ctx.position) b.inner.maxPosSeen } ev :=
      Timed.deliver_congr hp ht ev
    obtain ⟨hp', ht'⟩ := Timed.take_congr
      (a := { a with maxPosSeen := maxPos (some ctx.position) a.maxPosSeen })
      (b := { b.inner with maxPosSeen := maxPos (some ctx.position) b.inner.maxPosSeen }) hp ht ev
    simp only [Timed.raw, Sessioned.raw, Timed.onTimer, Sessioned.onTimer, hd, hin]
    split_ifs
    · exact ⟨⟨rfl, htab, by rw [hp'], ht'⟩, rfl⟩
    · exact ⟨⟨hin, htab, hp, ht⟩, rfl⟩

/-! ## Around a ledger -/

namespace Timed

variable {codec : ImageCodec TimedImage} (hcodec : codec.Lawful) {S : SnapshotStateMachine σ}

/-- The calls of the machine inside `Timed`. -/
def around (hS : S.Conforms) :
    Around σ (machine codec S.ledger) (resumable hcodec hS.resumableLedger) where
  leaf t := t.inner
  Rest a b := a.pending = b.pending ∧ a.tableLast = b.tableLast
  same h := h
  keeps h := h
  sim cs := sim (S.ledger_sim cs)
  refed {t is js} his hjs := by
    obtain ⟨hidle, -, hrun, -⟩ := refed_run hS.resumableLedger his hjs
    have hnone : js.filter AppFrame.isMessage = [] := by
      simpa [List.filter_filter] using hS.idle_messages (ledger_idle.mp hidle)
    rw [hnone] at hrun
    exact congrArg Prod.snd hrun

theorem cursor_apply (hS : S.Conforms) (t : Timed (σ × List Call)) (ctx : ApplyCtx) (cmd : Bytes) :
    (resumable hcodec hS.resumableLedger).cursor ((machine codec S.ledger).apply t ctx cmd).1 =
      some ctx.position := hS.apply_seen t.inner.1 ctx cmd

end Timed

section Composed

variable (timed : ImageCodec Timed.TimedImage) (table : ImageCodec Sessioned.TableImage)

/-- `Sessioned` inside `Timed`. -/
def timedSessioned (S : SnapshotStateMachine σ) : SnapshotStateMachine (Timed (Sessioned σ)) :=
  Timed.machine timed (Sessioned.machine table S)

/-- `Timed` inside `Sessioned`. -/
def sessionedTimed (S : SnapshotStateMachine σ) : SnapshotStateMachine (Sessioned (Timed σ)) :=
  Sessioned.machine table (Timed.machine timed S)

variable {timed table} {S : SnapshotStateMachine σ} (htimed : timed.Lawful) (htable : table.Lawful)

theorem ledger_cursor_apply (hS : S.Conforms) (a : σ × List Call) (ctx : ApplyCtx) (cmd : Bytes) :
    hS.resumableLedger.cursor (S.ledger.apply a ctx cmd).1 = some ctx.position :=
  hS.apply_seen a.1 ctx cmd

/-- Both wrappers resume, the inner one first. -/
def timedSessioned.resumable (hS : S.Conforms) : (timedSessioned timed table S.ledger).Resumable :=
  Timed.resumable htimed (Sessioned.resumable htable hS.resumableLedger (ledger_cursor_apply hS))

/-- Both wrappers resume, the inner one first. -/
def sessionedTimed.resumable (hS : S.Conforms) : (sessionedTimed timed table S.ledger).Resumable :=
  Sessioned.resumable htable (Timed.resumable htimed hS.resumableLedger) (Timed.cursor_apply htimed hS)

/-- The calls of the machine inside both. -/
def timedSessioned.around (hS : S.Conforms) :
    Around σ (timedSessioned timed table S.ledger) (timedSessioned.resumable htimed htable hS) where
  leaf t := t.inner.inner
  Rest a b := a.inner.table = b.inner.table ∧ a.pending = b.pending ∧ a.tableLast = b.tableLast
  same h := ⟨h.1.1, h.1.2, h.2⟩
  keeps h := h
  sim cs := (Timed.sim (Sessioned.sim (S.ledger_sim cs))).congr fun _ _ => and_assoc
  refed {t is js} his hjs := by
    obtain ⟨hidle, -, hrun, -⟩ := Timed.refed_run
      (Sessioned.resumable htable hS.resumableLedger (ledger_cursor_apply hS)) his hjs
    -- the messages are retries, which do not reach the machine inside
    have hseen := Sessioned.seen_of_idle_run (ledger_cursor_apply hS) hidle
    have hin := (Sessioned.run_of_seen (S := S.ledger) fun f hf => (hseen f hf).1).1
    have hnone : Sessioned.timers (js.filter AppFrame.isMessage) = [] := by
      simp [Sessioned.timers, List.filter_filter]
    rw [hnone] at hin
    exact congrArg Prod.snd ((congrArg Sessioned.inner hrun).trans hin)

/-- The calls of the machine inside both. -/
def sessionedTimed.around (hS : S.Conforms) :
    Around σ (sessionedTimed timed table S.ledger) (sessionedTimed.resumable htimed htable hS) where
  leaf s := s.inner.inner
  Rest a b := (a.inner.pending = b.inner.pending ∧ a.inner.tableLast = b.inner.tableLast) ∧
    a.table = b.table
  same h := ⟨h.1.1, h.1.2, h.2⟩
  keeps h := h
  sim cs := (Sessioned.sim (Timed.sim (S.ledger_sim cs))).congr fun _ _ => and_assoc
  refed {s is js} his hjs := by
    have hseen := Sessioned.seen_of_idle_run (Timed.cursor_apply htimed hS) his
    obtain ⟨hrun, htab⟩ :=
      Sessioned.run_of_seen (S := Timed.machine timed S.ledger) fun f hf => (hseen f hf).1
    have hinner := (Sessioned.idle_iff (fun f hf => (hseen f hf).1) fun f hf => (hseen f hf).2).mp his
    have hmem : ∀ f ∈ js, f ∈ is := by
      obtain ⟨ks, hks, hsub, -⟩ := hjs
      exact fun f hf => hks.mem (hsub.mem hf)
    have hseen' : ∀ f ∈ js, Sessioned.Seen
        ((Sessioned.raw (Timed.machine timed S.ledger).toRawStateMachine).run s is).table f := by
      intro f hf
      rw [htab]
      exact Sessioned.seen_touches (hseen f (hmem f hf)).1 is
    have hrun' := (Sessioned.run_of_seen (S := Timed.machine timed S.ledger) hseen').1
    have hstill := (Timed.around htimed hS).refed hinner (Sessioned.refed_timers hjs)
    rw [hrun] at hrun'
    rw [← hrun', ← hrun] at hstill
    exact hstill

end Composed

/-! ## From any freeze point -/

/-- A machine restarted from an artifact of any point of a log, with any part of the
    log before it fed again: it holds the same timers and marks as one that never
    stopped and answers the same, and the calls made inside are those of the one that
    never stopped from the artifact on. -/
def Restarts (M : SnapshotStateMachine τ) (start : τ) (leaf : τ → σ × List Call) (peer : τ → Prop)
    (fits : τ → Prop) : Prop :=
  ∀ (pre ks post : List AppFrame) (art : Bytes) (p P : UInt64) (live : τ),
    AppFrame.Ordered (pre ++ post) →
    (∀ c ∈ M.lastApplied start, c < P ∧ ∀ f ∈ pre ++ post, c < f.ctx.position) →
    (∀ f ∈ pre, f.ctx.position < P) → ks <:+ pre → peer live → (leaf live).2 = [] →
    fits (M.run start pre) → M.freeze (M.run start pre) = .ok (art, p) →
    ∃ b, M.installSnapshot live P art = .ok (b, P) ∧
      M.replayAnswers (M.replay b ks) post = (M.answers (M.run start pre) post).map some ∧
      ∀ n, M.pendingTimers (M.replay b (ks ++ post.take n)) =
          M.pendingTimers (M.run start (pre ++ post.take n)) ∧
        M.tableDelivered (M.replay b (ks ++ post.take n)) =
          M.tableDelivered (M.run start (pre ++ post.take n)) ∧
        (leaf (M.replay b (ks ++ post.take n))).1 = (leaf (M.run start (pre ++ post.take n))).1 ∧
        (leaf (M.run start (pre ++ post.take n))).2 =
          (leaf (M.run start pre)).2 ++ (leaf (M.replay b (ks ++ post.take n))).2

theorem Restarts.of_around {M : SnapshotStateMachine τ} {R : M.Resumable} (A : Around σ M R)
    {start : τ} {peer fits : τ → Prop} (hstart : R.cursor start = M.lastApplied start)
    (hpeer : ∀ live fs, peer live → R.Peer live (M.run start fs))
    (hfits : ∀ fs, fits (M.run start fs) → R.Fits (M.run start fs))
    (hrest : ∀ {a b}, A.Rest a b → M.pendingTimers a = M.pendingTimers b ∧
      M.tableDelivered a = M.tableDelivered b) :
    Restarts M start A.leaf peer fits := by
  intro pre ks post art p P live ho ha hP hks hlive hcalls hfit hfreeze
  obtain ⟨b, hb, hanswers, hend⟩ := A.restart ho (by rwa [hstart]) hP hks (hfits pre hfit)
    (hpeer live pre hlive) hcalls hfreeze
  refine ⟨b, hb, hanswers, fun n => ?_⟩
  obtain ⟨h1, h2, h3⟩ := hend n
  exact ⟨(hrest h1).1.symm, (hrest h1).2.symm, h2.symm, h3⟩

section Instances

variable {timed : ImageCodec Timed.TimedImage} {table : ImageCodec Sessioned.TableImage}
variable (htimed : timed.Lawful) (htable : table.Lawful)
variable {S : SnapshotStateMachine σ} (hS : S.Conforms) (inner : σ) (cfg : SessionConfig)

include htimed hS

theorem timed_restarts : Restarts (Timed.machine timed S.ledger) (.new (inner, [])) (fun t => t.inner)
    (fun _ => True) fun t => timed.Within t.image Timed.maxImageLen := by
  refine Restarts.of_around (Timed.around htimed hS) ?_ (fun _ _ _ => trivial) (fun _ h => ⟨trivial, h⟩) ?_
  · show S.lastApplied inner = maxPos (S.lastApplied inner) none
    cases S.lastApplied inner <;> rfl
  · rintro a b ⟨hp, ht⟩
    exact ⟨congrArg ExtTreeMap.toList hp, congrArg ExtTreeMap.toList ht⟩

include htable

theorem timedSessioned_restarts :
    Restarts (timedSessioned timed table S.ledger) (.new (.new (inner, []) cfg)) (fun t => t.inner.inner)
      (fun live => live.inner.table.cfg = cfg)
      fun t => timed.Within t.image Timed.maxImageLen ∧
        table.Within t.inner.image Sessioned.maxTableBlobLen := by
  have hrun : ∀ fs, ((timedSessioned timed table S.ledger).run (.new (.new (inner, []) cfg)) fs).inner = _ :=
    fun fs => Timed.run_inner (S := Sessioned.machine table S.ledger) _ fs
  have hok : ∀ fs, ((timedSessioned timed table S.ledger).run (.new (.new (inner, []) cfg))
      fs).inner.table.Ok := by
    intro fs
    rw [hrun]
    exact Sessioned.run_ok (SessionTable.Ok.new cfg) _
  have hcfg : ∀ fs,
      ((timedSessioned timed table S.ledger).run (.new (.new (inner, []) cfg)) fs).inner.table.cfg = cfg := by
    intro fs
    rw [hrun]
    exact Sessioned.run_cfg (SessionTable.Ok.new cfg) _
  refine Restarts.of_around (timedSessioned.around htimed htable hS) ?_ ?_ ?_ ?_
  · show S.lastApplied inner = maxPos (maxPos none (S.lastApplied inner)) none
    cases S.lastApplied inner <;> rfl
  · exact fun live fs hlive => ⟨trivial, hlive.trans (hcfg fs).symm⟩
  · exact fun fs h => ⟨⟨trivial, h.2, (hok fs).exact⟩, h.1⟩
  · rintro a b ⟨-, hp, ht⟩
    exact ⟨congrArg ExtTreeMap.toList hp, congrArg ExtTreeMap.toList ht⟩

theorem sessionedTimed_restarts :
    Restarts (sessionedTimed timed table S.ledger) (.new (.new (inner, [])) cfg) (fun s => s.inner.inner)
      (fun live => live.table.cfg = cfg)
      fun s => table.Within s.image Sessioned.maxTableBlobLen ∧
        timed.Within s.inner.image Timed.maxImageLen := by
  have hok : ∀ fs, ((sessionedTimed timed table S.ledger).run (.new (.new (inner, [])) cfg) fs).table.Ok :=
    fun fs => Sessioned.run_ok (SessionTable.Ok.new cfg) fs
  have hcfg : ∀ fs, ((sessionedTimed timed table S.ledger).run (.new (.new (inner, [])) cfg)
      fs).table.cfg = cfg :=
    fun fs => Sessioned.run_cfg (SessionTable.Ok.new cfg) fs
  refine Restarts.of_around (sessionedTimed.around htimed htable hS) ?_ ?_ ?_ ?_
  · show S.lastApplied inner = maxPos none (maxPos (S.lastApplied inner) none)
    cases S.lastApplied inner <;> rfl
  · exact fun live fs hlive => ⟨trivial, hlive.trans (hcfg fs).symm⟩
  · exact fun fs h => ⟨⟨trivial, h.2⟩, h.1, (hok fs).exact⟩
  · rintro a b ⟨⟨hp, ht⟩, -⟩
    exact ⟨congrArg ExtTreeMap.toList hp, congrArg ExtTreeMap.toList ht⟩

end Instances

/-- **Each instance is delivered exactly once.** Over every log and for every inner
    machine, a timer frame reaches `on_timer` exactly when its instance is due. The
    two orders of the wrappers make the same calls inside, hold the same timers and
    answer the same; and so does a machine that restarts from any freeze point. -/
theorem timed_exactly_once (timed : ImageCodec Timed.TimedImage)
    (table : ImageCodec Sessioned.TableImage) (S : SnapshotStateMachine σ) (inner : σ)
    (cfg : SessionConfig) :
    (∀ (fs : List AppFrame) (f : AppFrame) (ev : TimerEvent), f.body = .timer ev →
      let t := (Timed.raw S.recorder).run (.new (inner, [])) fs
      let calls := ((Timed.raw S.recorder).step t f).1.inner.2
      ((if ev.table then ∀ d, Mark.ticked ev.id d ∈ marks t.inner.2 → d < ev.deadlineNs
          else Live (marks t.inner.2) ev.id ev.deadlineNs) →
        calls = t.inner.2 ++ [(f, (S.onTimer t.inner.1 f.ctx ev).2, [])]) ∧
      (¬ (if ev.table then ∀ d, Mark.ticked ev.id d ∈ marks t.inner.2 → d < ev.deadlineNs
          else Live (marks t.inner.2) ev.id ev.deadlineNs) →
        calls = t.inner.2)) ∧
    (∀ fs : List AppFrame,
      let a := (timedSessioned timed table S.ledger).run (.new (.new (inner, []) cfg)) fs
      let b := (sessionedTimed timed table S.ledger).run (.new (.new (inner, [])) cfg) fs
      a.inner.inner = b.inner.inner ∧
        (timedSessioned timed table S.ledger).pendingTimers a =
          (sessionedTimed timed table S.ledger).pendingTimers b ∧
        (timedSessioned timed table S.ledger).tableDelivered a =
          (sessionedTimed timed table S.ledger).tableDelivered b ∧
        (timedSessioned timed table S.ledger).answers (.new (.new (inner, []) cfg)) fs =
          (sessionedTimed timed table S.ledger).answers (.new (.new (inner, [])) cfg) fs) ∧
    (timed.Lawful → table.Lawful → S.Conforms →
      Restarts (Timed.machine timed S.ledger) (.new (inner, [])) (fun t => t.inner) (fun _ => True)
        (fun t => timed.Within t.image Timed.maxImageLen) ∧
      Restarts (timedSessioned timed table S.ledger) (.new (.new (inner, []) cfg)) (fun t => t.inner.inner)
        (fun live => live.inner.table.cfg = cfg)
        (fun t => timed.Within t.image Timed.maxImageLen ∧
          table.Within t.inner.image Sessioned.maxTableBlobLen) ∧
      Restarts (sessionedTimed timed table S.ledger) (.new (.new (inner, [])) cfg) (fun s => s.inner.inner)
        (fun live => live.table.cfg = cfg)
        (fun s => table.Within s.image Sessioned.maxTableBlobLen ∧
          timed.Within s.inner.image Timed.maxImageLen)) := by
  refine ⟨fun fs f ev hf => Timed.delivered_iff S.toRawStateMachine inner fs f ev hf, fun fs => ?_,
    fun htimed htable hS => ⟨timed_restarts htimed hS inner,
      timedSessioned_restarts htimed htable hS inner cfg,
      sessionedTimed_restarts htimed htable hS inner cfg⟩⟩
  have hswap := swapped_sim S.ledger.toRawStateMachine
  have hnew : Swapped (.new (.new (inner, ([] : List Call)) cfg)) (.new (.new (inner, [])) cfg) :=
    ⟨rfl, rfl, rfl, rfl⟩
  obtain ⟨hin, -, hp, ht⟩ := hswap.run hnew fs
  exact ⟨hin, congrArg ExtTreeMap.toList hp, congrArg ExtTreeMap.toList ht, hswap.answers hnew fs⟩

/-! ## Runs -/

/-- The image of the timers: two maps. -/
def timersCodec : Codec Timed.TimedImage :=
  ((Codec.u64.map Codec.u64).pair (Codec.u64.map Codec.u64)).via
    (fun img => (img.pending, img.tableLast)) fun p => ⟨p.1, p.2⟩

theorem timersCodec_lawful : timersCodec.Lawful :=
  ((Codec.u64_lawful.map Codec.u64_lawful).pair (Codec.u64_lawful.map Codec.u64_lawful)).via
    fun _ => rfl

/-- `Timed` with that encoding. -/
def Timed.encoded (S : SnapshotStateMachine σ) : SnapshotStateMachine (Timed σ) :=
  Timed.machine (Sessioned.encodedBy timersCodec) S

/-- Asks for timer 3 at 500, whatever the command. -/
def asking : SnapshotStateMachine (Option UInt64) := cursorMachine id fun _ => [.schedule 3 500]

/-- The timer at 96 was delivered, and ignored: it is fed again and dropped. The
    one at 160 comes too late, and is dropped too. -/
theorem timed_exactly_once_asking :
    ∃ art b, (Timed.encoded asking.ledger).freeze ((Timed.encoded asking.ledger).run (.new (none, []))
          [⟨⟨32, 0, 0⟩, .message [1]⟩, ⟨⟨96, 0, 0⟩, .timer ⟨3, 500, false⟩⟩]) = .ok (art, 32) ∧
      (Timed.encoded asking.ledger).installSnapshot (.new (none, [])) 160 art = .ok (b, 160) ∧
      ((Timed.encoded asking.ledger).replay b [⟨⟨96, 0, 0⟩, .timer ⟨3, 500, false⟩⟩,
        ⟨⟨160, 0, 0⟩, .timer ⟨3, 500, false⟩⟩]).inner.2 = [] := by
  obtain ⟨art, hart⟩ : ∃ art, (Timed.encoded asking.ledger).freeze ((Timed.encoded asking.ledger).run
      (.new (none, [])) [⟨⟨32, 0, 0⟩, .message [1]⟩, ⟨⟨96, 0, 0⟩, .timer ⟨3, 500, false⟩⟩]) =
      .ok (art, 32) := ⟨_, rfl⟩
  obtain ⟨b, hb, -, hend⟩ := ((timed_exactly_once (Sessioned.encodedBy timersCodec)
    (Sessioned.encodedBy Sessioned.tableCodec) asking none ⟨1, 1, 1⟩).2.2
    (Sessioned.encodedBy_lawful timersCodec_lawful)
    (Sessioned.encodedBy_lawful Sessioned.tableCodec_lawful) (cursorMachine_conforms id _)).1
      [⟨⟨32, 0, 0⟩, .message [1]⟩, ⟨⟨96, 0, 0⟩, .timer ⟨3, 500, false⟩⟩]
    [⟨⟨96, 0, 0⟩, .timer ⟨3, 500, false⟩⟩] [⟨⟨160, 0, 0⟩, .timer ⟨3, 500, false⟩⟩] art 32 160
    (.new (none, [])) (by unfold AppFrame.Ordered; decide +kernel) (by intro c hc; cases hc)
    (by decide +kernel) (List.suffix_cons _ _) trivial rfl (by decide +kernel) hart
  refine ⟨art, b, hart, hb, ?_⟩
  have hcalls := (hend 1).2.2.2
  have hnone : ((Timed.encoded asking.ledger).run (.new (none, []))
      ([⟨⟨32, 0, 0⟩, .message [1]⟩, ⟨⟨96, 0, 0⟩, .timer ⟨3, 500, false⟩⟩] ++
        [⟨⟨160, 0, 0⟩, .timer ⟨3, 500, false⟩⟩])).inner.2 =
      ((Timed.encoded asking.ledger).run (.new (none, []))
        [⟨⟨32, 0, 0⟩, .message [1]⟩, ⟨⟨96, 0, 0⟩, .timer ⟨3, 500, false⟩⟩]).inner.2 := by
    decide +kernel
  exact List.self_eq_append_right.mp (hnone.symm.trans hcalls)

/-- Timers with the ids below `n`. -/
def burst (n : ℕ) : List TimerReq := (List.range n).map fun i => .schedule (.ofNat i) 1

theorem absorb_burst {n : ℕ} (hn : n < 2 ^ 64) :
    (Timed.absorb ∅ (burst n)).size = n ∧
      ∀ id : UInt64, id ∈ Timed.absorb ∅ (burst n) → id.toNat < n := by
  induction n with
  | zero => exact ⟨rfl, by simp [burst, Timed.absorb]⟩
  | succ n ih =>
    obtain ⟨hsize, hkeys⟩ := ih (by omega)
    have hstep : Timed.absorb ∅ (burst (n + 1)) = (Timed.absorb ∅ (burst n)).insert (.ofNat n) 1 := by
      simp [burst, List.range_succ, Timed.absorb, Timed.absorbOne]
    have hid : (UInt64.ofNat n).toNat = n := by
      rw [UInt64.toNat_ofNat']
      omega
    have hnot : UInt64.ofNat n ∉ Timed.absorb ∅ (burst n) := by
      intro hmem
      have := hkeys _ hmem
      omega
    rw [hstep]
    constructor
    · rw [ExtTreeMap.size_insert, if_neg (by simpa using hnot), hsize]
    · intro id hmem
      rcases ExtTreeMap.mem_insert.mp hmem with heq | hold
      · rw [← LawfulEqOrd.eq_of_compare heq, hid]
        omega
      · have := hkeys id hold
        omega

theorem blob_burst {t : Timed σ} {n : ℕ} (hn : n < 2 ^ 32) (hp : t.pending = Timed.absorb ∅ (burst n))
    (ht : t.tableLast = ∅) :
    n ≤ (timersCodec.enc t.image).length ∧ (timersCodec.enc t.image).length < 2 ^ 64 := by
  have hlen : t.pending.toList.length = n := by
    rw [hp, ExtTreeMap.length_toList]
    exact (absorb_burst (by omega)).1
  have hpair : ∀ e : UInt64 × UInt64, ((Codec.u64.pair Codec.u64).enc e).length ≤ 18 := by
    intro e
    have h1 := Codec.varint_length_le e.1.toNat
    have h2 := Codec.varint_length_le e.2.toNat
    simp only [Codec.pair, Codec.u64, List.length_append]
    omega
  have hlow := Codec.length_le_list (Codec.u64_lawful.pair Codec.u64_lawful) t.pending.toList
  have hhigh := Codec.length_list_le (l := t.pending.toList) fun e _ => hpair e
  have hempty : ((Codec.u64.map Codec.u64).enc (∅ : ExtTreeMap UInt64 UInt64)).length = 1 := rfl
  have hblob : (timersCodec.enc t.image).length =
      ((Codec.u64.pair Codec.u64).list.enc t.pending.toList).length + 1 := by
    simp only [Timed.image, timersCodec, Codec.via, ht]
    rw [Codec.pair, List.length_append, hempty]
    rfl
  rw [hlen] at hlow hhigh
  omega

theorem run_burst (n : ℕ) : (Timed.encoded (cursorMachine id fun _ => burst n)).run (.new none)
    [⟨⟨32, 0, 0⟩, .message []⟩] = ⟨some 32, Timed.absorb ∅ (burst n), ∅, some 32⟩ := rfl

/-- A command that asks for 2^26 + 1 timers: the artifact is frozen, and no machine
    installs it. -/
theorem frozen_timers_refused :
    ∃ art len, (Timed.encoded (cursorMachine id fun _ => burst (2 ^ 26 + 1))).freeze
        ((Timed.encoded (cursorMachine id fun _ => burst (2 ^ 26 + 1))).run (.new none)
          [⟨⟨32, 0, 0⟩, .message []⟩]) = .ok (art, 32) ∧
      ∀ live P, (Timed.encoded (cursorMachine id fun _ => burst (2 ^ 26 + 1))).installSnapshot live P
          art =
        .error (.codec ("timed image blob length " ++ toString (len : ℕ) ++ " exceeds the " ++
          toString Timed.maxImageLen ++ "-byte sanity bound")) := by
  generalize hn : 2 ^ 26 + 1 = n
  rw [run_burst]
  obtain ⟨hlow, hhigh⟩ := blob_burst (σ := Option UInt64)
    (t := ⟨some 32, Timed.absorb ∅ (burst n), ∅, some 32⟩) (by omega) rfl rfl
  refine ⟨_, _, Timed.freeze_eq rfl rfl, fun live P => Timed.install_too_long ?_ hhigh⟩
  unfold Timed.maxImageLen
  omega

end UltimaCluster
