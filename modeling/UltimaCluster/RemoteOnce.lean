/-
  The completions of the remote client, over whole runs.
-/
import UltimaCluster.RemoteProducer

namespace UltimaCluster

namespace Remote

/-- The slot is about to be published. -/
def ClaimPc.publishes : ClaimPc → Bool
  | .publish _ => true
  | _ => false

namespace RemoteEngine

variable {cfg : EngineConfig} {n n' : RemoteEngine} {s : ℕ}

/-! ## What is said -/

/-- The callbacks of a state. -/
structure Once (cfg : EngineConfig) (n : RemoteEngine) : Prop where
  /-- No request is completed twice. -/
  nodup : (n.queue.delivered.map fun x => x.1.seq).Nodup
  /-- A completion is that of a call that was not refused, with its user data;
      and a response's is that of a response to it, with its body. -/
  right : ∀ x ∈ n.queue.delivered, n.Right cfg x.1 x.2 ∧
    ∀ c, n.callOf cfg x.1.seq = some c → c.id ∉ n.refused

/-- The request is completed, or its completion was given up when the link was
    closed and the queue had no room for it. -/
def Done (n : RemoteEngine) (s : ℕ) : Prop :=
  (∃ x ∈ n.queue.delivered, x.1.seq = s) ∨ ∃ d ∈ n.dropped, d.seq = s ∧ d.full = true

/-- All that was pushed is polled. -/
def Drained (n : RemoteEngine) : Prop := n.queue.drain = .idle ∧ n.queue.head = n.queue.tail

/-- Every accepted request has one completion: when the threads have ended, and,
    while the link is open, when a sweep has passed over its deadline. -/
def ExactlyOnce (cfg : EngineConfig) (sts : List EngineStep) : Prop :=
  ∀ k, (run cfg (start cfg) (sts.take k)).Once cfg ∧
    ((run cfg (start cfg) (sts.take k)).Drained →
      ((run cfg (start cfg) (sts.take k)).prod = .exited →
        ∀ s, (run cfg (start cfg) (sts.take k)).Accepted cfg s →
          (run cfg (start cfg) (sts.take k)).Done s) ∧
      ((run cfg (start cfg) (sts.take k)).prod = .reading →
        ∀ j now s c, j < k → sts[j]? = some (.sweep now) →
          (run cfg (start cfg) (sts.take j)).Accepted cfg s →
          (run cfg (start cfg) (sts.take j)).callOf cfg s = some c → c.deadlineNs ≤ now →
          (run cfg (start cfg) (sts.take k)).Done s))

/-! ## Passes -/

/-- A pass will still come to the slot of a request. -/
def PassAhead (cfg : EngineConfig) (s i : ℕ) : PassStage → Prop
  | .owner => i ≤ slot cfg s
  | .deadline a | .userData a | .exchange a _ => i < slot cfg s ∨ i = slot cfg s ∧ a = s

instance (s i : ℕ) : (stage : PassStage) → Decidable (PassAhead cfg s i stage)
  | .owner => inferInstanceAs (Decidable (_ ≤ _))
  | .deadline _ | .userData _ | .exchange _ _ => inferInstanceAs (Decidable (_ ∨ _))

/-- An abort pass will still come to the slot: that of the reader, when it ends,
    or one that is under way. -/
def AbortAhead (cfg : EngineConfig) (s : ℕ) : ProducerPc → Prop
  | .pass .abort i stage _ => PassAhead cfg s i stage
  | .push _ _ _ _ _ exits | .check _ _ _ exits _ => exits = false
  | .exited => False
  | .reading | .kindOwner _ | .kindWord _ | .minWord _ _ | .take _ _ | .pass (.sweep _) _ _ _ => True

instance (s : ℕ) : (pc : ProducerPc) → Decidable (AbortAhead cfg s pc)
  | .pass .abort i stage _ => inferInstanceAs (Decidable (PassAhead cfg s i stage))
  | .push _ _ _ _ _ _ => inferInstanceAs (Decidable (_ = _))
  | .check _ _ _ _ _ => inferInstanceAs (Decidable (_ = _))
  | .exited => .isFalse id
  | .reading | .kindOwner _ | .kindWord _ | .minWord _ _ | .take _ _ | .pass (.sweep _) _ _ _ =>
    .isTrue trivial

/-- The completion that would be given up has no room, or had none when the link
    was closed. -/
def Excused (cfg : EngineConfig) (n : RemoteEngine) : ProducerPc → Prop
  | .check _ body _ _ full => n.closed = true → full = true ∨ ¬ n.queue.Room cfg.queue body
  | _ => True

instance (n : RemoteEngine) : (pc : ProducerPc) → Decidable (n.Excused cfg pc)
  | .check _ _ _ _ _ => inferInstanceAs (Decidable (_ → _))
  | .reading | .kindOwner _ | .kindWord _ | .minWord _ _ | .take _ _ | .pass _ _ _ _
  | .push _ _ _ _ _ _ | .exited => .isTrue trivial

/-- A slot is published before the last abort pass comes to it, and no completion
    is given up with room for it. -/
def Orderly (cfg : EngineConfig) (n : RemoteEngine) : EngineStep → Prop
  | .submitter _ => n.sub.publishes = true → AbortAhead cfg n.seqNext n.prod
  | .producer => n.Excused cfg n.prod
  | _ => True

instance (n : RemoteEngine) : (st : EngineStep) → Decidable (n.Orderly cfg st)
  | .submitter _ => inferInstanceAs (Decidable (_ → _))
  | .producer => inferInstanceAs (Decidable (n.Excused cfg n.prod))
  | .send _ _ _ _ | .frame _ | .sweep _ | .exit | .closer | .close | .poll _ | .poller => .isTrue trivial

/-! ## Live requests -/

theorem slot_lt (cfg : EngineConfig) (s : ℕ) : slot cfg s < cfg.slots := Nat.mod_lt _ cfg.slots_pos

/-- A step of a pass: a live request that it will come to is taken, or it will
    still come to it. -/
theorem Kept.passAhead (h : n.Kept cfg) {mode : PassMode} {i : ℕ} {stage : PassStage}
    {fired : List (ℕ × ℕ)} (hpc : n.prod = .pass mode i stage fired) (ha : PassAhead cfg s i stage)
    (hdue : ∀ now, mode = .sweep now → n.deadlineNs (slot cfg s) ≤ now) (hl : n.Live cfg s) :
    ¬ (n.producer cfg).Live cfg s ∨ ∃ i' stage' fired',
      (n.producer cfg).prod = .pass mode i' stage' fired' ∧ PassAhead cfg s i' stage' := by
  have hat := h.righted.producerAt
  rw [hpc] at hat
  have hstage := hat.2
  have hlt := slot_lt cfg s
  simp only [RemoteEngine.producer, hpc]
  cases stage with
  | owner =>
    have ha : i ≤ slot cfg s := ha
    simp only [RemoteEngine.passStep, if_pos (show i < cfg.slots by omega)]
    -- At the slot itself the word names the request.
    have hnext : n.owner i ≠ .seq s → i + 1 ≤ slot cfg s := by
      intro hne
      refine Nat.lt_of_le_of_ne ha fun heq => hne ?_
      rw [heq]
      exact hl
    cases howner : n.owner i with
    | seq a =>
      have hor : i < slot cfg s ∨ i = slot cfg s ∧ a = s := by
        rcases Nat.lt_or_eq_of_le ha with hi | hi
        · exact .inl hi
        · refine .inr ⟨hi, ?_⟩
          rw [hi, hl] at howner
          injection howner with howner
          exact howner.symm
      cases mode with
      | sweep now => exact .inr ⟨_, _, _, rfl, hor⟩
      | abort => exact .inr ⟨_, _, _, rfl, hor⟩
    | free => exact .inr ⟨_, _, _, rfl, hnext (by rw [howner]; simp)⟩
    | reserved => exact .inr ⟨_, _, _, rfl, hnext (by rw [howner]; simp)⟩
  | deadline a =>
    cases mode with
    | sweep now =>
      simp only [RemoteEngine.passStep]
      split
      · refine .inr ⟨_, _, _, rfl, ?_⟩
        rcases ha with ha | ⟨rfl, -⟩
        · exact ha
        · have := hdue now rfl
          omega
      · exact .inr ⟨_, _, _, rfl, ha⟩
    | abort => exact .inr ⟨_, _, _, rfl, ha⟩
  | userData a => exact .inr ⟨_, _, _, rfl, ha⟩
  | exchange a ud =>
    simp only [RemoteEngine.passStep, if_pos hstage.1]
    rcases ha with ha | ⟨rfl, rfl⟩
    · exact .inr ⟨_, _, _, rfl, ha⟩
    · refine .inl fun hc => ?_
      simp [Live, RemoteEngine.free] at hc

theorem live_of_producer (hl : (n.producer cfg).Live cfg s) : n.Live cfg s := by
  have hfree : ∀ i (m : RemoteEngine), m.owner = Function.update n.owner i .free →
      m.Live cfg s → n.Live cfg s := by
    intro i m hm hl
    rw [Live, hm] at hl
    by_cases hi : slot cfg s = i
    · rw [hi, Function.update_self] at hl
      cases hl
    · rwa [Function.update_of_ne hi] at hl
  revert hl
  unfold producer passStep
  repeat' split
  all_goals first | exact id | exact hfree _ _ rfl

variable {st : EngineStep}

theorem Kept.live_of_step (h : n.Kept cfg) (hc : (n.callOf cfg s).isSome)
    (hl : (RemoteEngine.step cfg n st).Live cfg s) : n.Live cfg s := by
  have hlt := (callOf_isSome.mp hc).2
  cases st with
  | submitter ok => exact ((subMoves_submitter h.claimed ok).live hlt).mp hl
  | producer => exact live_of_producer hl
  | send ud kind deadline min =>
    simp only [RemoteEngine.step] at hl
    split at hl <;> exact hl
  | frame a => cases a <;> exact hl
  | sweep now | exit | closer | close | poll max | poller => exact hl

/-- No live request is behind the last abort pass, and what was given up had no
    room. -/
structure Ordered (cfg : EngineConfig) (n : RemoteEngine) : Prop where
  ahead : ∀ s, n.Live cfg s → AbortAhead cfg s n.prod
  full : ∀ d ∈ n.dropped, d.full = true

theorem abortAhead_settle (rs : List Record) : AbortAhead cfg s (settle false rs) := by
  cases rs <;> trivial

theorem Kept.abortAhead (h : n.Kept cfg) (ha : AbortAhead cfg s n.prod)
    (hl : (n.producer cfg).Live cfg s) : AbortAhead cfg s (n.producer cfg).prod := by
  have hlive := live_of_producer hl
  cases hpc : n.prod with
  | reading | exited =>
    rw [hpc] at ha
    simp only [RemoteEngine.producer, hpc]
    exact ha
  | kindWord r =>
    simp only [RemoteEngine.producer, hpc]
    trivial
  | kindOwner r | minWord r kind =>
    simp only [RemoteEngine.producer, hpc]
    split <;> trivial
  | take a stage =>
    cases stage with
    | userData =>
      simp only [RemoteEngine.producer, hpc]
      trivial
    | owner | exchange ud =>
      simp only [RemoteEngine.producer, hpc]
      split <;> trivial
  | pass mode i stage fired =>
    cases mode with
    | abort =>
      rw [hpc] at ha
      rcases h.passAhead hpc ha (fun now hnow => by cases hnow) hlive with hno | ⟨i', st, f, hpc', ha'⟩
      · exact absurd hl hno
      · rw [hpc']
        exact ha'
    | sweep now =>
      simp only [RemoteEngine.producer, hpc]
      cases stage with
      | owner =>
        simp only [RemoteEngine.passStep]
        split
        · split <;> trivial
        · exact abortAhead_settle _
      | userData a => trivial
      | deadline a | exchange a ud =>
        simp only [RemoteEngine.passStep]
        split <;> trivial
  | push r body stage again rest exits =>
    rw [hpc] at ha
    obtain rfl : exits = false := ha
    simp only [RemoteEngine.producer, hpc]
    split
    · rfl
    · exact abortAhead_settle _
    · split <;> rfl
  | check r body rest exits full =>
    rw [hpc] at ha
    obtain rfl : exits = false := ha
    simp only [RemoteEngine.producer, hpc]
    split
    · exact abortAhead_settle _
    · rfl

theorem dropped_producer (ho : n.Excused cfg n.prod) (hfull : ∀ d ∈ n.dropped, d.full = true) :
    ∀ d ∈ (n.producer cfg).dropped, d.full = true := by
  cases hpc : n.prod with
  | check r body rest exits full =>
    rw [hpc] at ho
    simp only [producer, hpc]
    split
    · rename_i hclosed
      refine List.forall_mem_snoc hfull ?_
      rcases ho hclosed with hf | hroom
      · simp [hf]
      · simp [hroom]
    · exact hfull
  | take a stage =>
    cases stage <;> simp only [producer, hpc] <;> try split
    all_goals exact hfull
  | pass mode i stage fired =>
    cases stage <;> simp only [producer, hpc, passStep] <;> repeat' split
    all_goals exact hfull
  | _ =>
    simp only [producer, hpc]
    repeat' split
    all_goals exact hfull

/-- A request that becomes live with a step of the submitter is published by
    it. -/
theorem Kept.published (h : n.Kept cfg) {ok : Bool} (hl : (n.submitter cfg ok).Live cfg s)
    (hs : cfg.firstSeq + n.calls.length ≤ s) : n.sub.publishes = true ∧ s = n.seqNext := by
  have hlt := (h.claimed.submitter ok).owned_lt hl
  have hnum := h.claimed.seqNext
  cases hsub : n.sub with
  | publish c =>
    rw [hsub] at hnum
    simp only [ClaimPc.unnumbered, Nat.add_zero] at hnum
    simp only [RemoteEngine.submitter, hsub, List.length_append, List.length_singleton] at hlt
    exact ⟨rfl, by omega⟩
  | _ =>
    exfalso
    have hcalls : (n.submitter cfg ok).calls = n.calls := by
      simp only [RemoteEngine.submitter, hsub, RemoteEngine.refuse]
      try split
      all_goals rfl
    rw [hcalls] at hlt
    omega

theorem Ordered.step (o : n.Ordered cfg) (h : n.Kept cfg) (ho : n.Orderly cfg st) :
    (step cfg n st).Ordered cfg := by
  cases st with
  | producer =>
    exact ⟨fun s hl => h.abortAhead (o.ahead s (live_of_producer hl)) hl, dropped_producer ho o.full⟩
  | submitter ok =>
    have m := subMoves_submitter h.claimed ok
    refine ⟨fun s hl => ?_, m.dropped ▸ o.full⟩
    show AbortAhead cfg s (n.submitter cfg ok).prod
    rw [m.prod]
    rcases Nat.lt_or_ge s (cfg.firstSeq + n.calls.length) with hlt | hge
    · exact o.ahead s ((m.live hlt).mp hl)
    · -- A request that is new was published by this step.
      obtain ⟨hpub, rfl⟩ := h.published hl hge
      exact ho hpub
  | send ud kind deadline min =>
    simp only [RemoteEngine.step]
    split <;> exact ⟨o.ahead, o.full⟩
  | frame a => cases a <;> exact ⟨fun _ _ => trivial, o.full⟩
  | sweep now => exact ⟨fun _ _ => trivial, o.full⟩
  | exit | closer => exact ⟨fun _ _ => Nat.zero_le _, o.full⟩
  | close | poll max | poller => exact ⟨o.ahead, o.full⟩

/-- A request that a sweep will come to, or that is not live. -/
def Swept (cfg : EngineConfig) (n : RemoteEngine) (s now : ℕ) : Prop :=
  n.Live cfg s → ∃ i stage fired, n.prod = .pass (.sweep now) i stage fired ∧ PassAhead cfg s i stage

theorem Swept.step {now : ℕ} {c : Call} (w : n.Swept cfg s now) (h : n.Kept cfg)
    (hp : n.Possible cfg st) (hc : n.callOf cfg s = some c) (hdue : c.deadlineNs ≤ now) :
    (step cfg n st).Swept cfg s now := by
  intro hl
  have hlive := h.live_of_step (Option.isSome_of_eq_some hc) hl
  obtain ⟨i, stage, fired, hpc, ha⟩ := w hlive
  cases st with
  | producer =>
    refine (h.passAhead hpc ha ?_ hlive).resolve_left fun hno => hno hl
    rintro t ⟨⟩
    obtain ⟨-, c', hc', hw⟩ := h.claimed.owned _ _ hlive
    rw [hc, Option.some.injEq] at hc'
    rwa [hw.deadlineNs, ← hc']
  | submitter ok => exact ⟨i, stage, fired, (subMoves_submitter h.claimed ok).prod.trans hpc, ha⟩
  | send ud kind deadline min =>
    refine ⟨i, stage, fired, ?_, ha⟩
    simp only [RemoteEngine.step]
    split <;> exact hpc
  | frame a | exit | closer =>
    have hother := hp.1
    rw [hpc] at hother
    cases hother
  | sweep t =>
    have hreading : n.prod = .reading := hp
    rw [hpc] at hreading
    cases hreading
  | close | poll max | poller => exact ⟨i, stage, fired, hpc, ha⟩

/-! ## Every run -/

theorem Kept.once (h : n.Kept cfg) : n.Once cfg := by
  have hdel := h.piped.delivered
  have hsub : ∀ x ∈ n.queue.delivered, x ∈ n.queue.pushed := by
    rw [hdel]
    exact fun x hx => List.mem_of_mem_take hx
  refine ⟨?_, fun x hx => ⟨h.righted.pushed x (hsub x hx), fun c hc hmem => ?_⟩⟩
  · have hnodup : (n.queue.pushed.map fun x => x.1.seq).Nodup := by
      have := h.settled.nodup
      rw [RemoteEngine.settled, List.append_assoc] at this
      exact (List.nodup_append.mp this).1
    rw [hdel, List.map_take]
    exact hnodup.sublist (List.take_sublist _ _)
  · have hids := (List.nodup_append.mp h.claimed.ids).1
    refine (List.nodup_append.mp hids).2.2 c.id ?_ c.id hmem rfl
    unfold callOf at hc
    split at hc
    · exact List.mem_map_of_mem (List.mem_of_getElem? hc)
    · cases hc

/-- A request that is not live is done, when the producer holds nothing and all
    is polled. -/
theorem Kept.done (h : n.Kept cfg) (o : n.Ordered cfg) (hcall : (n.callOf cfg s).isSome)
    (hl : ¬ n.Live cfg s) (hh : n.prod.hands = []) (hd : n.Drained) : n.Done s := by
  have hmem := (h.settled.covered s hcall).resolve_left hl
  rw [RemoteEngine.settled, hh, List.append_nil, List.mem_append] at hmem
  rcases hmem with hmem | hmem
  · obtain ⟨x, hx, rfl⟩ := List.mem_map.mp hmem
    refine .inl ⟨x, ?_, rfl⟩
    have hcur : n.queue.cursor = n.queue.pushed.length := by
      rw [CompletionQueue.cursor, hd.1, ← hd.2, h.piped.head]
    rwa [h.piped.delivered, hcur, List.take_length]
  · obtain ⟨d, hdm, rfl⟩ := List.mem_map.mp hmem
    exact .inr ⟨d, hdm, rfl, o.full d hdm⟩

theorem Ordered.run {sts : List EngineStep} (hrun : Runs cfg (start cfg) sts)
    (hord : Trace.Admits (RemoteEngine.step cfg) (Orderly cfg) (start cfg) sts) :
    (RemoteEngine.run cfg (start cfg) sts).Ordered cfg := by
  have hboth : Trace.Admits (RemoteEngine.step cfg) (fun n st => Possible cfg n st ∧ Orderly cfg n st)
      (start cfg) sts := Trace.admits_iff_getElem?.mpr fun j st hj =>
    ⟨Trace.admits_iff_getElem?.mp hrun j st hj, Trace.admits_iff_getElem?.mp hord j st hj⟩
  have hinv : (RemoteEngine.run cfg (start cfg) sts).Kept cfg ∧
      (RemoteEngine.run cfg (start cfg) sts).Ordered cfg := by
    refine Trace.Admits.rule (P := fun l => (RemoteEngine.run cfg (start cfg) l).Kept cfg ∧
      (RemoteEngine.run cfg (start cfg) l).Ordered cfg) ⟨kept_start, ?_, by simp [RemoteEngine.run, start]⟩ ?_
      hboth
    · intro s hl
      cases hl
    · rintro l st ⟨h, o⟩ ⟨hp, ho⟩
      unfold RemoteEngine.run at h o ⊢
      rw [List.foldl_append]
      exact ⟨h.step hp, o.step h ho⟩
  exact hinv.2

theorem calls_step (cfg : EngineConfig) (n : RemoteEngine) (st : EngineStep) :
    ∃ cs, (step cfg n st).calls = n.calls ++ cs := by
  have hsame : ∃ cs, n.calls = n.calls ++ cs := ⟨[], (List.append_nil _).symm⟩
  cases st with
  | submitter ok =>
    simp only [step, submitter, refuse]
    repeat' split
    all_goals first | exact hsame | exact ⟨_, rfl⟩
  | producer =>
    have hprod : (n.producer cfg).calls = n.calls := by
      unfold producer passStep free
      repeat' split
      all_goals rfl
    exact ⟨[], by rw [step, hprod, List.append_nil]⟩
  | send ud kind deadline min =>
    simp only [step]
    split <;> exact hsame
  | frame a => cases a <;> exact hsame
  | sweep now | exit | closer | close | poll max | poller => exact hsame

theorem Swept.run {sts : List EngineStep} {now : ℕ} {c : Call} (w : n.Swept cfg s now)
    (h : n.Kept cfg) (hrun : Runs cfg n sts) (hc : n.callOf cfg s = some c)
    (hdue : c.deadlineNs ≤ now) :
    (RemoteEngine.run cfg n sts).Swept cfg s now ∧
      (RemoteEngine.run cfg n sts).callOf cfg s = some c := by
  induction sts generalizing n with
  | nil => exact ⟨w, hc⟩
  | cons st sts ih =>
    obtain ⟨hp, hrest⟩ := hrun
    obtain ⟨cs, hcs⟩ := calls_step cfg n st
    exact ih (w.step h hp hc hdue) (h.step hp) hrest (callOf_append hc hcs)

/-- In every run in which no slot is published behind the last abort pass and no completion is
    given up with room for it, every accepted request has one completion. -/
theorem once_of_orderly {sts : List EngineStep} (hrun : Runs cfg (start cfg) sts)
    (hord : Trace.Admits (step cfg) (Orderly cfg) (start cfg) sts) : ExactlyOnce cfg sts := by
  intro k
  have h := Kept.run (hrun.take k)
  have o := Ordered.run (hrun.take k) (hord.take k)
  refine ⟨h.once, fun hd => ⟨fun hex s hs => ?_, fun hreading j now s c hj hst _ hc hdue => ?_⟩⟩
  · refine h.done o ?_ (fun hl => ?_) (by rw [hex]; rfl) hd
    · exact callOf_isSome.mpr ⟨hs.1, h.claimed.accepted_lt hs⟩
    · have := o.ahead s hl
      rw [hex] at this
      exact this
  · -- The run from the sweep on.
    have hsplit : sts.take k = sts.take j ++ EngineStep.sweep now :: (sts.take k).drop (j + 1) := by
      have hget : (sts.take k)[j]? = some (.sweep now) := by
        rw [List.getElem?_take, if_pos hj]
        exact hst
      obtain ⟨hlt, hval⟩ := List.getElem?_eq_some_iff.mp hget
      conv_lhs => rw [← List.take_append_drop j (sts.take k)]
      rw [List.take_take, min_eq_left hj.le, List.drop_eq_getElem_cons hlt, hval]
    have hruns := Trace.Admits.take hrun k
    rw [hsplit, Trace.admits_append] at hruns
    obtain ⟨hpre, hp, hrest⟩ := hruns
    have hbefore := Kept.run hpre
    have hsweep : (step cfg (run cfg (start cfg) (sts.take j)) (.sweep now)).Swept cfg s now :=
      fun _ => ⟨0, .owner, [], rfl, Nat.zero_le _⟩
    obtain ⟨hswept, hcall⟩ := hsweep.run (hbefore.step hp) hrest hc hdue
    have heq : run cfg (step cfg (run cfg (start cfg) (sts.take j)) (.sweep now))
        ((sts.take k).drop (j + 1)) = run cfg (start cfg) (sts.take k) := by
      conv_rhs => rw [hsplit, run, List.foldl_append]
      rfl
    rw [heq] at hswept hcall
    refine h.done o (Option.isSome_of_eq_some hcall) (fun hl => ?_) (by rw [hreading]; rfl) hd
    obtain ⟨i, stage, fired, hpc, -⟩ := hswept hl
    rw [hreading] at hpc
    cases hpc

section

private def smallEngine : EngineConfig where
  firstSeq := 1
  slots := 64
  queue := ⟨16, 2 ^ 20, by decide⟩
  slots_pos := by decide

/-- A query that is accepted, answered and polled; then the link is closed. -/
private def answeredQuery : List EngineStep :=
  .send 7 .query 100 5 :: List.replicate 12 (.submitter true) ++
    .frame (.response ⟨1, 9, false, false, [3, 4]⟩) :: List.replicate 12 .producer ++
    .poll 64 :: List.replicate 6 .poller ++ [.close, .exit] ++ List.replicate 65 .producer

theorem once_of_orderly_answered :
    ExactlyOnce smallEngine answeredQuery ∧
      (run smallEngine (start smallEngine) answeredQuery).queue.delivered.map
        (fun x => (x.1.userData, x.1.position, x.2)) = [(7, 9, [3, 4])] :=
  ⟨once_of_orderly (by decide +kernel) (by decide +kernel), by decide +kernel⟩

/-- The call is past the closed check when the link is closed by its own thread;
    the reader's pass is over before the slot is claimed. -/
private def acceptedBehindThePass : List EngineStep :=
  .send 7 .submit 100 0 :: .close :: .exit :: List.replicate 65 .producer ++
    List.replicate 12 (.submitter true)

/-- A link closed by its own thread, and a request that was past the closed check: it is
    accepted, and nobody completes it. -/
theorem once_fails_behind_the_pass :
    Runs smallEngine (start smallEngine) acceptedBehindThePass ∧
      ¬ ExactlyOnce smallEngine acceptedBehindThePass := by
  refine ⟨by decide +kernel, fun h => ?_⟩
  obtain ⟨-, hd⟩ := h acceptedBehindThePass.length
  rw [List.take_length] at hd
  have hdone := (hd ⟨by decide +kernel, by decide +kernel⟩).1 (by decide +kernel) 1 (by decide +kernel)
  have hnone : (run smallEngine (start smallEngine) acceptedBehindThePass).queue.delivered = [] ∧
      (run smallEngine (start smallEngine) acceptedBehindThePass).dropped = [] := by decide +kernel
  rcases hdone with ⟨x, hx, -⟩ | ⟨d, hd, -⟩
  · rw [hnone.1] at hx
    cases hx
  · rw [hnone.2] at hd
    cases hd

end

end RemoteEngine

end Remote

end UltimaCluster
