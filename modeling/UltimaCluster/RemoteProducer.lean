/-
  The producer and the consumer keep the books of the remote client.
-/
import UltimaCluster.RemoteBooks

namespace UltimaCluster

namespace Remote

namespace RemoteEngine

variable {cfg : EngineConfig} {n n' : RemoteEngine}

theorem hands_settle (exits : Bool) (rs : List Record) :
    (settle exits rs).hands = rs.map Record.seq := by
  cases rs with
  | nil => cases exits <;> rfl
  | cons r rest => rfl

theorem producerAt_settle {rs : List Record} (h : ∀ x ∈ rs, n.Right cfg x []) (exits : Bool) :
    n.ProducerAt cfg (settle exits rs) := by
  cases rs with
  | nil => cases exits <;> trivial
  | cons r rest => exact ⟨h r List.mem_cons_self, fun x hx => h x (List.mem_cons_of_mem _ hx)⟩

section

variable (h : n.Kept cfg)

include h

/-! ## Moves of the producer -/

theorem Kept.congr (closed : Bool) (queue : CompletionQueue) (prod : ProducerPc)
    (received : List Response) (dropped : List Drop)
    (hperm : (RemoteEngine.settled { n with closed, queue, prod, received, dropped }).Perm n.settled)
    (hrec : ∀ r ∈ n.received, r ∈ received)
    (hpushed : ∀ x ∈ queue.pushed, x ∈ n.queue.pushed ∨ n.Right cfg x.1 x.2)
    (hat : ProducerAt cfg { n with closed, queue, prod, received, dropped } prod)
    (hq : queue.Piped cfg.queue prod.pushing) :
    Kept cfg { n with closed, queue, prod, received, dropped } := by
  have m : Extends cfg n { n with closed, queue, prod, received, dropped } :=
    ⟨⟨[], (List.append_nil _).symm⟩, le_rfl, fun _ _ _ => Iff.rfl, hrec⟩
  refine ⟨h.claimed.congr _ _ _ _ _, ⟨hperm.nodup_iff.mpr h.settled.nodup, ?_, ?_⟩, ⟨?_, hat⟩, hq⟩
  · exact fun s hs => h.settled.claimed s (hperm.mem_iff.mp hs)
  · exact fun s hs => (h.settled.covered s hs).imp_right hperm.mem_iff.mpr
  · intro x hx
    rcases hpushed x hx with hx | hx
    · exact m.right (h.righted.pushed x hx)
    · exact m.right hx

theorem Kept.setProd (pc : ProducerPc) (hh : pc.hands = n.prod.hands) (hat : n.ProducerAt cfg pc)
    (hq : n.queue.Piped cfg.queue pc.pushing) : Kept cfg { n with prod := pc } := by
  have m : Extends cfg n { n with prod := pc } :=
    ⟨⟨[], (List.append_nil _).symm⟩, le_rfl, fun _ _ _ => Iff.rfl, fun _ hr => hr⟩
  refine h.congr n.closed n.queue pc n.received n.dropped ?_ (fun _ hr => hr) (fun _ hx => .inl hx)
    (m.producerAt h.claimed hat) hq
  simp [RemoteEngine.settled, hh]

omit h in
theorem piped_settle (hp : n.queue.Piped cfg.queue none) (exits : Bool) (rs : List Record) :
    n.queue.Piped cfg.queue (settle exits rs).pushing := by
  cases rs with
  | nil => cases exits <;> exact hp
  | cons r rest => exact hp.start rfl r []

/-- The slot of a live request is freed, and the request is in the producer's hands. -/
theorem Kept.take {i s : ℕ} (hs : n.owner i = .seq s) (pc : ProducerPc)
    (hh : pc.hands.Perm (s :: n.prod.hands)) (hq : n.queue.Piped cfg.queue pc.pushing)
    (hat : ProducerAt cfg { n.free i with prod := pc } pc) :
    Kept cfg { n.free i with prod := pc } := by
  obtain ⟨hi, c, hc, -⟩ := h.claimed.owned i s hs
  have hlive : ∀ a, Live cfg { n.free i with prod := pc } a ↔ n.Live cfg a ∧ a ≠ s := by
    intro a
    simp only [Live, RemoteEngine.free]
    by_cases ha : slot cfg a = i
    · rw [ha, Function.update_self, hs]
      simp only [reduceCtorEq, Owner.seq.injEq, false_iff, not_and, not_not]
      exact fun heq => heq.symm
    · rw [Function.update_of_ne ha]
      refine ⟨fun hl => ⟨hl, ?_⟩, fun hl => hl.1⟩
      rintro rfl
      exact ha hi.symm
  have hset : (RemoteEngine.settled { n.free i with prod := pc }).Perm (s :: n.settled) := by
    refine (List.Perm.append_left _ hh).trans ?_
    exact List.perm_middle
  have hfresh : s ∉ n.settled := by
    intro hmem
    refine (h.settled.claimed s hmem).2 ?_
    rw [Live, ← hi, hs]
  refine ⟨⟨h.claimed.seqNext, h.claimed.accepted, fun j a ha => ?_, ?_, h.claimed.ids, h.claimed.bounded⟩,
    ⟨?_, ?_, ?_⟩, ⟨fun x hx => ⟨(h.righted.pushed x hx).call⟩, hat⟩, hq⟩
  · simp only [RemoteEngine.free] at ha
    by_cases hj : j = i
    · rw [hj, Function.update_self] at ha
      cases ha
    · rw [Function.update_of_ne hj] at ha
      obtain ⟨hj, c, hc, hw⟩ := h.claimed.owned j a ha
      exact ⟨hj, c, hc, hw.1, hw.2, hw.3, hw.4⟩
  · have hcl := h.claimed.claimAt
    have hres : n.owner (slot cfg n.seqNext) = .reserved →
        Function.update n.owner i .free (slot cfg n.seqNext) = .reserved := by
      intro hr
      rw [Function.update_of_ne, hr]
      rintro rfl
      rw [hr] at hs
      cases hs
    exact hcl.free hres
  · rw [hset.nodup_iff, List.nodup_cons]
    exact ⟨hfresh, h.settled.nodup⟩
  · intro a ha
    rw [hset.mem_iff, List.mem_cons] at ha
    rcases ha with rfl | ha
    · exact ⟨Option.isSome_of_eq_some hc, fun hl => ((hlive a).mp hl).2 rfl⟩
    · obtain ⟨h1, h2⟩ := h.settled.claimed a ha
      exact ⟨h1, fun hl => h2 ((hlive a).mp hl).1⟩
  · intro a ha
    rw [hset.mem_iff, List.mem_cons, hlive]
    by_cases has : a = s
    · exact .inr (.inl has)
    · exact (h.settled.covered a ha).imp (fun hl => ⟨hl, has⟩) .inr

/-! ## Answers -/

/-- The producer is at an access that is not of the queue, and holds nothing. -/
theorem Kept.lookUp {q : ProducerPc} (hpc : n.prod = q) (pc : ProducerPc) (hh : q.hands = [])
    (hp : q.pushing = none) (hh' : pc.hands = []) (hp' : pc.pushing = none)
    (hat : n.ProducerAt cfg pc) : Kept cfg { n with prod := pc } := by
  subst hpc
  exact h.setProd pc (hh'.trans hh.symm) hat (hp' ▸ hp ▸ h.piped)

theorem Kept.kindStep {r : Response} (hpc : n.prod = .kindOwner r) : (n.producer cfg).Kept cfg := by
  have hat := h.righted.producerAt
  rw [hpc] at hat
  simp only [producer, hpc]
  split
  · rename_i hl
    exact h.lookUp hpc _ rfl rfl rfl rfl ⟨hat.1, hat.2, hl⟩
  · rename_i hl
    exact h.lookUp hpc _ rfl rfl rfl rfl ⟨hat.1, hat.2, fun hc => absurd hc hl⟩

theorem Kept.kindWordStep {r : Response} (hpc : n.prod = .kindWord r) : (n.producer cfg).Kept cfg := by
  have hat := h.righted.producerAt
  rw [hpc] at hat
  simp only [producer, hpc]
  refine h.lookUp hpc _ rfl rfl rfl rfl ⟨hat.1, hat.2.1, hat.2.2, ?_⟩
  intro c hc
  obtain ⟨-, c', hc', hw⟩ := h.claimed.owned _ _ hat.2.2
  rw [hc', Option.some.injEq] at hc
  rw [hw.kind, hc]

theorem Kept.minWordStep {r : Response} {kind : RequestType} (hpc : n.prod = .minWord r kind) :
    (n.producer cfg).Kept cfg := by
  have hat := h.righted.producerAt
  rw [hpc] at hat
  obtain ⟨hr, hacc, hl, hkind⟩ := hat
  simp only [producer, hpc]
  split
  · exact h.lookUp hpc _ rfl rfl rfl rfl trivial
  · rename_i hguard
    refine h.lookUp hpc _ rfl rfl rfl rfl ⟨hr, hacc, fun _ c hc hq hexp => ?_⟩
    obtain ⟨-, c', hc', hw⟩ := h.claimed.owned _ _ hl
    rw [hc', Option.some.injEq] at hc
    subst hc
    rw [← hw.minPosition]
    by_contra hlt
    exact hguard ⟨(hkind c' hc').trans hq, hexp, Nat.not_le.mp hlt⟩

omit h in
theorem AnswerAt.right {a : Answer} {ud : ℕ} {c : Call} (ha : n.AnswerAt cfg a)
    (hl : n.Live cfg a.seq) (hc : n.callOf cfg a.seq = some c) (hud : ud = c.userData) :
    n.Right cfg (a.record ud) a.body := by
  cases a with
  | response r =>
    exact ⟨c, hc, hud, fun _ => ⟨r, ha.1, rfl, rfl, rfl, rfl, rfl, rfl, ha.2.2 hl c hc⟩⟩
  | refusal s tag => exact ⟨c, hc, hud, fun ht => absurd ht ha.2⟩

omit h in
theorem seq_record (a : Answer) (ud : ℕ) : (a.record ud).seq = a.seq := by
  cases a <;> rfl

theorem Kept.takeStep {a : Answer} {stage : TakeStage} (hpc : n.prod = .take a stage) :
    (n.producer cfg).Kept cfg := by
  have hat := h.righted.producerAt
  rw [hpc] at hat
  have hh : n.prod.hands = [] := by rw [hpc]; rfl
  have hp : n.prod.pushing = none := by rw [hpc]; rfl
  cases stage with
  | owner =>
    simp only [producer, hpc]
    split
    · rename_i hl
      exact h.lookUp hpc _ rfl rfl rfl rfl ⟨hat, hl⟩
    · exact h.lookUp hpc _ rfl rfl rfl rfl trivial
  | userData =>
    simp only [producer, hpc]
    refine h.lookUp hpc _ rfl rfl rfl rfl ⟨hat.1, hat.2, fun c hc => ?_⟩
    obtain ⟨-, c', hc', hw⟩ := h.claimed.owned _ _ hat.2
    rw [hc', Option.some.injEq] at hc
    rw [hw.userData, hc]
  | exchange ud =>
    obtain ⟨ha, hl, hud⟩ := hat
    obtain ⟨-, c, hc, -⟩ := h.claimed.owned _ _ hl
    have hright := ha.right hl hc (hud c hc)
    simp only [producer, hpc, if_pos hl]
    refine h.take hl _ ?_ ?_ ⟨⟨hright.call⟩, by simp⟩
    · rw [hh]
      simp [ProducerPc.hands, seq_record]
    · have := h.piped
      rw [hp] at this
      exact this.start rfl _ _

/-! ## Passes -/

theorem Kept.passNext {mode : PassMode} {i j : ℕ} {stage stage' : PassStage} {fired : List (ℕ × ℕ)}
    (hpc : n.prod = .pass mode i stage fired)
    (hat : n.ProducerAt cfg (.pass mode j stage' fired)) :
    Kept cfg { n with prod := .pass mode j stage' fired } := by
  refine h.setProd _ (by rw [hpc]; rfl) hat ?_
  have := h.piped
  rw [hpc] at this
  exact this

theorem Kept.passStep {mode : PassMode} {i : ℕ} {stage : PassStage} {fired : List (ℕ × ℕ)}
    (hpc : n.prod = .pass mode i stage fired) : (n.producer cfg).Kept cfg := by
  have hat := h.righted.producerAt
  have hpiped := h.piped
  rw [hpc] at hat hpiped
  obtain ⟨hfired, hstage⟩ := hat
  have hnext : Kept cfg { n with prod := .pass mode (i + 1) .owner fired } :=
    h.passNext hpc ⟨hfired, trivial⟩
  have huser : ∀ s, n.owner i = .seq s →
      Kept cfg { n with prod := .pass mode i (.userData s) fired } := fun s hs =>
    h.passNext hpc ⟨hfired, hs⟩
  simp only [producer, hpc]
  cases stage with
  | owner =>
    simp only [RemoteEngine.passStep]
    split
    · split
      · rename_i s hs
        cases mode with
        | sweep now => exact h.passNext hpc ⟨hfired, hs⟩
        | abort => exact huser s hs
      · exact hnext
      · exact hnext
    · refine h.setProd _ ?_ ?_ (piped_settle hpiped _ _)
      · rw [hands_settle, hpc, List.map_map]
        rfl
      · have hright : ∀ x ∈ fired.map fun f => Record.simple f.1 f.2 mode.tag, n.Right cfg x [] := by
          intro x hx
          obtain ⟨f, hf, rfl⟩ := List.mem_map.mp hx
          obtain ⟨c, hc, hud⟩ := hfired f hf
          refine ⟨c, hc, hud, fun ht => ?_⟩
          cases mode <;> cases ht
        exact producerAt_settle hright _
  | deadline s =>
    simp only [RemoteEngine.passStep]
    split
    · split
      · exact hnext
      · exact huser s hstage
    · exact huser s hstage
  | userData s =>
    refine h.passNext hpc ⟨hfired, hstage, fun c hc => ?_⟩
    obtain ⟨-, c', hc', hw⟩ := h.claimed.owned i s hstage
    rw [hc', Option.some.injEq] at hc
    rw [hw.userData, hc]
  | exchange s ud =>
    obtain ⟨-, c, hc, -⟩ := h.claimed.owned i s hstage.1
    simp only [RemoteEngine.passStep, if_pos hstage.1]
    refine h.take hstage.1 _ ?_ hpiped ⟨?_, trivial⟩
    · rw [hpc]
      simp only [ProducerPc.hands, List.map_append, List.map_cons, List.map_nil]
      exact List.perm_append_singleton _ _
    · refine List.forall_mem_snoc hfired ?_
      exact ⟨c, hc, hstage.2 c hc⟩

/-! ## The queue -/

variable {rest : List Record}

theorem Kept.letGo {r : Record} {exits : Bool} (queue : CompletionQueue) (dropped : List Drop)
    (hhands : n.prod.hands = r.seq :: rest.map Record.seq)
    (hout : (queue.pushed.map (fun x => x.1.seq) ++ dropped.map Drop.seq).Perm
      (r.seq :: (n.queue.pushed.map (fun x => x.1.seq) ++ n.dropped.map Drop.seq)))
    (hpushed : ∀ x ∈ queue.pushed, x ∈ n.queue.pushed ∨ n.Right cfg x.1 x.2)
    (hrest : ∀ x ∈ rest, n.Right cfg x []) (hq : queue.Piped cfg.queue none) :
    Kept cfg { n with queue, dropped, prod := settle exits rest } := by
  refine h.congr n.closed queue (settle exits rest) n.received dropped ?_ (fun _ hr => hr) hpushed ?_ ?_
  · show (queue.pushed.map (fun x => x.1.seq) ++ dropped.map Drop.seq ++ (settle exits rest).hands).Perm
      (n.queue.pushed.map (fun x => x.1.seq) ++ n.dropped.map Drop.seq ++ n.prod.hands)
    rw [hands_settle, hhands]
    refine (hout.append_right _).trans ?_
    exact List.perm_middle.symm
  · refine producerAt_settle (fun x hx => ?_) exits
    exact ⟨(hrest x hx).call⟩
  · cases rest with
    | nil => cases exits <;> exact hq
    | cons r' rest => exact hq.start rfl r' []

theorem Kept.pushStep {r : Record} {body : Bytes} {stage : PushStage} {again exits : Bool}
    (hpc : n.prod = .push r body stage again rest exits) : (n.producer cfg).Kept cfg := by
  have hat := h.righted.producerAt
  have hpiped := h.piped
  rw [hpc] at hat hpiped
  have hnext := hpiped.push rfl
  obtain ⟨hdone, hsame⟩ := CompletionQueue.push_pushed cfg.queue n.queue r body stage
  simp only [producer, hpc]
  generalize n.queue.push cfg.queue r body stage = out at hnext hdone hsame
  obtain ⟨queue, next⟩ := out
  -- The queue moves on, and the record stays in hand.
  have hold : ∀ pc : ProducerPc, pc.hands = n.prod.hands → next ≠ .done → n.ProducerAt cfg pc →
      queue.Piped cfg.queue pc.pushing → Kept cfg { n with queue, prod := pc } := by
    intro pc hh hne hpat hq
    have hpushed := hsame hne
    dsimp only at hpushed
    have m : Extends cfg n { n with queue, prod := pc } :=
      ⟨⟨[], (List.append_nil _).symm⟩, le_rfl, fun _ _ _ => Iff.rfl, fun _ hr => hr⟩
    refine h.congr n.closed queue pc n.received n.dropped ?_ (fun _ hr => hr) ?_
      (m.producerAt h.claimed hpat) hq
    · simp [RemoteEngine.settled, hh, hpushed]
    · rw [hpushed]
      exact fun x hx => .inl hx
  cases next with
  | stage s => exact hold _ (by rw [hpc]; rfl) (by simp) hat hnext
  | refused =>
    dsimp only
    split
    · exact hold _ (by rw [hpc]; rfl) (by simp) hat hnext
    · exact hold _ (by rw [hpc]; rfl) (by simp) hat (hnext.start rfl r body)
  | done =>
    obtain ⟨off, len, hpushed⟩ := hdone rfl
    dsimp only at hpushed
    refine h.letGo queue n.dropped (by rw [hpc]; rfl) ?_ ?_ hat.2 hnext
    · rw [hpushed, List.map_append, List.append_assoc]
      exact List.perm_middle
    · rw [hpushed]
      intro x hx
      rcases List.mem_snoc.mp hx with hx | rfl
      · exact .inl hx
      · exact .inr ⟨hat.1.call⟩

theorem Kept.checkStep {r : Record} {body : Bytes} {exits full : Bool}
    (hpc : n.prod = .check r body rest exits full) : (n.producer cfg).Kept cfg := by
  have hat := h.righted.producerAt
  have hpiped := h.piped
  rw [hpc] at hat hpiped
  simp only [producer, hpc]
  split
  · refine h.letGo n.queue _ (by rw [hpc]; rfl) ?_ (fun _ hx => .inl hx) hat.2 hpiped
    rw [List.map_append, ← List.append_assoc]
    exact List.perm_append_singleton _ _
  · refine h.setProd _ (by rw [hpc]; rfl) hat ?_
    exact hpiped.start rfl r body

theorem Kept.producer : (n.producer cfg).Kept cfg := by
  cases hpc : n.prod with
  | reading | exited =>
    simp only [RemoteEngine.producer, hpc]
    exact h
  | kindOwner r => exact h.kindStep hpc
  | kindWord r => exact h.kindWordStep hpc
  | minWord r kind => exact h.minWordStep hpc
  | take a stage => exact h.takeStep hpc
  | pass mode i stage fired => exact h.passStep hpc
  | push r body stage again rest exits => exact h.pushStep hpc
  | check r body rest exits full => exact h.checkStep hpc

theorem Kept.consume (queue : CompletionQueue) (hpushed : queue.pushed = n.queue.pushed)
    (hq : queue.Piped cfg.queue n.prod.pushing) : Kept cfg { n with queue } := by
  have m : Extends cfg n { n with queue } :=
    ⟨⟨[], (List.append_nil _).symm⟩, le_rfl, fun _ _ _ => Iff.rfl, fun _ hr => hr⟩
  refine h.congr n.closed queue n.prod n.received n.dropped ?_ (fun _ hr => hr) ?_
    (m.producerAt h.claimed h.righted.producerAt) hq
  · simp [RemoteEngine.settled, hpushed]
  · rw [hpushed]
    exact fun x hx => .inl hx

theorem Kept.step {st : EngineStep} (hp : n.Possible cfg st) : (step cfg n st).Kept cfg := by
  cases st with
  | send ud kind deadline min => exact h.send hp ud kind deadline min
  | submitter ok => exact h.submitter ok
  | frame a =>
    obtain ⟨hreading, hacc, hterm⟩ := hp
    have hpiped := h.piped
    rw [hreading] at hpiped
    cases a with
    | response r =>
      refine h.congr n.closed n.queue (.kindOwner r) (n.received ++ [r]) n.dropped ?_
        (fun _ hr => List.mem_append_left _ hr) (fun _ hx => .inl hx) ?_ hpiped
      · simp [RemoteEngine.settled, hreading, ProducerPc.hands]
      · exact ⟨List.mem_concat_self, hacc⟩
    | refusal s tag =>
      refine h.lookUp hreading _ rfl rfl rfl rfl ⟨hacc, ?_⟩
      rcases hterm with rfl | rfl <;> simp
  | sweep now =>
    have hreading : n.prod = .reading := hp
    exact h.lookUp hreading _ rfl rfl rfl rfl ⟨by simp, trivial⟩
  | exit | closer =>
    have hpc := hp.1
    exact h.lookUp hpc _ rfl rfl rfl rfl ⟨by simp, trivial⟩
  | producer => exact h.producer
  | close =>
    have m : Extends cfg n { n with closed := true } :=
      ⟨⟨[], (List.append_nil _).symm⟩, le_rfl, fun _ _ _ => Iff.rfl, fun _ hr => hr⟩
    exact h.congr true n.queue n.prod n.received n.dropped (List.Perm.refl _) (fun _ hr => hr)
      (fun _ hx => .inl hx) (m.producerAt h.claimed h.righted.producerAt) h.piped
  | poll max =>
    have hidle : n.queue.drain = .idle := hp
    have hat := h.piped.drainAt
    rw [hidle] at hat
    refine h.consume _ rfl (h.piped.setDrain (.head max) ?_ hat)
    simp only [CompletionQueue.cursor, hidle]
  | poller => exact h.consume _ (CompletionQueue.drainStep_pushed _ _) h.piped.drainStep

end

theorem Kept.run {sts : List EngineStep} (hrun : Runs cfg (start cfg) sts) :
    (run cfg (start cfg) sts).Kept cfg := by
  refine Trace.Admits.rule (P := fun l => (RemoteEngine.run cfg (start cfg) l).Kept cfg) kept_start ?_ hrun
  intro l st hl hp
  unfold RemoteEngine.run at hl ⊢
  rw [List.foldl_append]
  exact hl.step hp

end RemoteEngine

end Remote

end UltimaCluster
