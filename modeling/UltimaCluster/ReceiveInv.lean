/-
  The invariant of the receive path, and the archive's steps.

  The published range is a walk over frames of the ring, each byte of them
  copied from a datagram that was accepted after the last prime.  The receiver
  notices a prime by comparing the live counter with its last published value;
  the comparison is not atomic with the store that follows it, and a prime that
  does not lower the counter leaves no trace in it.  `Orderly` says that
  neither does harm.
-/
import UltimaCluster.ReceiveFrames

namespace UltimaCluster

namespace ReceivePath

variable {streams : ℕ → LeaderStream} {capacity : ℕ}

/-- A prime has stored `durable` and not yet `append`. -/
def Half (n : ReceivePath) : Prop := ∃ target floor, n.prime = .append target floor

variable (capacity) in
/-- When a prime and the receiver do not meet: a prime leaves the published
    range within the ring, and finds no run above a frontier equal to its
    target; a datagram that was accepted before a prime is not copied below the
    counter nor above a frontier equal to it, and not published. -/
def Orderly (n : ReceivePath) : RxStep → Prop
  | .primeDurable target => n.append ≤ target + capacity
  | .primeAppend => ∀ target floor, n.prime = .append target floor →
      n.rebuilt.contiguous = target → n.rebuilt.ooo = []
  | .receive =>
    match n.pc with
    | .copy x _ _ => x.epoch = n.epoch ∨ n.append ≤ x.dgram.position ∧
        (n.rebuilt.contiguous = n.append → x.dgram.position = n.append)
    | .check x => x.epoch = n.epoch ∨ n.append < n.lastPublished
    | .publish _ seen => seen = n.epoch ∧ (n.Half → n.rebuilt.contiguous ≤ n.durable + capacity)
    | _ => True
  | _ => True

/-! ## The invariant -/

variable (streams capacity) in
/-- A run of the current stream within the window. -/
def Held (n : ReceivePath) (s e : ℕ) : Prop :=
  Run streams capacity n.ring n.epoch n.oooTerm s e ∧ e ≤ n.durable + capacity

variable (streams capacity) in
/-- The out-of-order runs can be bridged. -/
structure Tracked (n : ReceivePath) : Prop where
  tracks : Rebuilt.Tracks (n.Held streams capacity) n.rebuilt.contiguous n.rebuilt.ooo
  nonempty : ∀ x ∈ n.rebuilt.ooo, x.1 < x.2

variable (streams capacity) in
/-- The frontier may be published. -/
structure Ready (n : ReceivePath) : Prop where
  walk : Walk streams capacity n.ring n.epoch n.append n.rebuilt.contiguous
  room : n.rebuilt.contiguous ≤ n.durable + capacity
  tracked : n.Tracked streams capacity

variable (streams) in
/-- A datagram past the per-datagram resync. -/
structure Synced (n : ReceivePath) (d : DataDgram) : Prop where
  sends : (streams d.term).Sends d.position d.body
  term : d.term = n.oooTerm
  settled : n.rebuilt.contiguous ≤ n.append ∨
    n.append < n.lastPublished ∧ n.rebuilt.contiguous = n.lastPublished

variable (streams) in
/-- An accepted datagram, before its copy. -/
structure Late (n : ReceivePath) (x : Accepted) : Prop where
  sends : (streams x.dgram.term).Sends x.dgram.position x.dgram.body
  term : x.dgram.term = n.oooTerm
  ok : acceptable n.rebuilt.contiguous x.dgram = true
  epoch : x.epoch ≤ n.epoch
  settled : x.epoch = n.epoch → n.rebuilt.contiguous ≤ n.append ∨ n.append < n.lastPublished
  stale : x.epoch ≠ n.epoch → ¬ n.Half → n.durable = n.append

variable (capacity) in
/-- The overrun gate passed with the load `bound`. -/
structure Fits (n : ReceivePath) (x : Accepted) (bound : ℕ) : Prop where
  fits : runEnd x.dgram ≤ bound + capacity
  loaded : x.epoch = n.epoch → ¬ n.Half → bound ≤ n.durable

variable (capacity) in
/-- `write_run` may copy with the load `low`. -/
structure Writes (n : ReceivePath) (x : Accepted) (low : ℕ) : Prop where
  writable : writable capacity low x.dgram = true
  loaded : x.epoch = n.epoch → ¬ n.Half → low ≤ n.durable
  above : x.epoch = n.epoch → n.append ≤ x.dgram.position

variable (streams capacity) in
/-- What is known of the datagram in process. -/
def AtPc (n : ReceivePath) : RxPc → Prop
  | .idle => True
  | .resync d => (streams d.term).Sends d.position d.body
  | .sample d => n.Synced streams d
  | .gate d _ => n.Synced streams d
  | .room x => n.Late streams x
  | .writeRun x bound => n.Late streams x ∧ n.Fits capacity x bound
  | .copy x bound low => n.Late streams x ∧ n.Fits capacity x bound ∧ n.Writes capacity x low
  | .recheck x | .check x => x.epoch ≤ n.epoch ∧ (x.epoch = n.epoch →
      n.append < n.rebuilt.contiguous ∧
        (n.append < n.lastPublished ∨ (¬ n.Half → n.Ready streams capacity)))
  | .publish _ seen => seen ≤ n.epoch ∧ (seen = n.epoch →
      n.append < n.rebuilt.contiguous ∧ (¬ n.Half → n.Ready streams capacity))

/-- The counters: an append counter above the last published value is the
    archive's floor, and nothing is published above such a counter. -/
structure Counters (n : ReceivePath) : Prop where
  published : n.lastPublished ≤ n.rebuilt.contiguous
  floor : n.floor ≤ n.durable
  adopted : n.lastPublished < n.append → n.floor = n.append
  primed : ¬ n.Half → n.append ≠ n.lastPublished → n.durable = n.append
  half : ∀ target floor, n.prime = .append target floor →
    n.durable = target ∧ n.floor ≤ floor ∧ floor ≤ target ∧
      (n.lastPublished < target → floor = target) ∧ (n.append < target → floor = target)

variable (streams capacity) in
/-- The invariant, apart from the datagram in process. -/
structure RxCore (n : ReceivePath) : Prop where
  counters : n.Counters
  kept : n.rewrote = false
  room : n.append ≤ n.durable + capacity
  walk : ¬ n.Half → Walk streams capacity n.ring n.epoch n.durable n.append
  tracked : ¬ n.Half → n.rebuilt.contiguous = n.append → n.Tracked streams capacity

variable (streams capacity) in
/-- The invariant of a run. -/
structure RxInv (n : ReceivePath) : Prop extends RxCore streams capacity n where
  pc : n.AtPc streams capacity n.pc

/-! ## The archive's steps -/

/-- What the steps of the archive other than the store of `append` leave. -/
structure Frozen (n n' : ReceivePath) : Prop where
  append : n'.append = n.append
  ring : n'.ring = n.ring
  rebuilt : n'.rebuilt = n.rebuilt
  lastPublished : n'.lastPublished = n.lastPublished
  oooTerm : n'.oooTerm = n.oooTerm
  pc : n'.pc = n.pc
  epoch : n'.epoch = n.epoch
  rewrote : n'.rewrote = n.rewrote
  half : ¬ n'.Half → ¬ n.Half ∧ n.durable ≤ n'.durable ∧
    (n.durable = n.append → n'.durable = n.append)

section

variable {n n' : ReceivePath}

theorem Frozen.tracked (h : Frozen n n') (hhalf : ¬ n'.Half) (ht : n.Tracked streams capacity) :
    n'.Tracked streams capacity := by
  obtain ⟨-, hle, -⟩ := h.half hhalf
  constructor
  · rw [h.rebuilt]
    refine ht.tracks.imp fun r _ hr => ⟨?_, hr.2.trans (Nat.add_le_add_right hle capacity)⟩
    rw [h.ring, h.epoch, h.oooTerm]
    exact hr.1
  · rw [h.rebuilt]
    exact ht.nonempty

theorem Frozen.ready (h : Frozen n n') (hhalf : ¬ n'.Half) (hr : n.Ready streams capacity) :
    n'.Ready streams capacity := by
  obtain ⟨-, hle, -⟩ := h.half hhalf
  refine ⟨?_, ?_, h.tracked hhalf hr.tracked⟩
  · rw [h.ring, h.epoch, h.append, h.rebuilt]
    exact hr.walk
  · rw [h.rebuilt]
    exact hr.room.trans (Nat.add_le_add_right hle capacity)

theorem Frozen.synced (h : Frozen n n') {d : DataDgram} (hd : n.Synced streams d) :
    n'.Synced streams d := by
  refine ⟨hd.sends, hd.term.trans h.oooTerm.symm, ?_⟩
  rw [h.rebuilt, h.append, h.lastPublished]
  exact hd.settled

theorem Frozen.late (h : Frozen n n') {x : Accepted} (hx : n.Late streams x) :
    n'.Late streams x := by
  refine ⟨hx.sends, hx.term.trans h.oooTerm.symm, ?_, ?_, ?_, ?_⟩
  · rw [h.rebuilt]
    exact hx.ok
  · rw [h.epoch]
    exact hx.epoch
  · rw [h.epoch, h.rebuilt, h.append, h.lastPublished]
    exact hx.settled
  · intro hne hhalf
    obtain ⟨hold, -, hstay⟩ := h.half hhalf
    rw [h.append]
    exact hstay (hx.stale (h.epoch ▸ hne) hold)

theorem Frozen.fits (h : Frozen n n') {x : Accepted} {bound : ℕ}
    (hx : n.Fits capacity x bound) : n'.Fits capacity x bound := by
  refine ⟨hx.fits, fun he hhalf => ?_⟩
  obtain ⟨hold, hle, -⟩ := h.half hhalf
  exact (hx.loaded (he.trans h.epoch) hold).trans hle

theorem Frozen.writes (h : Frozen n n') {x : Accepted} {low : ℕ}
    (hx : n.Writes capacity x low) : n'.Writes capacity x low := by
  refine ⟨hx.writable, fun he hhalf => ?_, fun he => ?_⟩
  · obtain ⟨hold, hle, -⟩ := h.half hhalf
    exact (hx.loaded (he.trans h.epoch) hold).trans hle
  · rw [h.append]
    exact hx.above (he.trans h.epoch)

theorem Frozen.atPc (h : Frozen n n') {pc : RxPc} (hpc : n.AtPc streams capacity pc) :
    n'.AtPc streams capacity pc := by
  cases pc with
  | idle => trivial
  | resync d => exact hpc
  | sample d => exact h.synced hpc
  | gate d gen => exact h.synced hpc
  | room x => exact h.late hpc
  | writeRun x bound => exact ⟨h.late hpc.1, h.fits hpc.2⟩
  | copy x bound low => exact ⟨h.late hpc.1, h.fits hpc.2.1, h.writes hpc.2.2⟩
  | recheck x | check x =>
    obtain ⟨hle, hdone⟩ := hpc
    refine ⟨hle.trans h.epoch.ge, fun he => ?_⟩
    obtain ⟨hlt, hor⟩ := hdone (he.trans h.epoch)
    rw [h.append, h.rebuilt, h.lastPublished]
    exact ⟨hlt, hor.imp_right fun hr hhalf => h.ready hhalf (hr (h.half hhalf).1)⟩
  | publish x seen =>
    obtain ⟨hle, hdone⟩ := hpc
    refine ⟨hle.trans h.epoch.ge, fun he => ?_⟩
    obtain ⟨hlt, hr⟩ := hdone (he.trans h.epoch)
    rw [h.append, h.rebuilt]
    exact ⟨hlt, fun hhalf => h.ready hhalf (hr (h.half hhalf).1)⟩

/-- A frozen step keeps the invariant when it keeps the counters and the walk
    over what is left of the published range. -/
theorem Frozen.inv (h : Frozen n n') (hi : n.RxInv streams capacity) (hc : n'.Counters)
    (hroom : n.append ≤ n'.durable + capacity)
    (hwalk : ¬ n'.Half → Walk streams capacity n.ring n.epoch n'.durable n.append) :
    n'.RxInv streams capacity := by
  refine ⟨⟨hc, h.rewrote.trans hi.kept, ?_, ?_, ?_⟩, ?_⟩
  · rw [h.append]
    exact hroom
  · rw [h.ring, h.epoch, h.append]
    exact hwalk
  · rw [h.rebuilt, h.append]
    exact fun hhalf heq => h.tracked hhalf (hi.tracked (h.half hhalf).1 heq)
  · rw [h.pc]
    exact h.atPc hi.pc

variable {target floor : ℕ}

theorem RxInv.primeDurable (hi : n.RxInv streams capacity) (hp : n.prime = .none)
    (hfloor : n.floor ≤ target) (hroom : n.append ≤ target + capacity) :
    (step streams capacity n (.primeDurable target)).RxInv streams capacity := by
  have hhalf : ¬ n.Half := by
    rintro ⟨t, f, h⟩
    rw [hp] at h
    cases h
  have hhalf' : (step streams capacity n (.primeDurable target)).Half := ⟨_, _, rfl⟩
  have hle := (hi.walk hhalf).le
  have hc := hi.counters
  refine Frozen.inv (n := n) ⟨rfl, rfl, rfl, rfl, rfl, rfl, rfl, rfl, fun h => absurd hhalf' h⟩ hi
    ⟨hc.published, hfloor, hc.adopted, fun h => absurd hhalf' h, ?_⟩ hroom
    (fun h => absurd hhalf' h)
  rintro t f htf
  simp only [step, PrimePc.append.injEq] at htf ⊢
  obtain ⟨rfl, rfl⟩ := htf
  have hadopted := hc.adopted
  split <;> refine ⟨rfl, ?_, ?_, ?_, ?_⟩ <;> omega

theorem RxInv.bumpGen (hi : n.RxInv streams capacity) (hp : n.prime = .gen) :
    (step streams capacity n .bumpGen).RxInv streams capacity := by
  have hhalf : ¬ n.Half := by
    rintro ⟨t, f, h⟩
    rw [hp] at h
    cases h
  have hc := hi.counters
  refine Frozen.inv (n := n) ⟨rfl, rfl, rfl, rfl, rfl, rfl, rfl, rfl, fun _ => ⟨hhalf, le_rfl, id⟩⟩ hi
    { hc with primed := fun _ => hc.primed hhalf, half := ?_ } hi.room
    (fun _ => hi.walk hhalf)
  intro t f htf
  cases htf

/-- The frame that the archive's walk reads is the first of the published
    range. -/
theorem frameAt_walk {f : WireFrame} (hw : Walk streams capacity n.ring n.epoch n.durable n.append)
    (hf : frameAt streams capacity n n.durable = some f) (hle : n.durable + f.aligned ≤ n.append) :
    n.durable < n.append ∧
      Walk streams capacity n.ring n.epoch (n.durable + f.aligned) n.append := by
  obtain ⟨b, hb, hframe⟩ := Option.bind_eq_some_iff.mp hf
  have hpos := aligned_pos hframe
  simp only [headerLen] at hpos
  refine ⟨by omega, ?_⟩
  rcases Relation.ReflTransGen.cases_head hw with heq | ⟨m, ⟨term, f', hf', rfl, hbytes⟩, hrest⟩
  · omega
  · have h0 := hbytes 0 (wireLen_pos hf')
    rw [Nat.add_zero, hb, Option.some.injEq] at h0
    subst h0
    rw [hframe, Option.some.injEq] at hf'
    rwa [hf']

theorem RxInv.advance (hi : n.RxInv streams capacity)
    (hp : Possible streams capacity n .advance) :
    (step streams capacity n .advance).RxInv streams capacity := by
  obtain ⟨hprime, f, hf, hle⟩ := hp
  have hhalf : ¬ n.Half := by
    rintro ⟨t, g, h⟩
    rw [hprime] at h
    cases h
  have hc := hi.counters
  obtain ⟨hlt, hw⟩ := frameAt_walk (hi.walk hhalf) hf hle
  have hstep : step streams capacity n .advance = { n with durable := n.durable + f.aligned } := by
    simp only [step, hf]
  rw [hstep]
  refine Frozen.inv (n := n) ⟨rfl, rfl, rfl, rfl, rfl, rfl, rfl, rfl, fun _ =>
    ⟨hhalf, Nat.le_add_right _ _, fun h => absurd h hlt.ne⟩⟩ hi ⟨hc.published,
      hc.floor.trans (Nat.le_add_right _ _), hc.adopted, fun _ hne => absurd (hc.primed hhalf hne) hlt.ne,
      ?_⟩ (by have := hi.room; dsimp only; omega) (fun _ => hw)
  intro t g htg
  exact absurd ⟨t, g, htg⟩ hhalf

/-- The state after the store of `append`. -/
def primed (n : ReceivePath) (target floor : ℕ) : ReceivePath :=
  { n with append := target, floor, prime := .gen, epoch := n.epoch + 1 }

theorem AtPc.primed (hc : n.Counters) (hp : n.prime = .append target floor) {pc : RxPc}
    (hpc : n.AtPc streams capacity pc) : (n.primed target floor).AtPc streams capacity pc := by
  obtain ⟨hdur, hf1, hf2, -, -⟩ := hc.half target floor hp
  have hpub := hc.published
  have hadopted := hc.adopted
  have hfresh : ∀ {e : ℕ} {P : Prop}, e ≤ n.epoch → e = n.epoch + 1 → P := by
    intro e P hle heq
    omega
  have hlate : ∀ x, n.Late streams x → (n.primed target floor).Late streams x := fun x hx =>
    ⟨hx.sends, hx.term, hx.ok, Nat.le_succ_of_le hx.epoch, hfresh hx.epoch, fun _ _ => hdur⟩
  have hsynced : ∀ d, n.Synced streams d → (n.primed target floor).Synced streams d := by
    intro d hd
    refine ⟨hd.sends, hd.term, ?_⟩
    have := hd.settled
    dsimp only [ReceivePath.primed]
    omega
  cases pc with
  | idle => trivial
  | resync d => exact hpc
  | sample d => exact hsynced d hpc
  | gate d gen => exact hsynced d hpc
  | room x => exact hlate x hpc
  | writeRun x bound => exact ⟨hlate x hpc.1, hpc.2.fits, hfresh hpc.1.epoch⟩
  | copy x bound low =>
    exact ⟨hlate x hpc.1, ⟨hpc.2.1.fits, hfresh hpc.1.epoch⟩, hpc.2.2.writable,
      hfresh hpc.1.epoch, hfresh hpc.1.epoch⟩
  | recheck x | check x => exact ⟨Nat.le_succ_of_le hpc.1, hfresh hpc.1⟩
  | publish x seen => exact ⟨Nat.le_succ_of_le hpc.1, hfresh hpc.1⟩

theorem RxInv.primeAppend (hi : n.RxInv streams capacity) (hp : n.prime = .append target floor)
    (hooo : n.rebuilt.contiguous = target → n.rebuilt.ooo = []) :
    (step streams capacity n .primeAppend).RxInv streams capacity := by
  have hc := hi.counters
  obtain ⟨hdur, hf1, hf2, hf3, hf4⟩ := hc.half target floor hp
  have hstep : step streams capacity n .primeAppend = n.primed target floor := by
    simp only [step, hp, primed]
  rw [hstep]
  refine ⟨⟨⟨hc.published, hf2.trans hdur.ge, hf3, fun _ _ => hdur, ?_⟩, hi.kept,
    hdur.ge.trans (Nat.le_add_right _ _), ?_, ?_⟩, hi.pc.primed hc hp⟩
  · intro t g htg
    cases htg
  · intro _
    show Walk streams capacity n.ring (n.epoch + 1) n.durable target
    rw [hdur]
    exact .refl
  · intro _ heq
    have hnil : (n.primed target floor).rebuilt.ooo = [] := hooo heq
    constructor
    · rw [hnil]
      exact Rebuilt.Tracks.nil _ _
    · rw [hnil]
      simp

end

end ReceivePath

end UltimaCluster
