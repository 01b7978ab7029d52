/-
  What the receive path publishes, over every interleaving with the archive's
  primes and durable advances.
-/
import UltimaCluster.ReceiveInv

namespace UltimaCluster

namespace ReceivePath

variable {streams : ℕ → LeaderStream} {capacity : ℕ}

section

variable {n n' : ReceivePath}

/-! ## The receiver's steps -/

/-- What is read before a copy, and where the receiver is, are not in the
    invariant. -/
theorem RxCore.frame (hi : n.RxCore streams capacity) (gen : ℕ) (isOpen : Bool) (term adopt : ℕ)
    (pc : RxPc) :
    RxCore streams capacity { n with
      primeGen := gen, gateOpen := isOpen, term, adoptPending := adopt, pc } := by
  have hc := hi.counters
  exact ⟨⟨hc.published, hc.floor, hc.adopted, hc.primed, hc.half⟩, hi.kept, hi.room, hi.walk,
    fun hh heq => ⟨(hi.tracked hh heq).tracks, (hi.tracked hh heq).nonempty⟩⟩

theorem RxCore.renew (hi : n.RxCore streams capacity) :
    RxCore streams capacity { n with rebuilt := .new n.append, lastPublished := n.append } := by
  have hc := hi.counters
  refine ⟨⟨le_rfl, hc.floor, fun h => absurd h (lt_irrefl _), fun _ h => absurd rfl h, ?_⟩,
    hi.kept, hi.room, hi.walk, fun _ _ => ⟨Rebuilt.Tracks.nil _ _, by simp [Rebuilt.new]⟩⟩
  intro t f htf
  obtain ⟨h1, h2, h3, -, h5⟩ := hc.half t f htf
  exact ⟨h1, h2, h3, h5, h5⟩

theorem resyncAfterTruncation_pc : n.resyncAfterTruncation.pc = n.pc := by
  unfold ReceivePath.resyncAfterTruncation
  repeat' split
  all_goals rfl

theorem resyncAfterSnapshotInstall_pc : n.resyncAfterSnapshotInstall.pc = n.pc := by
  unfold ReceivePath.resyncAfterSnapshotInstall
  repeat' split
  all_goals rfl

theorem discardOooOnTermChange_pc (term : ℕ) : (n.discardOooOnTermChange term).pc = n.pc := by
  unfold ReceivePath.discardOooOnTermChange
  repeat' split
  all_goals rfl

theorem RxCore.resyncAfterTruncation (hi : n.RxCore streams capacity) :
    n.resyncAfterTruncation.RxCore streams capacity ∧
      n.resyncAfterTruncation.rebuilt.contiguous ≤ n.resyncAfterTruncation.append := by
  unfold ReceivePath.resyncAfterTruncation
  split
  · rename_i hlt
    split
    · exact ⟨hi.renew, le_rfl⟩
    · exact ⟨hi, hlt.le⟩
  · split
    · exact ⟨hi.renew, le_rfl⟩
    · rename_i hge'
      exact ⟨hi, not_lt.mp hge'⟩

theorem RxCore.resyncAfterSnapshotInstall (hi : n.RxCore streams capacity) :
    n.resyncAfterSnapshotInstall.RxCore streams capacity := by
  unfold ReceivePath.resyncAfterSnapshotInstall
  split
  · exact hi
  · split
    · exact hi.renew.frame n.primeGen n.gateOpen n.term 0 n.pc
    · exact hi.frame n.primeGen n.gateOpen n.term 0 n.pc

theorem RxCore.discardOooOnTermChange (hi : n.RxCore streams capacity) (term : ℕ) :
    (n.discardOooOnTermChange term).RxCore streams capacity ∧
      (n.discardOooOnTermChange term).oooTerm = term ∧
      (n.discardOooOnTermChange term).rebuilt.contiguous = n.rebuilt.contiguous ∧
      (n.discardOooOnTermChange term).append = n.append := by
  have hc := hi.counters
  unfold ReceivePath.discardOooOnTermChange
  split
  · rename_i heq
    exact ⟨hi, heq.symm, rfl, rfl⟩
  · split
    · rename_i hhigh
      refine ⟨⟨⟨hc.published, hc.floor, hc.adopted, hc.primed, hc.half⟩, hi.kept, hi.room, hi.walk,
        fun hh heq => ?_⟩, rfl, rfl, rfl⟩
      obtain ⟨ht, hne⟩ := hi.tracked hh heq
      have hnil := Rebuilt.highest_eq ht hne hhigh
      constructor
      · rw [hnil]
        exact Rebuilt.Tracks.nil _ _
      · exact hne
    · exact ⟨⟨⟨hc.published, hc.floor, hc.adopted, hc.primed, hc.half⟩, hi.kept, hi.room, hi.walk,
        fun _ _ => ⟨Rebuilt.Tracks.nil _ _, by simp [Rebuilt.new]⟩⟩, rfl, rfl, rfl⟩

theorem acceptable_spec {c : ℕ} {d : DataDgram} (h : acceptable c d = true) :
    c ≤ d.position ∧ ∃ adv, walkAdvance d.body = some adv ∧ 0 < adv ∧ runEnd d = d.position + adv := by
  simp only [acceptable, Bool.and_eq_true, decide_eq_true_eq] at h
  obtain ⟨⟨hc, -⟩, hany⟩ := h
  cases hw : walkAdvance d.body with
  | none => simp [hw] at hany
  | some adv =>
    rw [hw] at hany
    exact ⟨hc, adv, rfl, by simpa using hany, by simp [runEnd, hw]⟩

theorem writable_spec {term low : ℕ} {d : DataDgram} (hs : (streams term).Sends d.position d.body)
    (h : writable capacity low d = true) :
    d.position % capacity + wireLenOf d.body ≤ capacity ∧
      d.position + wireLenOf d.body ≤ low + capacity ∧ low ≤ d.position := by
  simp only [writable, Bool.and_eq_true, decide_eq_true_eq] at h
  obtain ⟨⟨⟨hne, hfit⟩, hend⟩, hlow⟩ := h
  refine ⟨?_, hend, hlow⟩
  cases hb : d.body with
  | nil => exact absurd hb hne
  | cons f fs =>
    rw [hb] at hs hfit
    have hpos := wireLen_pos hs.1
    have hlen : wireLenOf (f :: fs) = f.wireLen + wireLenOf fs := by simp [wireLenOf]
    omega

variable {x : Accepted}

/-- A copy leaves a byte of the window, or writes it again with the same
    value. -/
theorem copy_keeps {low q term : ℕ} (hs : (streams x.dgram.term).Sends
      x.dgram.position x.dgram.body) (hw : writable capacity low x.dgram = true)
    (hlow : low ≤ n.durable) (hpos : n.durable ≤ x.dgram.position) (he : x.epoch = n.epoch)
    (hq : n.durable ≤ q) (hq' : q < n.durable + capacity)
    (hterm : q < x.dgram.position ∨ x.dgram.term = term)
    (hb : n.ring (q % capacity) = some ⟨q, term, n.epoch⟩) :
    (n.copyRun capacity x).ring (q % capacity) = some ⟨q, term, n.epoch⟩ := by
  obtain ⟨hfit, hend, -⟩ := writable_spec hs hw
  by_cases hin : x.dgram.position ≤ q ∧ q < x.dgram.position + wireLenOf x.dgram.body
  · obtain ⟨hin1, hin2⟩ := hin
    obtain ⟨i, rfl⟩ := Nat.exists_eq_add_of_le hin1
    obtain rfl : x.dgram.term = term := hterm.resolve_left (by omega)
    rw [← he]
    exact writeRing_of_lt hfit (by omega)
  · rw [← hb]
    exact writeRing_of_window hpos (by omega) hq hq' (by omega)

variable {bound low : ℕ}

theorem copy_held (hx : n.Late streams x) (hf : n.Fits capacity x bound)
    (hw : n.Writes capacity x low) (hh : ¬ n.Half) (he : x.epoch = n.epoch) :
    (n.copyRun capacity x).Held streams capacity x.dgram.position (runEnd x.dgram) := by
  obtain ⟨-, adv, hadv, -, hend⟩ := acceptable_spec hx.ok
  obtain ⟨hfit, -, -⟩ := writable_spec hx.sends hw.writable
  refine ⟨?_, hf.fits.trans (Nat.add_le_add_right (hf.loaded he hh) capacity)⟩
  show Run streams capacity (n.copyRun capacity x).ring n.epoch n.oooTerm _ _
  rw [hend, ← hx.term, ← he]
  exact Run.of_sends hx.sends hadv fun i hi => writeRing_of_lt hfit hi

theorem copy_runs {low s e : ℕ} (hx : n.Late streams x) (hw : n.Writes capacity x low)
    (hh : ¬ n.Half) (he : x.epoch = n.epoch) (hle : n.durable ≤ n.append) (hs : n.durable ≤ s)
    (h : n.Held streams capacity s e) : (n.copyRun capacity x).Held streams capacity s e := by
  refine ⟨Run.mono h.1 fun q hq hq' hb => ?_, h.2⟩
  have := h.2
  exact copy_keeps hx.sends hw.writable (hw.loaded he hh) (hle.trans (hw.above he)) he
    (hs.trans hq) (hq'.trans_le this) (.inr hx.term) hb

theorem held_joins : Rebuilt.Joins (n.Held streams capacity) := by
  intro s e s' e' h h' hs hse
  exact ⟨h.1.join h'.1 hs hse, max_le h.2 h'.2⟩

theorem copyRun_fresh (hi : n.RxCore streams capacity) (hx : n.Late streams x)
    (hf : n.Fits capacity x bound) (hw : n.Writes capacity x low) (hh : ¬ n.Half)
    (he : x.epoch = n.epoch) :
    Walk streams capacity (n.copyRun capacity x).ring n.epoch n.durable n.append ∧
      (n.rebuilt.contiguous = n.append → (n.copyRun capacity x).Tracked streams capacity ∧
        ((n.rebuilt.insert x.dgram.position (runEnd x.dgram)).2 = true →
          Walk streams capacity (n.copyRun capacity x).ring n.epoch n.append
            (n.copyRun capacity x).rebuilt.contiguous ∧
          (n.copyRun capacity x).rebuilt.contiguous ≤ n.durable + capacity)) := by
  have hwalk := hi.walk hh
  have hle := hwalk.le
  have habove := hw.above he
  constructor
  · refine hwalk.mono fun q term hq hq' hb => ?_
    have := hi.room
    exact copy_keeps hx.sends hw.writable (hw.loaded he hh) (hle.trans habove) he hq
      (by omega) (.inl (by omega)) hb
  · intro heq
    obtain ⟨ht, hne⟩ := hi.tracked hh heq
    obtain ⟨hc, adv, -, hadv, hend⟩ := acceptable_spec hx.ok
    have hkeep : Rebuilt.Tracks ((n.copyRun capacity x).Held streams capacity)
        n.rebuilt.contiguous n.rebuilt.ooo :=
      ht.imp fun r hr hrun => copy_runs hx hw hh he hle
        ((hle.trans heq.ge).trans (ht.above r hr).le) hrun
    obtain ⟨h1, h2, -, h4⟩ := Rebuilt.insert_spec held_joins hkeep hne hc (by omega)
      (copy_held hx hf hw hh he)
    refine ⟨⟨h1, h2⟩, fun hadvd => ?_⟩
    obtain ⟨-, -, hheld⟩ := h4 hadvd
    rw [← heq]
    exact ⟨hheld.1.walk, hheld.2⟩

theorem RxInv.copyRun (hi : n.RxInv streams capacity) (hpc : n.pc = .copy x bound low)
    (ho : Orderly capacity n .receive) : (n.copyRun capacity x).RxInv streams capacity := by
  have hat := hi.pc
  rw [hpc] at hat
  obtain ⟨hx, hf, hw⟩ := hat
  simp only [Orderly, hpc] at ho
  have hc := hi.counters
  have hpub := hc.published
  obtain ⟨hcp, -⟩ := acceptable_spec hx.ok
  obtain ⟨hstay, hadv⟩ := Rebuilt.insert_frontier n.rebuilt x.dgram.position (runEnd x.dgram)
  have hgrow : n.rebuilt.contiguous ≤
      (n.rebuilt.insert x.dgram.position (runEnd x.dgram)).1.contiguous := by
    cases hb : (n.rebuilt.insert x.dgram.position (runEnd x.dgram)).2 with
    | false => exact (hstay hb).ge
    | true => exact (hadv hb).2.le
  have hpos : n.append ≤ x.dgram.position := by
    rcases ho with he | ⟨hle, -⟩
    · exact hw.above he
    · exact hle
  have hcore : (n.copyRun capacity x).RxCore streams capacity := by
    refine ⟨{ hc with published := hpub.trans hgrow }, ?_, hi.room, ?_, ?_⟩
    · simp [ReceivePath.copyRun, hi.kept, hpos]
    · intro hh
      by_cases he : x.epoch = n.epoch
      · exact (copyRun_fresh hi.toRxCore hx hf hw hh he).1
      · show Walk streams capacity _ n.epoch n.durable n.append
        rw [hx.stale he hh]
        exact .refl
    · intro hh heq
      have heq : (n.rebuilt.insert x.dgram.position (runEnd x.dgram)).1.contiguous = n.append := heq
      -- The frontier has not moved: below the counter it cannot, at or above it
      -- it would have left it.
      have hsame : n.rebuilt.contiguous = n.append ∧
          (n.rebuilt.insert x.dgram.position (runEnd x.dgram)).2 = false := by
        cases hb : (n.rebuilt.insert x.dgram.position (runEnd x.dgram)).2 with
        | false => exact ⟨(hstay hb).symm.trans heq, rfl⟩
        | true => exact absurd (hadv hb) (by omega)
      by_cases he : x.epoch = n.epoch
      · exact ((copyRun_fresh hi.toRxCore hx hf hw hh he).2 hsame.1).1
      · obtain ⟨-, hmeet⟩ := ho.resolve_left he
        have hins : (n.rebuilt.insert x.dgram.position (runEnd x.dgram)).2 = true := by
          obtain ⟨-, adv, -, hpos', hend⟩ := acceptable_spec hx.ok
          unfold Rebuilt.insert
          rw [if_neg (by omega), if_pos (by omega)]
        rw [hsame.2] at hins
        cases hins
  refine ⟨hcore, ?_⟩
  show AtPc streams capacity _ (if _ then _ else _)
  split
  · rename_i hb
    obtain ⟨h1, h2⟩ := hadv hb
    refine ⟨hx.epoch, fun he => ⟨hpos.trans_lt (h1.trans_lt h2), ?_⟩⟩
    rcases hx.settled he with hle | hlow
    · refine .inr fun hh => ?_
      have heq : n.rebuilt.contiguous = n.append := by omega
      obtain ⟨ht, hready⟩ := (copyRun_fresh hi.toRxCore hx hf hw hh he).2 heq
      obtain ⟨r1, r2⟩ := hready hb
      exact ⟨r1, r2, ht⟩
    · exact .inl hlow
  · trivial

theorem RxInv.publish (hi : n.RxInv streams capacity) {seen : ℕ} (hpc : n.pc = .publish x seen)
    (ho : Orderly capacity n .receive) :
    RxInv streams capacity { n with
      lastPublished := n.rebuilt.contiguous, append := n.rebuilt.contiguous, pc := .idle } := by
  have hat := hi.pc
  rw [hpc] at hat
  simp only [Orderly, hpc] at ho
  obtain ⟨hseen, hroom⟩ := ho
  obtain ⟨hlt, hready⟩ := hat.2 hseen
  have hc := hi.counters
  refine ⟨⟨⟨le_rfl, hc.floor, fun h => absurd h (lt_irrefl _), fun _ h => absurd rfl h, ?_⟩, hi.kept,
    ?_, ?_, ?_⟩, trivial⟩
  · intro t f htf
    obtain ⟨h1, h2, h3, -, h5⟩ := hc.half t f htf
    exact ⟨h1, h2, h3, fun h => h5 (hlt.trans h), fun h => h5 (hlt.trans h)⟩
  · by_cases hh : n.Half
    · exact hroom hh
    · exact (hready hh).room
  · intro hh
    exact (hi.walk hh).trans (hready hh).walk
  · intro hh _
    exact ⟨(hready hh).tracked.tracks, (hready hh).tracked.nonempty⟩

theorem RxInv.receive (hi : n.RxInv streams capacity) (ho : Orderly capacity n .receive) :
    (n.receive capacity).RxInv streams capacity := by
  have hat := hi.pc
  have hc := hi.counters
  unfold ReceivePath.receive
  have hidle : RxInv streams capacity { n with pc := .idle } :=
    ⟨hi.frame n.primeGen n.gateOpen n.term n.adoptPending .idle, trivial⟩
  cases hpc : n.pc with
  | idle => exact hi
  | resync d =>
    rw [hpc] at hat
    obtain ⟨h1, hle⟩ := hi.toRxCore.resyncAfterTruncation
    obtain ⟨h2, hterm, hcon, happ⟩ := h1.discardOooOnTermChange d.term
    refine ⟨h2.frame _ _ _ _ _, hat, hterm.symm, .inl ?_⟩
    exact hcon.trans_le (hle.trans happ.ge)
  | sample d =>
    rw [hpc] at hat
    exact ⟨hi.frame _ _ _ _ _, hat.sends, hat.term, hat.settled⟩
  | gate d gen =>
    rw [hpc] at hat
    dsimp only
    split
    · rename_i hok
      rw [Bool.and_eq_true] at hok
      exact ⟨hi.frame _ _ _ _ _, hat.sends, hat.term, hok.2, le_rfl,
        fun _ => hat.settled.imp_right And.left, fun h => absurd rfl h⟩
    · exact hidle
  | room x =>
    rw [hpc] at hat
    dsimp only
    split
    · rename_i hfits
      exact ⟨hi.frame _ _ _ _ _, ⟨hat.sends, hat.term, hat.ok, hat.epoch, hat.settled, hat.stale⟩,
        hfits, fun _ _ => le_rfl⟩
    · exact hidle
  | writeRun x bound =>
    rw [hpc] at hat
    obtain ⟨hx, hf⟩ := hat
    dsimp only
    split
    · rename_i hw
      refine ⟨hi.frame _ _ _ _ _, ⟨hx.sends, hx.term, hx.ok, hx.epoch, hx.settled, hx.stale⟩,
        ⟨hf.fits, hf.loaded⟩, hw, fun _ _ => le_rfl, fun _ => ?_⟩
      -- A counter above the last published value is the floor, and then
      -- `durable` is not below it.
      obtain ⟨-, -, hlow⟩ := writable_spec hx.sends hw
      obtain ⟨hcp, -⟩ := acceptable_spec hx.ok
      show n.append ≤ x.dgram.position
      by_cases hlt : n.lastPublished < n.append
      · have := hc.adopted hlt
        have := hc.floor
        omega
      · have := hc.published
        omega
    · exact hidle
  | copy x bound low => exact hi.copyRun hpc ho
  | recheck x =>
    rw [hpc] at hat
    dsimp only
    split
    · exact hidle
    · refine ⟨hi.frame _ _ _ _ _, hat.1, fun he => ⟨(hat.2 he).1, (hat.2 he).2.imp_right ?_⟩⟩
      exact fun hr hh => ⟨(hr hh).walk, (hr hh).room, (hr hh).tracked.tracks, (hr hh).tracked.nonempty⟩
  | check x =>
    rw [hpc] at hat
    simp only [Orderly, hpc] at ho
    dsimp only
    split
    · exact hidle
    · rename_i hge
      obtain ⟨hlt, hor⟩ := hat.2 (ho.resolve_right hge)
      refine ⟨hi.frame _ _ _ _ _, le_rfl, fun _ => ⟨hlt, ?_⟩⟩
      have hr := hor.resolve_left hge
      exact fun hh => ⟨(hr hh).walk, (hr hh).room, (hr hh).tracked.tracks, (hr hh).tracked.nonempty⟩
  | publish x seen => exact hi.publish hpc ho

/-! ## Runs -/

theorem RxInv.step (hi : n.RxInv streams capacity) {st : RxStep}
    (hp : Possible streams capacity n st) (ho : Orderly capacity n st) :
    (step streams capacity n st).RxInv streams capacity := by
  have hc := hi.counters
  -- A cell that only the receiver reads.
  have hcell : ∀ (isOpen : Bool) (term adopt : ℕ), RxInv streams capacity
      { n with gateOpen := isOpen, term, adoptPending := adopt } := by
    intro isOpen term adopt
    refine Frozen.inv (n := n) ⟨rfl, rfl, rfl, rfl, rfl, rfl, rfl, rfl, fun hh => ⟨hh, le_rfl, id⟩⟩ hi
      ⟨hc.published, hc.floor, hc.adopted, hc.primed, hc.half⟩ hi.room hi.walk
  cases st with
  | take d =>
    obtain ⟨-, hsends⟩ := hp
    simp only [ReceivePath.step]
    split
    · exact ⟨hi.frame _ _ _ _ _, hsends⟩
    · exact hi
  | hear term =>
    have hp : n.pc = .idle := hp
    simp only [ReceivePath.step]
    split
    · obtain ⟨h1, -⟩ := hi.toRxCore.resyncAfterTruncation
      obtain ⟨h2, -⟩ := h1.discardOooOnTermChange term
      refine ⟨h2, ?_⟩
      have hidle : (n.resyncAfterTruncation.discardOooOnTermChange term).pc = .idle := by
        rw [discardOooOnTermChange_pc, resyncAfterTruncation_pc, hp]
      rw [hidle]
      trivial
    · exact hi
  | cycle =>
    have hp : n.pc = .idle := hp
    obtain ⟨h1, -⟩ := hi.toRxCore.resyncAfterTruncation
    refine ⟨h1.resyncAfterSnapshotInstall, ?_⟩
    have hidle : n.resyncAfterTruncation.resyncAfterSnapshotInstall.pc = .idle := by
      rw [resyncAfterSnapshotInstall_pc, resyncAfterTruncation_pc, hp]
    show AtPc streams capacity _ n.resyncAfterTruncation.resyncAfterSnapshotInstall.pc
    rw [hidle]
    trivial
  | receive => exact hi.receive ho
  | setTerm term => exact hcell n.gateOpen term n.adoptPending
  | setGate isOpen => exact hcell isOpen n.term n.adoptPending
  | setAdopt pos => exact hcell n.gateOpen n.term pos
  | primeDurable target => exact hi.primeDurable hp.1 hp.2 ho
  | primeAppend =>
    obtain ⟨target, floor, hprime⟩ := hp
    exact hi.primeAppend hprime (ho target floor hprime)
  | bumpGen => exact hi.bumpGen hp
  | advance => exact hi.advance hp

theorem RxInv.boot (start floor : ℕ) (ring : ℕ → Option RingByte) (hfloor : floor ≤ start) :
    (boot start floor ring).RxInv streams capacity := by
  refine ⟨⟨⟨le_rfl, hfloor, fun h => absurd h (lt_irrefl _), fun _ h => absurd rfl h, ?_⟩, rfl,
    Nat.le_add_right _ _, fun _ => .refl, fun _ _ => ⟨Rebuilt.Tracks.nil _ _, ?_⟩⟩, trivial⟩
  · intro t f htf
    cases htf
  · simp [ReceivePath.boot, Rebuilt.new]

variable (capacity) in
theorem receive_append (n : ReceivePath) : (n.receive capacity).append = n.append ∨
    ∃ x seen, n.pc = .publish x seen := by
  unfold ReceivePath.receive
  cases n.pc with
  | resync d =>
    left
    dsimp only
    unfold discardOooOnTermChange ReceivePath.resyncAfterTruncation
    repeat' split
    all_goals rfl
  | gate d gen | room x | writeRun x bound | recheck x | check x =>
    left
    dsimp only
    split <;> rfl
  | publish x seen => exact .inr ⟨x, seen, rfl⟩
  | idle | sample d | copy x bound low => exact .inl rfl

theorem RxInv.raises (hi : n.RxInv streams capacity) (ho : Orderly capacity n .receive)
    (hh : ¬ n.Half) : Walk streams capacity (n.receive capacity).ring (n.receive capacity).epoch
      n.append (n.receive capacity).append := by
  rcases receive_append capacity n with heq | ⟨x, seen, hpc⟩
  · rw [heq]
    exact .refl
  · have hat := hi.pc
    rw [hpc] at hat
    simp only [Orderly, hpc] at ho
    have hready := (hat.2 ho.1).2 hh
    simp only [ReceivePath.receive, hpc]
    exact hready.walk

end

variable (streams capacity) in
/-- The published range lies in the ring and, when no prime is half-way, is a
    walk over frames of it that were accepted after the last prime; no byte
    below the counter was written. -/
structure Sound (n : ReceivePath) : Prop where
  kept : n.rewrote = false
  room : n.append ≤ n.durable + capacity
  frames : ¬ n.Half → n.durable ≤ n.append ∧
    Walk streams capacity n.ring n.epoch n.durable n.append

variable (streams capacity) in
/-- A step of the receiver raises the counter only over frames that were
    accepted after the last prime. -/
def RaisesOver (n n' : ReceivePath) : Prop :=
  ¬ n.Half → Walk streams capacity n'.ring n'.epoch n.append n'.append

variable (streams capacity) in
/-- The receive path over a run. -/
def Receives (start floor : ℕ) (ring : ℕ → Option RingByte) (sts : List RxStep) : Prop :=
  ∀ k, (run streams capacity (boot start floor ring) (sts.take k)).Sound streams capacity ∧
    (sts[k]? = some .receive →
      RaisesOver streams capacity (run streams capacity (boot start floor ring) (sts.take k))
        (run streams capacity (boot start floor ring) (sts.take (k + 1))))

/-- Over every orderly run. -/
theorem receives_of_orderly {start floor : ℕ} {ring : ℕ → Option RingByte} {sts : List RxStep}
    (hfloor : floor ≤ start) (hrun : Runs streams capacity (boot start floor ring) sts)
    (hord : Trace.Admits (step streams capacity) (Orderly capacity) (boot start floor ring) sts) :
    Receives streams capacity start floor ring sts := by
  have hinv : ∀ k, (run streams capacity (boot start floor ring) (sts.take k)).RxInv
      streams capacity := by
    intro k
    have hboth : Trace.Admits (step streams capacity)
        (fun n st => Possible streams capacity n st ∧ Orderly capacity n st) (boot start floor ring)
        (sts.take k) := Trace.Admits.take (Trace.admits_iff_getElem?.mpr fun j st hj =>
          ⟨Trace.admits_iff_getElem?.mp hrun j st hj, Trace.admits_iff_getElem?.mp hord j st hj⟩) k
    refine Trace.Admits.rule
      (P := fun l => (run streams capacity (boot start floor ring) l).RxInv streams capacity)
      (RxInv.boot start floor ring hfloor) ?_ hboth
    intro l st hl ⟨hp, ho⟩
    unfold run
    rw [List.foldl_append]
    exact RxInv.step hl hp ho
  intro k
  have hi := hinv k
  refine ⟨⟨hi.kept, hi.room, fun hh => ⟨(hi.walk hh).le, hi.walk hh⟩⟩, fun hk hh => ?_⟩
  have ho := Trace.admits_iff_getElem?.mp hord k .receive hk
  have hnext : run streams capacity (boot start floor ring) (sts.take (k + 1)) =
      (run streams capacity (boot start floor ring) (sts.take k)).receive capacity := by
    unfold run
    rw [List.take_add_one, hk, List.foldl_append]
    rfl
  rw [hnext]
  exact hi.raises ho hh

/-! ## A prime between the comparison and the store -/

section

instance instDecidableHalf (n : ReceivePath) : Decidable n.Half :=
  match h : n.prime with
  | .append target floor => .isTrue ⟨target, floor, h⟩
  | .none => .isFalse fun ⟨_, _, h'⟩ => by rw [h] at h'; cases h'
  | .gen => .isFalse fun ⟨_, _, h'⟩ => by rw [h] at h'; cases h'

instance instDecidableSends (s : LeaderStream) : (p : ℕ) → (fs : List WireFrame) →
    Decidable (s.Sends p fs)
  | _, [] => .isTrue trivial
  | p, f :: fs =>
    have := instDecidableSends s (p + f.aligned) fs
    inferInstanceAs (Decidable (_ ∧ _))

instance instDecidablePossible (n : ReceivePath) (st : RxStep) :
    Decidable (Possible streams capacity n st) :=
  match st with
  | .take _ => inferInstanceAs (Decidable (_ ∧ _))
  | .hear _ | .cycle => inferInstanceAs (Decidable (_ = _))
  | .receive | .setTerm _ | .setGate _ | .setAdopt _ => .isTrue trivial
  | .primeDurable _ => inferInstanceAs (Decidable (_ ∧ _))
  | .primeAppend => inferInstanceAs (Decidable n.Half)
  | .bumpGen => inferInstanceAs (Decidable (_ = _))
  | .advance =>
    match h : frameAt streams capacity n n.durable with
    | none => .isFalse fun ⟨_, _, hf, _⟩ => by rw [h] at hf; cases hf
    | some f =>
      decidable_of_iff (n.prime = .none ∧ n.durable + f.aligned ≤ n.append) <| by
        simp [Possible, h, exists_eq_left']

instance instDecidableOrderly (n : ReceivePath) (st : RxStep) : Decidable (Orderly capacity n st) :=
  match st with
  | .primeDurable _ => inferInstanceAs (Decidable (_ ≤ _))
  | .primeAppend =>
    match h : n.prime with
    | .append target _ =>
      decidable_of_iff (n.rebuilt.contiguous = target → n.rebuilt.ooo = []) <| by
        simp [Orderly, h]
    | .none => .isTrue fun _ _ h' => by rw [h] at h'; cases h'
    | .gen => .isTrue fun _ _ h' => by rw [h] at h'; cases h'
  | .receive => by
    unfold Orderly
    exact match n.pc with
    | .copy _ _ _ => inferInstanceAs (Decidable (_ ∨ _ ∧ (_ → _)))
    | .check _ => inferInstanceAs (Decidable (_ ∨ _))
    | .publish _ _ => inferInstanceAs (Decidable (_ ∧ (_ → _)))
    | .idle | .resync _ | .sample _ | .gate _ _ | .room _ | .writeRun _ _ | .recheck _ =>
      .isTrue trivial
  | .take _ | .hear _ | .cycle | .setTerm _ | .setGate _ | .setAdopt _ | .bumpGen | .advance =>
    .isTrue trivial

theorem twoFrames_disjoint (p q : ℕ) (f : WireFrame)
    (h : (if p = 0 ∨ p = 32 then some (⟨32, false⟩ : WireFrame) else none) = some f) (hlt : p < q)
    (hlt' : q < p + f.aligned) : (if q = 0 ∨ q = 32 then some (⟨32, false⟩ : WireFrame) else none) = none := by
  split at h
  · cases h
    rw [if_neg]
    simp only [WireFrame.aligned, alignFrameLen, frameAlignment] at hlt'
    omega
  · cases h

/-- Two frames without payload. -/
def twoFrames : LeaderStream where
  frame p := if p = 0 ∨ p = 32 then some ⟨32, false⟩ else none
  header := by
    intro p f h
    split at h
    · cases h
      decide
    · cases h
  disjoint := twoFrames_disjoint

/-- A frame is published and archived. -/
def firstFrame : List RxStep :=
  [.setGate true, .take ⟨0, 0, [⟨32, false⟩]⟩] ++ List.replicate 9 .receive ++ [.advance]

/-- The second frame is compared with the counter, the archive is cut to the
    start of the log, and the counter is stored. -/
def primeInTheWindow : List RxStep :=
  firstFrame ++ .take ⟨0, 32, [⟨32, false⟩]⟩ :: List.replicate 8 .receive ++
    [.primeDurable 0, .primeAppend, .bumpGen, .receive]

end

theorem receives_of_orderly_first :
    Receives (fun _ => twoFrames) 1024 0 0 (fun _ => none) (firstFrame ++
      [.primeDurable 0, .primeAppend, .bumpGen]) :=
  receives_of_orderly (le_refl 0) (by unfold Runs; decide +kernel) (by decide +kernel)

/-- The counter stands above the prime over frames that were accepted before
    it. -/
theorem receives_fails_in_the_window :
    Runs (fun _ => twoFrames) 1024 (boot 0 0 fun _ => none) primeInTheWindow ∧
      ¬ Receives (fun _ => twoFrames) 1024 0 0 (fun _ => none) primeInTheWindow := by
  refine ⟨by unfold Runs; decide +kernel, fun h => ?_⟩
  obtain ⟨⟨-, -, hframes⟩, -⟩ := h primeInTheWindow.length
  rw [List.take_length] at hframes
  set n := run (fun _ => twoFrames) 1024 (boot 0 0 fun _ => none) primeInTheWindow with hn
  have hhalf : ¬ n.Half := by rw [hn]; decide +kernel
  have hends : n.durable = 0 ∧ n.append = 64 := by rw [hn]; decide +kernel
  have hbyte : n.ring (0 % 1024) = some ⟨0, 0, 0⟩ ∧ n.epoch = 1 := by rw [hn]; decide +kernel
  obtain ⟨-, hw⟩ := hframes hhalf
  rw [hends.1, hends.2, hbyte.2] at hw
  rcases Relation.ReflTransGen.cases_head hw with heq | ⟨m, ⟨term, f, hf, -, hbytes⟩, -⟩
  · cases heq
  · have h0 := hbytes 0 (@wireLen_pos (fun _ => twoFrames) term _ _ hf)
    rw [Nat.add_zero, hbyte.1] at h0
    simp at h0

end ReceivePath

end UltimaCluster
