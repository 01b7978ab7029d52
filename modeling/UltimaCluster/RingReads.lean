/-
  Validated reads of the log buffer return the log.

  Every byte in the ring is for a position below the write extent, and what a
  slot holds only grows.  So a read that finds the extent within a lap of its
  position after the copy has copied nothing of a later lap.  A prime lowers the
  extent without clearing a slot: this holds only as long as nothing that it
  discards lies beyond the new extent.
-/
import UltimaCluster.LogRing

namespace UltimaCluster

/-- The append counter of a read that has re-loaded it. -/
def RingRead.reloaded (r : RingRead) : Option ℕ :=
  match r.pc with
  | .recheckReserve append => some append
  | _ => none

namespace LogBuffer

variable (b : LogBuffer)

theorem capacity_pos : 0 < b.capacity := by
  obtain ⟨k, hk⟩ := b.powerOfTwo
  rw [hk]
  exact Nat.two_pow_pos k

theorem maxClaim_le : b.maxClaim ≤ b.capacity := by
  have := b.room
  unfold maxClaim
  omega

theorem offset_add {pos i : ℕ} (h : b.offset pos + i < b.capacity) :
    (pos + i) % b.capacity = b.offset pos + i := by
  unfold offset at *
  rw [Nat.add_mod, Nat.mod_eq_of_lt (show i < b.capacity by omega), Nat.mod_eq_of_lt h]

end LogBuffer

theorem le_alignFrameLen (n : ℕ) : n ≤ alignFrameLen n := by
  unfold alignFrameLen frameAlignment
  omega

theorem alignFrameLen_mono {m n : ℕ} (h : m ≤ n) : alignFrameLen m ≤ alignFrameLen n := by
  unfold alignFrameLen frameAlignment
  omega

theorem headerLen_le_alignFrameLen {n : ℕ} (h : n ≠ 0) : headerLen ≤ alignFrameLen n := by
  unfold alignFrameLen frameAlignment headerLen
  omega

namespace LogRing

variable (b : LogBuffer)

/-! ## The condition -/

/-- Everything in the ring is for a position below `x`. -/
def Holds (s : LogRing) (x : ℕ) : Prop := ∀ o < b.capacity, ∀ q ∈ s.store.owner o, q < x

/-- Everything that a write under way has still to store is for a position
    below `x`. -/
def Stores (s : LogRing) (x : ℕ) : Prop := ∀ wr ∈ s.write, ∀ e ∈ wr.bytes, e.1 < x

/-- A prime finds nothing at or beyond the extent that it sets, neither in the
    ring nor under way, and no read between its two last loads; no write beyond
    that extent starts before its last store; and no byte is stored over a
    position that a read under way has copied. -/
def Safe (s : LogRing) : RingStep → Prop
  | .prime pos => Holds b s (pos + b.maxClaim) ∧ s.Stores (pos + b.maxClaim) ∧
      ∀ r ∈ s.reads, ∀ a ∈ r.reloaded, pos ≤ a
  | .restart pos => Holds b s (pos + b.maxClaim)
  | .writeRun position bytes => ∀ p ∈ s.prime, position + bytes.length ≤ p.pos + b.maxClaim
  | .storeByte => ∀ wr ∈ s.write, ∀ e ∈ wr.bytes.head?, ∀ r ∈ s.reads,
      e.1 < r.pos ∨ r.pos + r.out.length ≤ e.1
  | _ => True

instance (s : LogRing) (x : ℕ) : Decidable (Holds b s x) :=
  inferInstanceAs (Decidable (∀ o < b.capacity, _))

instance (s : LogRing) (x : ℕ) : Decidable (s.Stores x) :=
  inferInstanceAs (Decidable (∀ wr ∈ s.write, _))

instance (s : LogRing) : (st : RingStep) → Decidable (Safe b s st)
  | .prime _ => inferInstanceAs (Decidable (_ ∧ _ ∧ _))
  | .restart _ => inferInstanceAs (Decidable (Holds b s _))
  | .writeRun _ _ => inferInstanceAs (Decidable (∀ p ∈ s.prime, _))
  | .storeByte => inferInstanceAs (Decidable (∀ wr ∈ s.write, _))
  | .openAppender | .closeAppender | .append _ | .publish | .publishRun _ | .recorded _
  | .primeReserve | .primeAppend | .readFrame _ | .readRun _ _ | .access _ => .isTrue trivial

/-! ## One read -/

/-- Where a read is in the bytes it copies. -/
def PcOk (r : RingRead) : Prop :=
  match r.pc with
  | .loadReserve => r.out = [] ∧ r.walked = 0
  | .loadLength => r.out.length = r.walked ∧ b.offset r.pos + r.walked ≤ b.capacity ∧
      (r.kind = .frame → r.walked = 0)
  | .loadType span => r.out.length = r.walked ∧ b.offset r.pos + r.walked + span ≤ b.capacity ∧
      headerLen ≤ span
  | .copy span len done padding => r.out.length = r.walked + done ∧ done ≤ len ∧
      b.offset r.pos + r.walked + len ≤ b.capacity ∧
      (padding = false → r.kind ≠ .frame → len = span)
  | .recheckAppend | .recheckReserve _ => b.offset r.pos + r.out.length ≤ b.capacity

/-- What one access does: the position stays, and either nothing is copied, or
    the byte after the last one, from its slot. -/
structure Accessed (s : LogRing) (r r' : RingRead) : Prop where
  pos : r'.pos = r.pos
  pc : PcOk b r'
  out : (r'.out = r.out ∧ ∀ a ∈ r'.reloaded, a = s.append) ∨
    (r'.reloaded = none ∧ r'.out = r.out ++
      [(s.store.cell ((r.pos + r.out.length) % b.capacity),
        s.store.owner ((r.pos + r.out.length) % b.capacity))])

variable {r r' : RingRead}

theorem readStep_accessed {s : LogRing} (h : PcOk b r) (hstep : readStep b s r = .inl r') :
    Accessed b s r r' := by
  have hoff : b.offset r.pos < b.capacity := Nat.mod_lt _ b.capacity_pos
  obtain ⟨kind, pos, append, walked, out, pc⟩ := r
  cases pc with
  | loadReserve =>
    obtain ⟨rfl, rfl⟩ := h
    simp only [readStep] at hstep
    split at hstep
    · cases hstep
    · cases hstep
      exact ⟨rfl, ⟨rfl, hoff.le, fun _ => rfl⟩, .inl ⟨rfl, by simp [RingRead.reloaded]⟩⟩
  | loadLength =>
    obtain ⟨hlen, hroom, hzero⟩ := h
    dsimp only at hlen hroom hzero
    cases kind with
    | frame =>
      simp only [readStep] at hstep
      split_ifs at hstep with h1 h2
      cases hstep
      have hw := hzero rfl
      have hle := le_alignFrameLen (s.commitWord (b.offset pos))
      refine ⟨rfl, ⟨hlen, Nat.zero_le _, ?_, fun _ hk => absurd rfl hk⟩,
        .inl ⟨rfl, by simp [RingRead.reloaded]⟩⟩
      dsimp only
      rw [hw]
      omega
    | run maxBytes =>
      simp only [readStep] at hstep
      split_ifs at hstep with h1 h2 h3
      · cases hstep
        refine ⟨rfl, ?_, .inl ⟨rfl, by simp [RingRead.reloaded]⟩⟩
        exact hlen ▸ hroom
      · cases hstep
        refine ⟨rfl, ?_, .inl ⟨rfl, by simp [RingRead.reloaded]⟩⟩
        exact hlen ▸ hroom
      · cases hstep
        refine ⟨rfl, ⟨hlen, ?_, headerLen_le_alignFrameLen h2⟩,
          .inl ⟨rfl, by simp [RingRead.reloaded]⟩⟩
        dsimp only [hard] at h3 ⊢
        omega
      · cases hstep
        refine ⟨rfl, ?_, .inl ⟨rfl, by simp [RingRead.reloaded]⟩⟩
        exact hlen ▸ hroom
  | loadType span =>
    obtain ⟨hlen, hroom, hspan⟩ := h
    dsimp only at hlen hroom
    cases kind with
    | frame =>
      cases hstep
      refine ⟨rfl, ?_, .inl ⟨rfl, by simp [RingRead.reloaded]⟩⟩
      dsimp only [PcOk]
      omega
    | run maxBytes =>
      simp only [readStep] at hstep
      generalize (s.store.cell (b.offset pos + walked + offType) == frameTypePadding) = padding
        at hstep
      have hlt : (if padding = true then headerLen else span) ≤ span := by split <;> omega
      have heq : padding = false → (if padding = true then headerLen else span) = span := by
        rintro rfl
        rfl
      generalize (if padding = true then headerLen else span) = len at hstep hlt heq
      split at hstep
      · cases hstep
        refine ⟨rfl, ?_, .inl ⟨rfl, by simp [RingRead.reloaded]⟩⟩
        dsimp only [PcOk]
        omega
      · cases hstep
        refine ⟨rfl, ⟨hlen, Nat.zero_le _, ?_, fun hp _ => heq hp⟩,
          .inl ⟨rfl, by simp [RingRead.reloaded]⟩⟩
        dsimp only
        omega
  | copy span len done padding =>
    obtain ⟨hlen, hdone, hroom, hspan⟩ := h
    dsimp only at hlen hdone hroom hspan
    simp only [readStep] at hstep
    split at hstep
    · cases hstep
      have hplace : (pos + out.length) % b.capacity = b.offset pos + walked + done := by
        rw [b.offset_add (by omega)]
        omega
      refine ⟨rfl, ⟨?_, ?_, hroom, hspan⟩, .inr ⟨rfl, ?_⟩⟩
      · simp only [List.length_append, List.length_singleton]
        omega
      · omega
      · rw [hplace]
    · rename_i hge
      cases kind with
      | frame =>
        cases hstep
        refine ⟨rfl, ?_, .inl ⟨rfl, by simp [RingRead.reloaded]⟩⟩
        dsimp only [PcOk]
        omega
      | run maxBytes =>
        dsimp only at hstep
        split at hstep
        · cases hstep
          refine ⟨rfl, ?_, .inl ⟨rfl, by simp [RingRead.reloaded]⟩⟩
          dsimp only [PcOk]
          omega
        · rename_i hcont
          cases hstep
          have hp : padding = false := by
            cases padding with
            | false => rfl
            | true => exact absurd (.inl rfl) hcont
          have hs := hspan hp (by simp)
          refine ⟨rfl, ⟨?_, ?_, by simp⟩, .inl ⟨rfl, by simp [RingRead.reloaded]⟩⟩
          · dsimp only
            omega
          · dsimp only
            omega
  | recheckAppend =>
    cases hstep
    exact ⟨rfl, h, .inl ⟨rfl, by simp [RingRead.reloaded]⟩⟩
  | recheckReserve a =>
    simp only [readStep] at hstep
    split at hstep
    · cases hstep
    · cases kind with
      | frame => cases hstep
      | run maxBytes =>
        dsimp only at hstep
        split at hstep <;> cases hstep

/-- A read that succeeds has found the extent within a lap of its position. -/
theorem readStep_returned {s : LogRing} {res : ReadResult} (hstep : readStep b s r = .inr res)
    (hres : res ≠ .overrun) : ∃ a ∈ r.reloaded, writeExtent b a s.reserve ≤ r.pos + b.capacity := by
  obtain ⟨kind, pos, append, walked, out, pc⟩ := r
  cases pc with
  | recheckReserve a =>
    simp only [readStep] at hstep
    split at hstep
    · cases hstep
      exact absurd rfl hres
    · exact ⟨a, rfl, not_lt.mp ‹_›⟩
  | loadReserve =>
    simp only [readStep] at hstep
    split at hstep
    · cases hstep
      exact absurd rfl hres
    · cases hstep
  | loadLength =>
    cases kind with
    | frame =>
      simp only [readStep] at hstep
      split_ifs at hstep <;> cases hstep <;> exact absurd rfl hres
    | run maxBytes =>
      simp only [readStep] at hstep
      split_ifs at hstep
  | loadType span =>
    cases kind with
    | frame => cases hstep
    | run maxBytes =>
      simp only [readStep] at hstep
      split_ifs at hstep
  | copy span len done padding =>
    simp only [readStep] at hstep
    split at hstep
    · cases hstep
    · cases kind with
      | frame => cases hstep
      | run maxBytes =>
        dsimp only at hstep
        split at hstep <;> cases hstep
  | recheckAppend => cases hstep

/-! ## The invariant -/

/-- What a read under way has copied. -/
structure ReadOk (s : LogRing) (r : RingRead) : Prop where
  pc : PcOk b r
  copied : ∀ i e, r.out[i]? = some e → Lap.Copied b.capacity s.store (r.pos + i) e
  reloaded : ∀ a ∈ r.reloaded, ∀ e ∈ r.out, ∀ q, e.2 = some q → q < writeExtent b a s.reserve

/-- The invariant of a run. -/
structure Inv (s : LogRing) : Prop where
  store : s.store.Ok b.capacity
  durable : s.durable ≤ s.append
  owners : ∀ o q, s.store.owner o = some q →
    q < writeExtent b s.append s.reserve ∧ q < s.append + b.capacity
  pending : ∀ wr ∈ s.write, ∀ e ∈ wr.bytes, s.append ≤ e.1 ∧
    e.1 < writeExtent b s.append s.reserve ∧ e.1 < s.append + b.capacity
  publish : ∀ wr ∈ s.write, ∀ finish ∈ wr.publish, s.append ≤ finish
  appender : ∀ a ∈ s.appender, a.pos = s.append ∧ a.cachedDurable ≤ s.durable ∧ s.prime = none
  /-- A prime under way: its extent covers everything. -/
  prime : ∀ p ∈ s.prime, p.pos ≤ s.append ∧ s.durable = p.pos ∧
    (∀ o q, s.store.owner o = some q → q < p.pos + b.maxClaim) ∧
    s.Stores (p.pos + b.maxClaim) ∧ ∀ r ∈ s.reads, ∀ a ∈ r.reloaded, p.pos ≤ a
  reads : ∀ r ∈ s.reads, ReadOk b s r

variable {b} {s : LogRing}

theorem holds_iff (h : s.store.Ok b.capacity) (x : ℕ) :
    Holds b s x ↔ ∀ o q, s.store.owner o = some q → q < x := by
  refine ⟨fun hx o q ho => hx o ?_ q ho, fun hx o _ q ho => hx o q ho⟩
  rw [← h.place o q ho]
  exact Nat.mod_lt _ b.capacity_pos

theorem Inv.copied_lt (h : Inv b s) {x : ℕ} (hx : ∀ o q, s.store.owner o = some q → q < x)
    (hr : r ∈ s.reads) {e : UInt8 × Option ℕ} (he : e ∈ r.out) {q : ℕ} (hq : e.2 = some q) :
    q < x := by
  obtain ⟨i, hi⟩ := List.mem_iff_getElem?.mp he
  obtain ⟨q', ho, hle⟩ := ((h.reads r hr).copied i e hi).grown q hq
  exact hle.trans_lt (hx _ q' ho)

theorem inv_fresh : Inv b fresh where
  store := ⟨by simp [fresh], by simp [fresh], by simp [fresh]⟩
  durable := le_rfl
  owners := by simp [fresh]
  pending := by simp [fresh]
  publish := by simp [fresh]
  appender := by simp [fresh]
  prime := by simp [fresh]
  reads := by simp [fresh]

/-! ## The writer -/

variable {e : ℕ × UInt8} {pos : ℕ}

theorem mem_bytesAt {bs : Bytes} (h : e ∈ bytesAt pos bs) : pos ≤ e.1 ∧ e.1 < pos + bs.length := by
  obtain ⟨⟨x, i⟩, hmem, rfl⟩ := List.mem_map.mp h
  have hlt := (List.mem_zipIdx hmem).2.1
  omega

theorem length_headerExceptLength (f : LogFrame) : f.headerExceptLength.length = 28 := by
  simp [LogFrame.headerExceptLength]

theorem mem_frameBytes {f : LogFrame} (h : e ∈ frameBytes pos f) :
    pos ≤ e.1 ∧ e.1 < pos + f.total := by
  unfold frameBytes at h
  have hlen := length_headerExceptLength f
  simp only [List.mem_append] at h
  unfold LogFrame.total headerLen
  rcases h with (h | h) | h <;> have hb := mem_bytesAt h
  · unfold headerLen at hb
    omega
  · omega
  · rw [Bytes.length_le] at hb
    omega

theorem mem_paddingBytes {pos pad : ℕ} {f : LogFrame} (h : e ∈ paddingBytes pos pad f) :
    pos ≤ e.1 ∧ e.1 < pos + headerLen := by
  unfold headerLen
  rcases List.mem_append.mp h with h | h <;> have hb := mem_bytesAt h
  · rw [length_headerExceptLength] at hb
    omega
  · rw [Bytes.length_le] at hb
    omega

theorem padLen_le {f : LogFrame} (hf : f.body.length ≤ b.maxPayload) (pos : ℕ) :
    padLen b pos f + alignFrameLen f.total ≤ b.maxClaim := by
  have hmono : alignFrameLen f.total ≤ alignFrameLen (headerLen + b.maxPayload) :=
    alignFrameLen_mono (Nat.add_le_add_left hf _)
  unfold padLen LogBuffer.maxClaim
  dsimp only
  split <;> omega

theorem ReadOk.of_store {s s' : LogRing} (h : ReadOk b s r) (hstore : s'.store = s.store)
    (hres : ∀ a ∈ r.reloaded, ∀ e ∈ r.out, ∀ q, e.2 = some q → q < writeExtent b a s'.reserve) :
    ReadOk b s' r where
  pc := h.pc
  copied := hstore ▸ h.copied
  reloaded := hres

theorem Inv.owner_lt (h : Inv b s) {wr : RingWrite} (hwr : wr ∈ s.write) (he : e ∈ wr.bytes) {q : ℕ}
    (hq : s.store.owner (e.1 % b.capacity) = some q) : q < e.1 + b.capacity := by
  have h1 := (h.owners _ q hq).2
  have h2 := (h.pending wr hwr e he).1
  omega

theorem Inv.storeByte (h : Inv b s) (hsafe : Safe b s .storeByte) : Inv b (storeByte b s) := by
  unfold LogRing.storeByte
  split
  · rename_i w v rest publish hwr
    have hmem : (w, v) ∈ (w, v) :: rest := List.mem_cons_self
    have hlap : ∀ q, s.store.owner (w % b.capacity) = some q → q < w + b.capacity :=
      fun q hq => h.owner_lt hwr hmem hq
    have hwin := h.pending _ hwr _ hmem
    -- the write that is left, if any
    have hleft : ∀ wr', wr' ∈ (if rest = [] ∧ publish = none then none
        else some (⟨rest, publish⟩ : RingWrite)) → wr' = ⟨rest, publish⟩ := by
      intro wr' hwr'
      split at hwr'
      · cases hwr'
      · exact (Option.mem_some.mp hwr').symm
    have howner : ∀ o q, (s.store.write b.capacity w v).owner o = some q →
        q = w ∨ s.store.owner o = some q := by
      intro o q ho
      by_cases he : o = w % b.capacity
      · rw [he, Lap.Store.write_owner_self] at ho
        exact .inl (Option.some.inj ho).symm
      · rw [Lap.Store.write_owner_ne _ _ he] at ho
        exact .inr ho
    exact { h with
      store := h.store.write hlap
      owners := by
        intro o q ho
        obtain rfl | ho := howner o q ho
        · exact hwin.2
        · exact h.owners o q ho
      pending := by
        intro wr' hwr' e he
        obtain rfl := hleft wr' hwr'
        exact h.pending _ hwr e (List.mem_cons_of_mem _ he)
      publish := by
        intro wr' hwr' finish hf
        obtain rfl := hleft wr' hwr'
        exact h.publish _ hwr finish hf
      prime := by
        intro p hp
        obtain ⟨hpos, hdur, hown, hst, hrel⟩ := h.prime p hp
        refine ⟨hpos, hdur, ?_, ?_, hrel⟩
        · intro o q ho
          obtain rfl | ho := howner o q ho
          · exact hst _ hwr _ hmem
          · exact hown o q ho
        · intro wr' hwr' e he
          obtain rfl := hleft wr' hwr'
          exact hst _ hwr e (List.mem_cons_of_mem _ he)
      reads := by
        intro r hr
        obtain ⟨hpc, hcop, hrel⟩ := h.reads r hr
        refine ⟨hpc, fun i e hi => ?_, hrel⟩
        refine (hcop i e hi).write h.store hlap ?_
        have hlt := (List.getElem?_eq_some_iff.mp hi).1
        have hout := hsafe _ hwr (w, v) rfl r hr
        dsimp only at hout
        omega }
  · exact h

theorem Inv.startAppend (h : Inv b s) (f : LogFrame) : Inv b (startAppend b s f) := by
  unfold LogRing.startAppend
  split
  · exact h
  · rename_i a ha
    obtain ⟨hpos, hcached, hprime⟩ := h.appender a ha
    have hdur := h.durable
    dsimp only
    split
    · exact h
    · rename_i hbody
      have hclaim := padLen_le (not_lt.mp hbody) a.pos
      generalize hpad : padLen b a.pos f = pad at hclaim
      generalize ha' : (if a.cachedDurable + b.capacity < a.pos + pad + alignFrameLen f.total then
        { a with cachedDurable := s.durable } else a) = a'
      have hpos' : a'.pos = s.append := by
        rw [← ha']
        split <;> exact hpos
      have hcached' : a'.cachedDurable ≤ s.durable := by
        rw [← ha']
        split
        · exact le_rfl
        · exact hcached
      split
      · exact { h with
          appender := by
            intro a'' ha''
            obtain rfl := Option.mem_some.mp ha''
            exact ⟨hpos', hcached', hprime⟩
          reads := fun r hr => (h.reads r hr).of_store rfl (h.reads r hr).reloaded }
      · have hle := le_alignFrameLen f.total
        have hhead : headerLen ≤ f.total := Nat.le_add_right _ _
        -- the bytes lie between the counter and the end of the claim
        have hbytes : ∀ e ∈ (if pad = 0 then [] else paddingBytes a'.pos pad f) ++
            frameBytes (a'.pos + pad) f,
            s.append ≤ e.1 ∧ e.1 < s.append + pad + alignFrameLen f.total := by
          intro e he
          rcases List.mem_append.mp he with he | he
          · split at he
            · cases he
            · have := mem_paddingBytes he
              omega
          · have := mem_frameBytes he
            omega
        exact { h with
          pending := by
            intro wr hwr e he
            obtain rfl := Option.mem_some.mp hwr
            obtain ⟨h1, h2⟩ := hbytes e he
            refine ⟨h1, lt_max_of_lt_left ?_, ?_⟩ <;> dsimp only <;> omega
          publish := by
            intro wr hwr finish hf
            obtain rfl := Option.mem_some.mp hwr
            obtain rfl := Option.mem_some.mp hf
            dsimp only
            omega
          appender := by
            intro a'' ha''
            obtain rfl := Option.mem_some.mp ha''
            exact ⟨hpos', hcached', hprime⟩
          prime := by simp [hprime]
          reads := fun r hr => (h.reads r hr).of_store rfl (h.reads r hr).reloaded }

theorem Inv.startRun (h : Inv b s) {position : ℕ} {bytes : Bytes}
    (hp : s.Possible (.writeRun position bytes)) (hsafe : Safe b s (.writeRun position bytes)) :
    Inv b (startRun b s position bytes) := by
  obtain ⟨ha, -, hge⟩ := hp
  unfold LogRing.startRun
  split_ifs with h1 h2 h3
  · exact h
  · exact h
  · exact h
  · have hdur := h.durable
    have hgrow : ∀ a, writeExtent b a s.reserve ≤
        writeExtent b a (max s.reserve (position + bytes.length)) := fun a =>
      max_le_max le_rfl (le_max_left _ _)
    exact { h with
      owners := fun o q ho => ⟨(h.owners o q ho).1.trans_le (hgrow _), (h.owners o q ho).2⟩
      pending := by
        intro wr hwr e he
        obtain rfl := Option.mem_some.mp hwr
        obtain ⟨he1, he2⟩ := mem_bytesAt he
        refine ⟨hge.trans he1, lt_max_of_lt_right (lt_max_of_lt_right he2), ?_⟩
        dsimp only
        omega
      publish := by
        intro wr hwr finish hf
        obtain rfl := Option.mem_some.mp hwr
        cases hf
      appender := by simp [ha]
      prime := by
        intro p hpr
        obtain ⟨hpos, hd, hown, -, hrel⟩ := h.prime p hpr
        refine ⟨hpos, hd, hown, ?_, hrel⟩
        intro wr hwr e he
        obtain rfl := Option.mem_some.mp hwr
        exact (mem_bytesAt he).2.trans_le (hsafe p hpr)
      reads := by
        intro r hr
        refine (h.reads r hr).of_store rfl fun a ha e he q hq => ?_
        exact ((h.reads r hr).reloaded a ha e he q hq).trans_le (hgrow a) }

theorem Inv.publish_append (h : Inv b s) {finish : ℕ} (hle : s.append ≤ finish)
    (appender : Option Appender)
    (ha : ∀ a ∈ appender, a.pos = finish ∧ a.cachedDurable ≤ s.durable ∧ s.prime = none) :
    Inv b { s with append := finish, write := none, appender } where
  store := h.store
  durable := h.durable.trans hle
  owners o q ho := by
    obtain ⟨h1, h2⟩ := h.owners o q ho
    refine ⟨h1.trans_le (max_le_max (Nat.add_le_add_right hle _) le_rfl), ?_⟩
    exact h2.trans_le (Nat.add_le_add_right hle _)
  pending := by simp
  publish := by simp
  appender := ha
  prime p hp := by
    obtain ⟨hpos, hd, hown, -, hrel⟩ := h.prime p hp
    exact ⟨hpos.trans hle, hd, hown, by simp [Stores], hrel⟩
  reads r hr := (h.reads r hr).of_store rfl (h.reads r hr).reloaded

/-! ## The prime -/

theorem Inv.prime_start (h : Inv b s) (hp : s.Possible (.prime pos)) (hsafe : Safe b s (.prime pos)) :
    Inv b { s with durable := pos, prime := some ⟨pos, false⟩ } := by
  obtain ⟨-, ha, hle⟩ := hp
  obtain ⟨hown, hst, hrel⟩ := hsafe
  exact { h with
    durable := hle
    appender := by simp [ha]
    prime := by
      intro p hp
      obtain rfl := Option.mem_some.mp hp
      exact ⟨hle, rfl, (holds_iff h.store _).mp hown, hst, hrel⟩
    reads := fun r hr => (h.reads r hr).of_store rfl (h.reads r hr).reloaded }

/-- The reserve falls to the primed position; the claim margin above it covers
    what is in the ring. -/
theorem Inv.prime_reserve (h : Inv b s) {p : RingPrime} (hp : p ∈ s.prime) :
    Inv b { s with reserve := p.pos, prime := some ⟨p.pos, true⟩ } := by
  obtain ⟨hpos, hd, hown, hst, hrel⟩ := h.prime p hp
  have hmargin : ∀ a, p.pos ≤ a → p.pos + b.maxClaim ≤ writeExtent b a p.pos := fun a ha =>
    le_max_of_le_left (Nat.add_le_add_right ha _)
  exact { h with
    owners := fun o q ho => ⟨(hown o q ho).trans_le (hmargin _ hpos), (h.owners o q ho).2⟩
    pending := by
      intro wr hwr e he
      obtain ⟨h1, -, h3⟩ := h.pending wr hwr e he
      exact ⟨h1, (hst wr hwr e he).trans_le (hmargin _ hpos), h3⟩
    appender := by
      intro a ha
      rw [(h.appender a ha).2.2] at hp
      cases hp
    prime := by
      intro p' hp'
      obtain rfl := Option.mem_some.mp hp'
      exact ⟨hpos, hd, hown, hst, hrel⟩
    reads := by
      intro r hr
      refine (h.reads r hr).of_store rfl fun a ha e he q hq => ?_
      exact (h.copied_lt hown hr he hq).trans_le (hmargin a (hrel r hr a ha)) }

theorem Inv.prime_append (h : Inv b s) {p : RingPrime} (hp : p ∈ s.prime) :
    Inv b { s with append := p.pos, prime := none } := by
  obtain ⟨hpos, hd, hown, hst, -⟩ := h.prime p hp
  have hcap := b.maxClaim_le
  have hin : ∀ q, q < p.pos + b.maxClaim →
      q < writeExtent b p.pos s.reserve ∧ q < p.pos + b.capacity := fun q hq =>
    ⟨lt_max_of_lt_left hq, by omega⟩
  exact {
    store := h.store
    durable := hd.le
    owners := fun o q ho => hin q (hown o q ho)
    pending := fun wr hwr e he =>
      ⟨hpos.trans (h.pending wr hwr e he).1, hin e.1 (hst wr hwr e he)⟩
    publish := fun wr hwr finish hf => hpos.trans (h.publish wr hwr finish hf)
    appender := by
      intro a ha
      rw [(h.appender a ha).2.2] at hp
      cases hp
    prime := by simp
    reads := fun r hr => (h.reads r hr).of_store rfl (h.reads r hr).reloaded }

theorem Inv.restart (h : Inv b s) (hsafe : Safe b s (.restart pos)) :
    Inv b (exec b s (.restart pos)) where
  store := h.store
  durable := le_rfl
  owners o q ho := by
    have hq := (holds_iff h.store _).mp hsafe o q ho
    exact ⟨lt_max_of_lt_left hq, hq.trans_le (Nat.add_le_add_left b.maxClaim_le _)⟩
  pending := by simp [exec]
  publish := by simp [exec]
  appender := by simp [exec]
  prime := by simp [exec]
  reads := by simp [exec]

/-! ## The readers -/

theorem Inv.set_reads (h : Inv b s) {rs : List RingRead} (hrs : ∀ r ∈ rs, ReadOk b s r)
    (hrel : ∀ p ∈ s.prime, ∀ r ∈ rs, ∀ a ∈ r.reloaded, p.pos ≤ a) :
    Inv b { s with reads := rs } where
  store := h.store
  durable := h.durable
  owners := h.owners
  pending := h.pending
  publish := h.publish
  appender := h.appender
  prime p hp := by
    obtain ⟨hpos, hd, hown, hst, -⟩ := h.prime p hp
    exact ⟨hpos, hd, hown, hst, hrel p hp⟩
  reads r hr := (hrs r hr).of_store rfl (hrs r hr).reloaded

theorem Inv.startRead (h : Inv b s) (kind : ReadKind) (pos : ℕ) :
    Inv b (s.startRead kind pos) := by
  unfold LogRing.startRead
  split
  · exact h
  · refine h.set_reads ?_ ?_
    · refine List.forall_mem_snoc h.reads ?_
      exact ⟨⟨rfl, rfl⟩, by simp, by simp⟩
    · intro p hp r hr
      rcases List.mem_snoc.mp hr with hr | rfl
      · exact (h.prime p hp).2.2.2.2 r hr
      · simp [RingRead.reloaded]

theorem Inv.accessed (h : Inv b s) (hr : r ∈ s.reads) (hacc : Accessed b s r r') :
    ReadOk b s r' := by
  obtain ⟨hpc, hcop, -⟩ := h.reads r hr
  refine ⟨hacc.pc, fun i e hi => ?_, fun a ha e he q hq => ?_⟩
  · rw [hacc.pos]
    rcases hacc.out with ⟨hout, -⟩ | ⟨-, hout⟩
    · exact hcop i e (hout ▸ hi)
    · rw [hout, List.getElem?_append] at hi
      split at hi
      · exact hcop i e hi
      · rw [List.getElem?_singleton] at hi
        split at hi
        · have hlen : i = r.out.length := by omega
          rw [hlen, ← Option.some.inj hi]
          exact h.store.copied _
        · cases hi
  · rcases hacc.out with ⟨hout, hrel⟩ | ⟨hnone, -⟩
    · rw [hrel a ha]
      exact h.copied_lt (fun o q ho => (h.owners o q ho).1) hr (hout ▸ he) hq
    · rw [hnone] at ha
      cases ha

theorem Inv.access (h : Inv b s) (i : ℕ) : Inv b (exec b s (.access i)) := by
  dsimp only [exec]
  split
  · exact h
  · rename_i r hr
    have hmem := List.mem_of_getElem? hr
    split
    · rename_i r' hstep
      have hacc := readStep_accessed b (h.reads r hmem).pc hstep
      have hok := h.accessed hmem hacc
      refine h.set_reads ?_ ?_
      · intro r'' hr''
        rcases List.mem_or_eq_of_mem_set hr'' with hr'' | rfl
        · exact h.reads r'' hr''
        · exact hok
      · intro p hp r'' hr''
        rcases List.mem_or_eq_of_mem_set hr'' with hr'' | rfl
        · exact (h.prime p hp).2.2.2.2 r'' hr''
        · intro a ha
          rcases hacc.out with ⟨-, hrel⟩ | ⟨hnone, -⟩
          · rw [hrel a ha]
            exact (h.prime p hp).1
          · rw [hnone] at ha
            cases ha
    · refine h.set_reads ?_ ?_
      · exact fun r' hr' => h.reads r' (List.mem_of_mem_eraseIdx hr')
      · exact fun p hp r' hr' => (h.prime p hp).2.2.2.2 r' (List.mem_of_mem_eraseIdx hr')

/-! ## Runs -/

theorem Inv.exec (h : Inv b s) {st : RingStep} (hp : s.Possible st) (hsafe : Safe b s st) :
    Inv b (exec b s st) := by
  cases st with
  | openAppender =>
    exact { h with
      appender := by
        intro a ha
        obtain rfl := Option.mem_some.mp ha
        exact ⟨rfl, le_rfl, hp.2.2⟩
      reads := fun r hr => (h.reads r hr).of_store rfl (h.reads r hr).reloaded }
  | closeAppender =>
    exact { h with
      appender := by simp [LogRing.exec]
      reads := fun r hr => (h.reads r hr).of_store rfl (h.reads r hr).reloaded }
  | append f => exact h.startAppend f
  | writeRun position bytes => exact h.startRun hp hsafe
  | storeByte => exact h.storeByte hsafe
  | publish =>
    dsimp only [LogRing.exec]
    split
    · rename_i bytes finish hwr
      refine h.publish_append (h.publish _ hwr finish rfl) _ fun a ha => ?_
      obtain ⟨a', ha', rfl⟩ := Option.mem_map.mp ha
      exact ⟨rfl, (h.appender a' ha').2⟩
    · exact h
  | publishRun contiguous =>
    obtain ⟨ha, hw, hle⟩ := hp
    have hnext := h.publish_append hle none (by simp)
    rw [← ha, ← hw] at hnext
    exact hnext
  | recorded durable =>
    obtain ⟨hge, hle, hprime⟩ := hp
    exact { h with
      durable := hle
      appender := fun a ha => ⟨(h.appender a ha).1, (h.appender a ha).2.1.trans hge, hprime⟩
      prime := by simp [LogRing.exec, hprime]
      reads := fun r hr => (h.reads r hr).of_store rfl (h.reads r hr).reloaded }
  | prime pos => exact h.prime_start hp hsafe
  | primeReserve =>
    dsimp only [LogRing.exec]
    split
    · exact h.prime_reserve ‹_›
    · exact h
  | primeAppend =>
    dsimp only [LogRing.exec]
    split
    · exact h.prime_append ‹_›
    · exact h
  | restart pos => exact h.restart hsafe
  | readFrame pos => exact h.startRead .frame pos
  | readRun pos maxBytes => exact h.startRead (.run maxBytes) pos
  | access i => exact h.access i

theorem inv_run {sts : List RingStep} (h : Runs b (Safe b) fresh sts) : Inv b (run b fresh sts) := by
  refine Trace.Admits.rule (P := fun sts => Inv b (run b fresh sts)) inv_fresh ?_ h
  rintro sts st hinv ⟨hp, hsafe⟩
  unfold run
  rw [List.foldl_append]
  exact hinv.exec hp hsafe

/-- The read has the log: no byte of a later lap, and every byte that was
    written for its position is the last one written for it. -/
def Exact (s : LogRing) (r : RingRead) : Prop :=
  ∀ i e, r.out[i]? = some e →
    (∀ q, e.2 = some q → q ≤ r.pos + i) ∧
    ∀ x, s.store.last (r.pos + i) = some x → e = (x, some (r.pos + i))

theorem returns_reloaded {st : RingStep} {res : ReadResult} (hret : returns b s st = some (r, res))
    (hres : res ≠ .overrun) :
    r ∈ s.reads ∧ ∃ a ∈ r.reloaded, writeExtent b a s.reserve ≤ r.pos + b.capacity := by
  cases st with
  | access i =>
    simp only [returns, Option.bind_eq_bind, Option.bind_eq_some_iff, Option.map_eq_some_iff,
      Prod.mk.injEq] at hret
    obtain ⟨r', hr, res', hstep, rfl, rfl⟩ := hret
    exact ⟨List.mem_of_getElem? hr, readStep_returned b (Sum.getRight?_eq_some_iff.mp hstep) hres⟩
  | _ => cases hret

/-- **Validated reads return the log**, as long as no prime leaves bytes of a
    later lap beyond the extent that it sets. -/
theorem validated_read_exact (b : LogBuffer) (sts : List RingStep) (st : RingStep)
    (h : Runs b (Safe b) fresh (sts ++ [st])) (r : RingRead) (res : ReadResult)
    (hret : returns b (run b fresh sts) st = some (r, res)) (hres : res ≠ .overrun) :
    Exact (run b fresh sts) r := by
  have hinv := inv_run (Trace.admits_append.mp h).1
  obtain ⟨hr, a, ha, hlap⟩ := returns_reloaded hret hres
  obtain ⟨-, hcop, hrel⟩ := hinv.reads r hr
  intro i e hi
  refine (hcop i e hi).exact fun q hq => ?_
  have hlt := hrel a ha e (List.mem_of_getElem? hi) q hq
  omega

/-- A frame as a follower receives it. -/
def image (f : LogFrame) : Bytes := Bytes.le 4 f.total ++ f.headerExceptLength ++ f.body

def smallest : LogBuffer := ⟨256, 0, ⟨8, rfl⟩, by decide, by decide⟩

/-- Four frames, recorded; `ahead` of term 2 arrives out of order; the log is cut
    back to 96, and the frame at 64 is read up to its re-check. -/
def cutBack (ahead : List RingStep) : List RingStep :=
  [.writeRun 0 (List.replicate 4 (image ⟨7, 0, 1, 0, 0, 0, []⟩)).flatten] ++
    List.replicate 128 .storeByte ++ [.publishRun 128, .recorded 128] ++ ahead ++
    [.prime 96, .primeReserve, .primeAppend, .readFrame 64] ++ List.replicate 36 (.access 0)

theorem validated_read_exact_cutBack :
    Runs smallest (Safe smallest) fresh (cutBack [] ++ [.access 0]) ∧
      ∃ r, returns smallest (run smallest fresh (cutBack [])) (.access 0) = some (r, .frame) ∧
        Exact (run smallest fresh (cutBack [])) r := by
  have hrun : Runs smallest (Safe smallest) fresh (cutBack [] ++ [.access 0]) ∧
      (returns smallest (run smallest fresh (cutBack [])) (.access 0)).map Prod.snd =
        some .frame := by decide +kernel
  obtain ⟨⟨r, res⟩, hret, hres⟩ := Option.map_eq_some_iff.mp hrun.2
  obtain rfl : res = .frame := hres
  exact ⟨hrun.1, r, hret, validated_read_exact smallest _ _ hrun.1 r _ hret (by decide)⟩

/-- A prime discards the frame that lies a lap ahead at 320, but not its bytes:
    the read at 64 returns them. -/
theorem read_of_discarded_lap :
    ¬ ∀ (b : LogBuffer) (sts : List RingStep) (st : RingStep),
      Runs b (fun _ _ => True) fresh (sts ++ [st]) → ∀ r res,
        returns b (run b fresh sts) st = some (r, res) → res ≠ .overrun →
          Exact (run b fresh sts) r := by
  intro hall
  have hrun : Runs smallest (fun _ _ => True) fresh
        (cutBack (.writeRun 320 (image ⟨7, 0, 2, 0, 0, 0, []⟩) :: List.replicate 32 .storeByte) ++
          [.access 0]) ∧
      (returns smallest (run smallest fresh
        (cutBack (.writeRun 320 (image ⟨7, 0, 2, 0, 0, 0, []⟩) :: List.replicate 32 .storeByte)))
          (.access 0)).map (fun x => (x.1.pos, (x.1.out[0]?).map Prod.snd, x.2)) =
        some (64, some (some 320), .frame) := by decide +kernel
  obtain ⟨⟨r, res⟩, hret, hres⟩ := Option.map_eq_some_iff.mp hrun.2
  obtain ⟨hpos, hout, rfl⟩ : r.pos = 64 ∧ (r.out[0]?).map Prod.snd = some (some 320) ∧
    res = .frame := by simpa using hres
  obtain ⟨e, he, htag⟩ := Option.map_eq_some_iff.mp hout
  have hle := (hall smallest _ _ hrun.1 r _ hret (by decide) 0 e he).1 320 htag
  omega

end LogRing

end UltimaCluster
