/-
  A value in a file of two slots that are written in turn
  (`uc_journal/src/stable_value.rs`).

  A slot of the file is kept by its words and its payload; `crc` stands for
  `crc32fast::hash` over what is before the sum and is any function.  Generations
  are not bounded.  `encode` and `decode` stand for `bincode`.  The header is written
  once, before the first call, and is left out but for the slot size.  A crash or a
  failed write leaves in the slot being written what was there, what was to be
  there, or something whose sum is wrong.
-/
import UltimaCluster.Lib.Trace
import UltimaCluster.Lib.Crc32

namespace UltimaCluster

/-- Why a value is refused. -/
inductive StableValueError where
  | corrupted (reason : String)
  | payloadTooLarge (limit got : ℕ)
  | serialize (reason : String)
deriving DecidableEq

/-- A decoded slot. -/
structure SvSlot where
  gen : ℕ
  /-- 0 is absent, 1 is present. -/
  state : UInt8
  bytes : Bytes
deriving DecidableEq

/-- A slot as it lies in the file: the payload is filled up with zeros. -/
structure SlotImage where
  gen : ℕ
  state : UInt8
  len : ℕ
  body : Bytes
  sum : UInt32
deriving DecidableEq

/-! ## Slots -/

namespace StableValue

variable (crc : ℕ → UInt8 → ℕ → Bytes → UInt32)

/-- The words of a slot. -/
def encodeSlot (s : SvSlot) (slotSize : ℕ) : Except StableValueError SlotImage :=
  if slotSize < 8 + 1 + 4 + s.bytes.length + 4 then
    .error (.payloadTooLarge (slotSize - 17) (s.bytes.length % 2 ^ 32))
  else
    let body := s.bytes ++ List.replicate (slotSize - 17 - s.bytes.length) 0
    .ok ⟨s.gen, s.state, s.bytes.length, body, crc s.gen s.state s.bytes.length body⟩

/-- A slot whose sum is right. -/
def decodeSlot (b : SlotImage) : Option SvSlot :=
  if b.sum ≠ crc b.gen b.state b.len b.body then none
  else if b.body.length < b.len then none
  else some ⟨b.gen, b.state, b.body.take b.len⟩

variable {crc}

theorem encodeSlot_ok {s : SvSlot} {slotSize : ℕ} {b : SlotImage}
    (h : encodeSlot crc s slotSize = .ok b) : decodeSlot crc b = some s := by
  unfold encodeSlot at h
  split at h
  · cases h
  · cases h
    unfold decodeSlot
    dsimp only
    rw [if_neg (not_not.mpr rfl), if_neg (by rw [List.length_append]; omega), List.take_left']
    rfl

end StableValue

variable {α : Type}

/-- The winner of two slots: its value, the next generation, and the other slot. -/
def pickSlot (decode : Bytes → Except String α) (s0 s1 : Option SvSlot) :
    Except StableValueError (Option α × ℕ × Bool) :=
  let pick : Option (SvSlot × Bool) :=
    match s0, s1 with
    | none, none => none
    | some a, none => some (a, false)
    | none, some b => some (b, true)
    | some a, some b => if b.gen ≤ a.gen then some (a, false) else some (b, true)
  match pick with
  | none => .error (.corrupted "both slots invalid")
  | some (winner, slotIdx) =>
    if winner.state = 0 then .ok (none, winner.gen + 1, !slotIdx)
    else
      match decode winner.bytes with
      | .error e => .error (.corrupted e)
      | .ok v => .ok (some v, winner.gen + 1, !slotIdx)

/-! ## The value -/

/-- What the open file's process knows. -/
structure StableInner (α : Type) where
  nextGen : ℕ
  /-- The second slot. -/
  nextSlot : Bool
  cached : Option α
deriving DecidableEq

/-- A call that writes. -/
inductive StableCall (α : Type) where
  | store (value : α)
  | clear
deriving DecidableEq

/-- What a call leaves when it returns. -/
def StableCall.value : StableCall α → Option α
  | .store v => some v
  | .clear => none

/-- The file and its process. -/
structure StableValue (α : Type) where
  slotSize : ℕ
  slot : Bool → SlotImage
  /-- `none` while no process has the file open. -/
  inner : Option (StableInner α)
  /-- What the last call that returned left, or the last `open` found. -/
  value : Option α
  /-- What the calls since then were for that returned an error of the file. -/
  failed : List (Option α)
  /-- What the call that the crash came in was for. -/
  inFlight : Option (Option α)

/-- A call, a failure or a crash. -/
inductive StableStep (α : Type) where
  | call (c : StableCall α)
  /-- The write or the sync fails, and the slot is left so. -/
  | fail (c : StableCall α) (left : SlotImage)
  /-- Between calls; or the file is closed. -/
  | crash
  /-- In a call, and the slot is left so. -/
  | crashIn (c : StableCall α) (left : SlotImage)
  | open_
deriving DecidableEq

namespace StableValue

variable (crc : ℕ → UInt8 → ℕ → Bytes → UInt32)
variable (encode : α → Except String Bytes) (decode : Bytes → Except String α)

/-- What a call writes, if it gets so far. -/
def imageOf (slotSize gen : ℕ) : StableCall α → Except StableValueError SlotImage
  | .store v =>
    match encode v with
    | .error e => .error (.serialize e)
    | .ok bytes =>
      if slotSize - 17 < bytes.length % 2 ^ 32 then
        .error (.payloadTooLarge (slotSize - 17) (bytes.length % 2 ^ 32))
      else encodeSlot crc ⟨gen, 1, bytes⟩ slotSize
  | .clear => encodeSlot crc ⟨gen, 0, []⟩ slotSize

/-- The file of a first `open`, with two empty slots. -/
def create (maxPayloadBytes : ℕ) : StableValue α :=
  let body := List.replicate maxPayloadBytes 0
  { slotSize := maxPayloadBytes + 17
    slot := fun _ => ⟨0, 0, 0, body, crc 0 0 0 body⟩
    inner := some ⟨1, true, none⟩
    value := none
    failed := []
    inFlight := none }

/-- `open` of a file that exists. -/
def reopen (s : StableValue α) : Except StableValueError (Option α × ℕ × Bool) :=
  pickSlot decode (decodeSlot crc (s.slot false)) (decodeSlot crc (s.slot true))

def writeSlot (s : StableValue α) (idx : Bool) (b : SlotImage) : StableValue α :=
  { s with slot := Function.update s.slot idx b }

/-- The slot that a call is for, and what it writes. -/
def writing (s : StableValue α) (c : StableCall α) : Option (StableInner α × SlotImage) :=
  match s.inner with
  | none => none
  | some i =>
    match imageOf crc encode s.slotSize i.nextGen c with
    | .error _ => none
    | .ok b => some (i, b)

/-- One step of the file. -/
def exec (s : StableValue α) : StableStep α → StableValue α
  | .call c =>
    match s.writing crc encode c with
    | none => s
    | some (i, b) =>
      { s.writeSlot i.nextSlot b with
        inner := some ⟨i.nextGen + 1, !i.nextSlot, c.value⟩
        value := c.value
        failed := []
        inFlight := none }
  | .fail c left =>
    match s.writing crc encode c with
    | none => s
    | some (i, _) => { s.writeSlot i.nextSlot left with failed := s.failed ++ [c.value] }
  | .crash => { s with inner := none }
  | .crashIn c left =>
    match s.writing crc encode c with
    | none => s
    | some (i, _) => { s.writeSlot i.nextSlot left with inner := none, inFlight := some c.value }
  | .open_ =>
    match s.reopen crc decode with
    | .error _ => s
    | .ok (v, nextGen, nextSlot) =>
      { s with inner := some ⟨nextGen, nextSlot, v⟩, value := v, failed := [], inFlight := none }

/-- A slot whose write did not come to its end. -/
def Torn (s : StableValue α) (c : StableCall α) (left : SlotImage) : Prop :=
  ∃ x ∈ s.writing crc encode c,
    left = s.slot x.1.nextSlot ∨ left = x.2 ∨ decodeSlot crc left = none

instance (s : StableValue α) (c : StableCall α) (left : SlotImage) : Decidable (s.Torn crc encode c left) :=
  inferInstanceAs (Decidable (∃ x ∈ s.writing crc encode c, _))

/-- What can happen next. -/
def Possible (s : StableValue α) : StableStep α → Prop
  | .call _ | .crash => s.inner.isSome = true
  | .fail c left | .crashIn c left => s.Torn crc encode c left
  | .open_ => s.inner = none

instance [DecidableEq α] (s : StableValue α) :
    (step : StableStep α) → Decidable (s.Possible crc encode step)
  | .call _ | .crash => inferInstanceAs (Decidable (_ = true))
  | .fail c left | .crashIn c left => inferInstanceAs (Decidable (s.Torn crc encode c left))
  | .open_ => inferInstanceAs (Decidable (s.inner = none))

def run (s : StableValue α) (steps : List (StableStep α)) : StableValue α :=
  steps.foldl (exec crc encode decode) s

/-! ## What a file opens with -/

/-- The value that a slot stands for. -/
def Reads (w : SvSlot) (v : Option α) : Prop :=
  if w.state = 0 then v = none else ∃ x, decode w.bytes = .ok x ∧ v = some x

variable {crc encode decode}

theorem reads_absent (gen : ℕ) (bytes : Bytes) : Reads decode ⟨gen, 0, bytes⟩ none := by
  unfold Reads
  rw [if_pos rfl]

/-- The newer of two slots wins, and the first of two that are equally old. -/
theorem pickSlot_winner {f : Bool → Option SvSlot} {k : Bool} {w : SvSlot} {v : Option α}
    (hw : f k = some w) (hother : ∀ o, f (!k) = some o → o.gen < w.gen ∨ o.gen = w.gen ∧ k = false)
    (hv : Reads decode w v) : pickSlot decode (f false) (f true) = .ok (v, w.gen + 1, !k) := by
  have hpick : (match f false, f true with
      | none, none => none
      | some a, none => some (a, false)
      | none, some b => some (b, true)
      | some a, some b => if b.gen ≤ a.gen then some (a, false) else some (b, true)) = some (w, k) := by
    cases k with
    | false =>
      rw [hw]
      cases ho : f true with
      | none => rfl
      | some o =>
        dsimp only
        rw [if_pos]
        rcases hother o ho with h | h
        · exact h.le
        · exact h.1.le
    | true =>
      rw [hw]
      cases ho : f false with
      | none => rfl
      | some o =>
        dsimp only
        rw [if_neg]
        rcases hother o ho with h | h
        · omega
        · cases h.2
  unfold pickSlot
  rw [hpick]
  dsimp only
  unfold Reads at hv
  split at hv
  · rename_i hstate
    rw [if_pos hstate, hv]
  · rename_i hstate
    obtain ⟨x, hx, rfl⟩ := hv
    rw [if_neg hstate, hx]

section Runs

variable {s : StableValue α} {c : StableCall α}

theorem imageOf_ok (hcodec : ∀ v bytes, encode v = .ok bytes → decode bytes = .ok v)
    {slotSize gen : ℕ} {b : SlotImage} (h : imageOf crc encode slotSize gen c = .ok b) :
    ∃ w, decodeSlot crc b = some w ∧ w.gen = gen ∧ Reads decode w c.value := by
  cases c with
  | store v =>
    unfold imageOf at h
    dsimp only at h
    split at h
    · cases h
    · rename_i bytes hbytes
      split at h
      · cases h
      · refine ⟨_, encodeSlot_ok h, rfl, ?_⟩
        unfold Reads
        rw [if_neg (by dsimp only; decide)]
        exact ⟨v, hcodec v bytes hbytes, rfl⟩
  | clear => exact ⟨_, encodeSlot_ok h, rfl, reads_absent gen []⟩

variable {i : StableInner α}

theorem writing_eq_some {b : SlotImage} (h : s.writing crc encode c = some (i, b)) :
    s.inner = some i ∧ imageOf crc encode s.slotSize i.nextGen c = .ok b := by
  unfold writing at h
  split at h
  · cases h
  · rename_i i' hi
    split at h
    · cases h
    · rename_i b' hb
      cases h
      exact ⟨hi, hb⟩

/-- What a call that did not return was for. -/
def Begun (s : StableValue α) (v : Option α) : Prop := s.inFlight = some v ∨ v ∈ s.failed

variable (crc decode) in
/-- One slot has the value; the other is older or torn, or was written last by a call
    that did not return.  An open file goes on with the other. -/
structure Keeps (s : StableValue α) (k : Bool) (w : SvSlot) : Prop where
  slot : decodeSlot crc (s.slot k) = some w
  reads : Reads decode w s.value
  other : ∀ o, decodeSlot crc (s.slot !k) = some o → (o.gen < w.gen ∨ o.gen = w.gen ∧ k = false) ∨
    o.gen = w.gen + 1 ∧ ∃ v, Reads decode o v ∧ s.Begun v
  inner : ∀ i, s.inner = some i →
    i.nextGen = w.gen + 1 ∧ i.nextSlot = !k ∧ i.cached = s.value ∧ s.inFlight = none

variable {k : Bool} {w : SvSlot}

theorem keeps_create (maxPayloadBytes : ℕ) :
    Keeps crc decode (create crc maxPayloadBytes : StableValue α) false ⟨0, 0, []⟩ where
  slot := by
    unfold decodeSlot create
    simp
  reads := reads_absent 0 []
  other := by
    intro o ho
    unfold decodeSlot create at ho
    simp at ho
    rw [← ho]
    exact .inl (.inr ⟨rfl, rfl⟩)
  inner := by
    rintro i ⟨⟩
    exact ⟨rfl, rfl, rfl, rfl⟩

theorem slot_writeSlot_self (idx : Bool) (b : SlotImage) : (s.writeSlot idx b).slot idx = b := by
  show Function.update s.slot idx b idx = b
  rw [Function.update_self]

theorem slot_writeSlot_not (idx : Bool) (b : SlotImage) : (s.writeSlot (!idx) b).slot idx = s.slot idx := by
  have hne : idx ≠ !idx := by cases idx <;> decide
  show Function.update s.slot (!idx) b idx = s.slot idx
  rw [Function.update_of_ne hne]

theorem Keeps.call (hcodec : ∀ v bytes, encode v = .ok bytes → decode bytes = .ok v)
    (h : Keeps crc decode s k w) {b : SlotImage} (hw : s.writing crc encode c = some (i, b)) :
    ∃ w', Keeps crc decode
      { s.writeSlot i.nextSlot b with
        inner := some ⟨i.nextGen + 1, !i.nextSlot, c.value⟩
        value := c.value
        failed := []
        inFlight := none } (!k) w' := by
  obtain ⟨hi, hb⟩ := writing_eq_some hw
  obtain ⟨hgen, hslot, -⟩ := h.inner i hi
  obtain ⟨w', hdecode, hgen', hreads⟩ := imageOf_ok hcodec hb
  rw [hslot]
  refine ⟨w', ?_, hreads, ?_, ?_⟩
  · rw [slot_writeSlot_self]
    exact hdecode
  · intro o ho
    rw [Bool.not_not, slot_writeSlot_not, h.slot] at ho
    cases ho
    exact .inl (.inl (by omega))
  · rintro j ⟨⟩
    exact ⟨by dsimp only; omega, by rw [Bool.not_not], rfl, rfl⟩

/-- A call that does not: what it leaves in the slot is none of its value's. -/
theorem Keeps.torn (hcodec : ∀ v bytes, encode v = .ok bytes → decode bytes = .ok v)
    (h : Keeps crc decode s k w) {b left : SlotImage} (hw : s.writing crc encode c = some (i, b))
    (hleft : left = s.slot i.nextSlot ∨ left = b ∨ decodeSlot crc left = none) {t : StableValue α}
    (hslot : t.slot = (s.writeSlot i.nextSlot left).slot) (hvalue : t.value = s.value)
    (hbegun : ∀ v, s.Begun v ∨ v = c.value → t.Begun v)
    (hinner : t.inner = none ∨ t.inner = s.inner ∧ t.inFlight = s.inFlight) :
    Keeps crc decode t k w := by
  obtain ⟨hi, hb⟩ := writing_eq_some hw
  obtain ⟨hgen, hnext, -⟩ := h.inner i hi
  rw [hnext] at hslot hleft
  refine ⟨?_, hvalue ▸ h.reads, ?_, ?_⟩
  · rw [hslot, slot_writeSlot_not]
    exact h.slot
  · intro o ho
    rw [hslot, slot_writeSlot_self] at ho
    rcases hleft with rfl | rfl | hnone
    · rcases h.other o ho with hold | ⟨hnew, v, hreads, hv⟩
      · exact .inl hold
      · exact .inr ⟨hnew, v, hreads, hbegun v (.inl hv)⟩
    · obtain ⟨w', hdecode, hgen', hreads⟩ := imageOf_ok hcodec hb
      rw [hdecode] at ho
      cases ho
      exact .inr ⟨hgen'.trans hgen, c.value, hreads, hbegun _ (.inr rfl)⟩
    · rw [hnone] at ho
      cases ho
  · intro j hj
    rw [hvalue]
    rcases hinner with hnone | ⟨hsame, hflight⟩
    · rw [hnone] at hj
      cases hj
    · rw [hflight]
      exact h.inner j (hsame ▸ hj)

theorem Keeps.reopen (h : Keeps crc decode s k w) :
    ∃ v k' w', s.reopen crc decode = .ok (v, w'.gen + 1, !k') ∧ (v = s.value ∨ s.Begun v) ∧
      Keeps crc decode
        { s with inner := some ⟨w'.gen + 1, !k', v⟩, value := v, failed := [], inFlight := none } k' w' := by
  have hinner : ∀ {v : Option α} {g : ℕ} {k' : Bool} (i : StableInner α),
      some ⟨g + 1, !k', v⟩ = some i → i.nextGen = g + 1 ∧ i.nextSlot = !k' ∧ i.cached = v ∧
        (none : Option (Option α)) = none := by
    rintro v g k' i ⟨⟩
    exact ⟨rfl, rfl, rfl, rfl⟩
  by_cases hnew : ∃ o, decodeSlot crc (s.slot !k) = some o ∧ o.gen = w.gen + 1 ∧
      ∃ v, Reads decode o v ∧ s.Begun v
  · obtain ⟨o, ho, hgen, v, hreads, hbegun⟩ := hnew
    have hopen : s.reopen crc decode = .ok (v, o.gen + 1, !(!k)) := by
      refine pickSlot_winner (f := fun k => decodeSlot crc (s.slot k)) ho (fun o' ho' => ?_) hreads
      rw [Bool.not_not, h.slot] at ho'
      cases ho'
      exact .inl (by omega)
    refine ⟨v, !k, o, hopen, .inr hbegun, ho, hreads, fun o' ho' => ?_, hinner⟩
    dsimp only at ho'
    rw [Bool.not_not, h.slot] at ho'
    cases ho'
    exact .inl (.inl (by omega))
  · have hold : ∀ o, decodeSlot crc (s.slot !k) = some o → o.gen < w.gen ∨ o.gen = w.gen ∧ k = false :=
      fun o ho => (h.other o ho).resolve_right fun hno => hnew ⟨o, ho, hno⟩
    exact ⟨s.value, k, w, pickSlot_winner (f := fun k => decodeSlot crc (s.slot k)) h.slot hold h.reads,
      .inl rfl, h.slot, h.reads, fun o ho => .inl (hold o ho), hinner⟩

theorem Keeps.exec (hcodec : ∀ v bytes, encode v = .ok bytes → decode bytes = .ok v)
    (h : Keeps crc decode s k w) {step : StableStep α} (hp : s.Possible crc encode step) :
    ∃ k' w', Keeps crc decode (StableValue.exec crc encode decode s step) k' w' := by
  cases step with
  | call c =>
    unfold StableValue.exec
    dsimp only
    split
    · exact ⟨k, w, h⟩
    · rename_i hw
      exact ⟨!k, h.call hcodec hw⟩
  | fail c left =>
    obtain ⟨⟨i, b⟩, hw, hp⟩ := hp
    unfold StableValue.exec
    dsimp only
    split
    · exact ⟨k, w, h⟩
    · rename_i i' b' hw'
      cases hw.symm.trans hw'
      refine ⟨k, w, h.torn hcodec hw hp rfl rfl ?_ (.inr ⟨rfl, rfl⟩)⟩
      rintro v ((hv | hv) | rfl)
      · exact .inl hv
      · exact .inr (List.mem_append_left _ hv)
      · exact .inr (List.mem_append_right _ List.mem_cons_self)
  | crash =>
    refine ⟨k, w, h.slot, h.reads, h.other, ?_⟩
    rintro i ⟨⟩
  | crashIn c left =>
    obtain ⟨⟨i, b⟩, hw, hp⟩ := hp
    unfold StableValue.exec
    dsimp only
    split
    · exact ⟨k, w, h⟩
    · rename_i i' b' hw'
      cases hw.symm.trans hw'
      refine ⟨k, w, h.torn hcodec hw hp rfl rfl ?_ (.inl rfl)⟩
      have hrest := (h.inner i (writing_eq_some hw).1).2.2.2
      rintro v ((hv | hv) | rfl)
      · rw [hrest] at hv
        cases hv
      · exact .inr hv
      · exact .inl rfl
  | open_ =>
    obtain ⟨v, k', w', hopen, -, hkeeps⟩ := h.reopen
    refine ⟨k', w', ?_⟩
    unfold StableValue.exec
    rw [hopen]
    exact hkeeps

theorem keeps_run (hcodec : ∀ v bytes, encode v = .ok bytes → decode bytes = .ok v) {maxPayloadBytes : ℕ}
    {steps : List (StableStep α)}
    (h : Trace.Admits (StableValue.exec crc encode decode) (Possible crc encode)
      (create crc maxPayloadBytes) steps) :
    ∃ k w, Keeps crc decode (run crc encode decode (create crc maxPayloadBytes) steps) k w := by
  refine Trace.Admits.rule
    (P := fun is => ∃ k w, Keeps crc decode (run crc encode decode (create crc maxPayloadBytes) is) k w)
    ⟨false, _, keeps_create maxPayloadBytes⟩ ?_ h
  rintro is step ⟨k, w, hk⟩ hp
  unfold run
  rw [List.foldl_append]
  exact hk.exec hcodec hp

theorem failed_run {steps : List (StableStep α)} (hnone : ∀ c left, .fail c left ∉ steps)
    (hs : s.failed = []) : (run crc encode decode s steps).failed = [] := by
  induction steps generalizing s with
  | nil => exact hs
  | cons step steps ih =>
    refine ih (fun c left hmem => hnone c left (List.mem_cons_of_mem step hmem)) ?_
    unfold StableValue.exec
    cases step with
    | call c =>
      dsimp only
      split
      · exact hs
      · rfl
    | fail c left => exact absurd List.mem_cons_self (hnone c left)
    | crash => exact hs
    | crashIn c left =>
      dsimp only
      split
      · exact hs
      · exact hs
    | open_ =>
      dsimp only
      split
      · exact hs
      · rfl

end Runs

/-- However often it was written, crashed on and opened: a file that is closed opens,
    with the value of the last call that returned or the one in flight at the crash;
    with that of a call that failed since only where one did.  While it is open, that
    is what `load` answers. -/
theorem crash_atomic (hcodec : ∀ v bytes, encode v = .ok bytes → decode bytes = .ok v)
    (maxPayloadBytes : ℕ) {steps : List (StableStep α)}
    (h : Trace.Admits (exec crc encode decode) (Possible crc encode) (create crc maxPayloadBytes) steps) :
    (∃ v nextGen nextSlot,
        (run crc encode decode (create crc maxPayloadBytes) steps).reopen crc decode =
            .ok (v, nextGen, nextSlot) ∧
          (v = (run crc encode decode (create crc maxPayloadBytes) steps).value ∨
            (run crc encode decode (create crc maxPayloadBytes) steps).inFlight = some v ∨
              v ∈ (run crc encode decode (create crc maxPayloadBytes) steps).failed)) ∧
      (∀ i, (run crc encode decode (create crc maxPayloadBytes) steps).inner = some i →
        i.cached = (run crc encode decode (create crc maxPayloadBytes) steps).value) ∧
      ((∀ c left, .fail c left ∉ steps) →
        (run crc encode decode (create crc maxPayloadBytes) steps).failed = []) := by
  obtain ⟨k, w, hk⟩ := keeps_run hcodec h
  obtain ⟨v, k', w', hopen, hv, -⟩ := hk.reopen
  exact ⟨⟨v, _, _, hopen, hv⟩, fun i hi => (hk.inner i hi).2.2.1, fun hnone => failed_run hnone rfl⟩

/-- The sum over the bytes of a slot. -/
def slotSum (gen : ℕ) (state : UInt8) (len : ℕ) (body : Bytes) : UInt32 :=
  Crc32.hash (Bytes.le 8 gen ++ [state] ++ Bytes.le 4 len ++ body)

/-- `bincode` of a byte. -/
def decodeByte : Bytes → Except String UInt8
  | [] => .error "UnexpectedEnd"
  | b :: _ => .ok b

/-- A store, one that a crash tears, and one that is crashed on when it is through. -/
def threeStores : List (StableStep UInt8) :=
  [.call (.store 7), .crashIn (.store 8) ⟨2, 1, 1, [8, 0], 0⟩, .open_,
    .crashIn (.store 9) ⟨2, 1, 1, [9, 0], slotSum 2 1 1 [9, 0]⟩]

theorem crash_atomic_third :
    (run slotSum (fun b => .ok [b]) decodeByte (create slotSum 2) threeStores).inner = none ∧
      (run slotSum (fun b => .ok [b]) decodeByte (create slotSum 2) threeStores).value = some 7 ∧
      ∃ v nextGen nextSlot,
        (run slotSum (fun b => .ok [b]) decodeByte (create slotSum 2) threeStores).reopen slotSum decodeByte =
            .ok (v, nextGen, nextSlot) ∧ (v = some 7 ∨ v = some 9) := by
  obtain ⟨⟨v, nextGen, nextSlot, hopen, hv⟩, -, hfailed⟩ :=
    @crash_atomic UInt8 slotSum (fun b => .ok [b]) decodeByte (by rintro v bytes ⟨⟩; rfl) 2 threeStores
      (by decide +kernel)
  have hvalue : (run slotSum (fun b => .ok [b]) decodeByte (create slotSum 2) threeStores).value = some 7 := by
    decide +kernel
  have hflight : (run slotSum (fun b => .ok [b]) decodeByte (create slotSum 2) threeStores).inFlight =
      some (some 9) := by decide +kernel
  have hnone : (run slotSum (fun b => .ok [b]) decodeByte (create slotSum 2) threeStores).failed = [] :=
    hfailed (by simp [threeStores])
  refine ⟨by decide +kernel, hvalue, v, nextGen, nextSlot, hopen, ?_⟩
  rw [hvalue, hflight, hnone] at hv
  rcases hv with hv | hv | hv
  · exact .inl hv
  · exact .inr (Option.some.inj hv).symm
  · cases hv

end StableValue

end UltimaCluster
