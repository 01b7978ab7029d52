/-
  The ring of one producer and one consumer (`uc_protocol/src/ring/spsc.rs`), by
  its positions, and when a write to it goes through.

  A call is one step: the consumer reads only what is published, and the producer
  only goes by how far the consumer has come.  What lies between the two is kept
  as entries; the bytes, the park and the wake are left out.  A record is not of
  the type of a padding.
-/
import UltimaCluster.BroadcastReads

namespace UltimaCluster

/-- The least size of a record: its header and its trailer. -/
def leastRecord : ℕ := recordHeaderLen + recordTrailerLen

/-- The sizes with which a ring that its consumer has emptied takes every record:
    there is none, or the largest takes at most half of the ring; or every record
    takes three quarters of it, and comes right at its start. -/
def RingShape.Fits (shape : RingShape) : Prop :=
  shape.maxMsgSize < leastRecord ∨ 2 * alignRecordSize shape.maxMsgSize ≤ shape.capacity ∨
    shape.capacity = 32 ∧ alignRecordSize shape.maxMsgSize = 24

instance (shape : RingShape) : Decidable shape.Fits := inferInstanceAs (Decidable (_ ∨ _))

/-- What a write at a position takes: a record that does not fit before the end of
    the buffer comes after a padding. -/
def RingShape.needed (shape : RingShape) (pos : ℕ) (r : RingRecord) : ℕ :=
  let bytesToTail := shape.capacity - pos % shape.capacity
  if bytesToTail < alignRecordSize r.total then bytesToTail + alignRecordSize r.total
  else alignRecordSize r.total

/-! ## Sizes -/

theorem alignRecordSize_mono {m n : ℕ} (h : m ≤ n) : alignRecordSize m ≤ alignRecordSize n := by
  unfold alignRecordSize recordAlign
  omega

/-- A record of any size that is not too small. -/
def blankRecord (total : ℕ) : RingRecord := ⟨0, 0, List.replicate 8 0, List.replicate (total - leastRecord) 0⟩

theorem total_blankRecord {total : ℕ} (h : leastRecord ≤ total) : (blankRecord total).total = total := by
  unfold RingRecord.total blankRecord
  rw [List.length_replicate]
  unfold leastRecord recordHeaderLen recordTrailerLen at *
  omega

theorem blankRecord_type {total : ℕ} : (blankRecord total).msgType.toNat ≠ paddingMsgType := by
  show (0 : UInt16).toNat ≠ paddingMsgType
  decide

theorem RingRecord.leastRecord_le (r : RingRecord) : leastRecord ≤ r.total := by
  unfold leastRecord RingRecord.total
  omega

namespace RingShape

variable {shape : RingShape} {r : RingRecord} {pos : ℕ}

/-- The sizes for which every record is of three quarters of the ring. -/
def Tight (shape : RingShape) : Prop := shape.capacity = 32 ∧ alignRecordSize shape.maxMsgSize = 24

/-- In such a ring the positions are the start of a record or of the padding behind
    it. -/
def Sits (shape : RingShape) (pos : ℕ) : Prop := shape.Tight → pos % 32 = 0 ∨ pos % 32 = 24

theorem Tight.advance (h : shape.Tight) (hr : r.total ≤ shape.maxMsgSize) :
    alignRecordSize r.total = 24 := by
  have hle := alignRecordSize_mono hr
  have hleast := r.leastRecord_le
  rw [h.2] at hle
  unfold leastRecord recordHeaderLen recordTrailerLen at hleast
  unfold alignRecordSize recordAlign at *
  omega

theorem Sits.next (h : shape.Sits pos) (hr : r.total ≤ shape.maxMsgSize) :
    shape.Sits (pos + if shape.capacity - pos % shape.capacity < alignRecordSize r.total then
      shape.capacity - pos % shape.capacity else alignRecordSize r.total) := by
  intro ht
  rw [ht.1, ht.advance hr]
  rcases h ht with hp | hp
  · rw [if_neg (by omega)]
    omega
  · rw [if_pos (by omega)]
    omega

theorem Fits.needed_le (h : shape.Fits) (hr : r.total ≤ shape.maxMsgSize) (hpos : shape.Sits pos) :
    shape.needed pos r ≤ shape.capacity := by
  have hle := alignRecordSize_mono hr
  have hleast := r.leastRecord_le
  unfold needed
  rcases h with h | h | h
  · omega
  · dsimp only
    split
    · omega
    · omega
  · have hadv : alignRecordSize r.total = 24 := Tight.advance h hr
    rw [h.1, hadv]
    rcases hpos h with hp | hp
    · rw [hp]
      decide
    · rw [hp]
      decide

theorem mod_after_padding {t : ℕ} (ht : t = shape.capacity - pos % shape.capacity) :
    (pos + t) % shape.capacity = 0 := by
  have hmod := Nat.mod_lt pos shape.capacity_pos
  have hsum : pos + t = shape.capacity * (pos / shape.capacity + 1) := by
    have := Nat.div_add_mod pos shape.capacity
    rw [Nat.mul_add, Nat.mul_one]
    omega
  rw [hsum, Nat.mul_mod_right]

theorem needed_after_padding {t : ℕ} (ht : t = shape.capacity - pos % shape.capacity)
    (hlt : t < alignRecordSize r.total) (hle : shape.needed pos r ≤ shape.capacity) :
    (pos + t) % shape.capacity = 0 ∧ shape.needed (pos + t) r = alignRecordSize r.total ∧
      t + alignRecordSize r.total ≤ shape.capacity := by
  have hzero := mod_after_padding ht
  have hsum : t + alignRecordSize r.total ≤ shape.capacity := by
    unfold needed at hle
    dsimp only at hle
    rw [← ht, if_pos hlt] at hle
    exact hle
  refine ⟨hzero, ?_, hsum⟩
  unfold needed
  rw [hzero, Nat.sub_zero, if_neg (by omega)]

/-- Sizes that do not fit: the largest record is larger than the ring, or there is a
    record that leads to where the largest does not fit on either side. -/
theorem not_fits (h : ¬ shape.Fits) : leastRecord ≤ shape.maxMsgSize ∧
    (shape.capacity < alignRecordSize shape.maxMsgSize ∨
      alignRecordSize shape.maxMsgSize ≤ shape.capacity ∧ 32 ≤ alignRecordSize shape.maxMsgSize ∧
        shape.capacity + 8 < 2 * alignRecordSize shape.maxMsgSize) := by
  unfold Fits at h
  push Not at h
  obtain ⟨hleast, hhalf, htight⟩ := h
  refine ⟨hleast, ?_⟩
  rcases Nat.lt_or_ge shape.capacity (alignRecordSize shape.maxMsgSize) with hlt | hle
  · exact .inl hlt
  · obtain ⟨k, hk⟩ := shape.powerOfTwo
    obtain ⟨a, ha⟩ := alignRecordSize_dvd shape.maxMsgSize
    have h24 : 24 ≤ alignRecordSize shape.maxMsgSize := by
      unfold leastRecord recordHeaderLen recordTrailerLen at hleast
      unfold alignRecordSize recordAlign
      omega
    have hk5 : 5 ≤ k := by
      by_contra hlt
      have : 2 ^ k ≤ 2 ^ 4 := Nat.pow_le_pow_right (by decide) (by omega)
      omega
    obtain ⟨j, rfl⟩ : ∃ j, k = 5 + j := ⟨k - 5, by omega⟩
    have hcap : shape.capacity = 32 * 2 ^ j := by rw [hk, Nat.pow_add]
    unfold recordAlign at ha
    refine .inr ⟨hle, ?_, ?_⟩
    · by_contra hlt
      have h24' : alignRecordSize shape.maxMsgSize = 24 := by omega
      refine htight ?_ h24'
      omega
    · omega

end RingShape

/-- The ring, as its sides see it. -/
structure SpscRing where
  publishPosition : ℕ
  consumerPosition : ℕ
  /-- `cached_consumer_pos` of the producer. -/
  cachedConsumerPos : ℕ
  /-- What is published and not read. -/
  unread : List RingEntry
deriving DecidableEq

/-- What `try_write` answers. -/
inductive SpscAnswer where
  | ok
  | full
  | tooLarge
deriving DecidableEq

/-- A call of either side. -/
inductive SpscStep where
  | tryWrite (r : RingRecord)
  | tryRead
  | discardBacklog
  /-- Another process opens the ring for the producer. -/
  | open_
deriving DecidableEq

namespace SpscRing

variable (shape : RingShape)

def create : SpscRing := ⟨0, 0, 0, []⟩

def free (s : SpscRing) : ℕ := shape.capacity - (s.publishPosition - s.cachedConsumerPos)

/-- The consumer's position is loaded when the cached one leaves no room. -/
def load (s : SpscRing) (needed : ℕ) : SpscRing :=
  if s.free shape < needed then { s with cachedConsumerPos := s.consumerPosition } else s

/-- The padding up to the end of the buffer. -/
def pad (s : SpscRing) : SpscRing :=
  let bytesToTail := shape.capacity - s.publishPosition % shape.capacity
  { s with
    publishPosition := s.publishPosition + bytesToTail
    unread := s.unread ++ [.padding bytesToTail] }

def publish (s : SpscRing) (r : RingRecord) : SpscRing :=
  { s with
    publishPosition := s.publishPosition + alignRecordSize r.total
    unread := s.unread ++ [.record r] }

/-- `try_write`, of so many calls of itself at most. -/
def tryWrite : ℕ → SpscRing → RingRecord → Option (SpscAnswer × SpscRing)
  | 0, _, _ => none
  | calls + 1, s, r =>
    if shape.maxMsgSize < r.total then some (.tooLarge, s)
    else
      let bytesToTail := shape.capacity - s.publishPosition % shape.capacity
      let needed := shape.needed s.publishPosition r
      let s := s.load shape needed
      if s.free shape < needed then some (.full, s)
      else if bytesToTail < alignRecordSize r.total then tryWrite calls (s.pad shape) r
      else some (.ok, s.publish r)

/-- `try_read`: a padding is passed over. -/
def readFrom : ℕ → List RingEntry → Option RingRecord × ℕ × List RingEntry
  | pos, [] => (none, pos, [])
  | pos, .padding len :: es => readFrom (pos + len) es
  | pos, .record r :: es => (some r, pos + alignRecordSize r.total, es)

/-- One call of either side. -/
def exec (s : SpscRing) : SpscStep → SpscRing
  | .tryWrite r =>
    match tryWrite shape 2 s r with
    | some (_, s) => s
    | none => s
  | .tryRead =>
    let (_, pos, es) := readFrom s.consumerPosition s.unread
    { s with consumerPosition := pos, unread := es }
  | .discardBacklog => { s with consumerPosition := s.publishPosition, unread := [] }
  | .open_ => { s with cachedConsumerPos := 0 }

def run (s : SpscRing) (steps : List SpscStep) : SpscRing := steps.foldl (exec shape) s

/-- The call ends, and the record is published. -/
def Succeeds (s : SpscRing) (r : RingRecord) : Prop :=
  ∃ calls s', tryWrite shape calls s r = some (.ok, s')

/-- Whatever happened before: when the consumer has read everything, a write goes
    through. -/
def Progress : Prop :=
  ∀ steps, (run shape create steps).consumerPosition = (run shape create steps).publishPosition →
    ∀ r : RingRecord, r.total ≤ shape.maxMsgSize → (run shape create steps).Succeeds shape r

variable {shape} {s : SpscRing} {r : RingRecord}

/-! ## Progress -/

theorem load_publishPosition (s : SpscRing) (n : ℕ) :
    (s.load shape n).publishPosition = s.publishPosition := by
  unfold load
  split <;> rfl

theorem free_load (hread : s.consumerPosition = s.publishPosition) {n : ℕ} (hn : n ≤ shape.capacity) :
    n ≤ (s.load shape n).free shape := by
  unfold load
  split
  · unfold free
    dsimp only
    omega
  · omega

theorem tryWrite_record (calls : ℕ) (hr : r.total ≤ shape.maxMsgSize)
    (hroom : shape.needed s.publishPosition r ≤ (s.load shape (shape.needed s.publishPosition r)).free shape)
    (hfits : alignRecordSize r.total ≤ shape.capacity - s.publishPosition % shape.capacity) :
    tryWrite shape (calls + 1) s r =
      some (.ok, (s.load shape (shape.needed s.publishPosition r)).publish r) := by
  rw [tryWrite, if_neg (by omega)]
  rw [if_neg (by omega), if_neg (by omega)]

theorem tryWrite_pad (calls : ℕ) (hr : r.total ≤ shape.maxMsgSize)
    (hroom : shape.needed s.publishPosition r ≤ (s.load shape (shape.needed s.publishPosition r)).free shape)
    (hlt : shape.capacity - s.publishPosition % shape.capacity < alignRecordSize r.total) :
    tryWrite shape (calls + 1) s r =
      tryWrite shape calls ((s.load shape (shape.needed s.publishPosition r)).pad shape) r := by
  rw [tryWrite, if_neg (by omega)]
  rw [if_neg (by omega), if_pos hlt]

theorem tryWrite_full (calls : ℕ) (hr : r.total ≤ shape.maxMsgSize)
    (hlt : shape.capacity < shape.needed s.publishPosition r) :
    tryWrite shape (calls + 1) s r =
      some (.full, s.load shape (shape.needed s.publishPosition r)) := by
  rw [tryWrite, if_neg (by omega)]
  rw [if_pos]
  unfold free
  omega

theorem succeeds_of_needed (hread : s.consumerPosition = s.publishPosition)
    (hr : r.total ≤ shape.maxMsgSize) (hle : shape.needed s.publishPosition r ≤ shape.capacity) :
    s.Succeeds shape r := by
  have hroom := free_load hread hle
  by_cases hlt : shape.capacity - s.publishPosition % shape.capacity < alignRecordSize r.total
  · obtain ⟨hzero, hneeded, hsum⟩ := RingShape.needed_after_padding rfl hlt hle
    obtain ⟨s₁, hs₁⟩ : ∃ s₁, s₁ = s.load shape (shape.needed s.publishPosition r) := ⟨_, rfl⟩
    have hpub : s₁.publishPosition = s.publishPosition := hs₁ ▸ load_publishPosition s _
    have hpad : (s₁.pad shape).publishPosition = s.publishPosition +
        (shape.capacity - s.publishPosition % shape.capacity) := by
      rw [← hpub]
      rfl
    have hneed : shape.needed s.publishPosition r =
        shape.capacity - s.publishPosition % shape.capacity + alignRecordSize r.total := by
      unfold RingShape.needed
      rw [if_pos hlt]
    -- what was free for both leaves room for the record
    have hroom₁ : alignRecordSize r.total ≤ (s₁.pad shape).free shape := by
      rw [← hs₁, hneed] at hroom
      unfold free at hroom ⊢
      rw [hpad]
      rw [hpub] at hroom
      show _ ≤ shape.capacity - (_ - s₁.cachedConsumerPos)
      omega
    refine ⟨2, ((s₁.pad shape).load shape (shape.needed (s₁.pad shape).publishPosition r)).publish r,
      (tryWrite_pad 1 hr hroom hlt).trans ?_⟩
    rw [← hs₁]
    refine tryWrite_record 0 hr ?_ ?_
    · rw [hpad, hneeded]
      unfold load
      rw [if_neg (by omega)]
      exact hroom₁
    · rw [hpad, hzero]
      omega
  · exact ⟨1, _, tryWrite_record 0 hr hroom (by omega)⟩

/-! ## Positions -/

theorem sits_tryWrite {calls : ℕ} (h : shape.Sits s.publishPosition) {a : SpscAnswer} {s' : SpscRing}
    (hw : tryWrite shape calls s r = some (a, s')) : shape.Sits s'.publishPosition := by
  induction calls generalizing s with
  | zero => cases hw
  | succ calls ih =>
    rw [tryWrite] at hw
    by_cases hr : shape.maxMsgSize < r.total
    · rw [if_pos hr] at hw
      cases hw
      exact h
    · rw [if_neg hr] at hw
      have hnext := h.next (Nat.not_lt.mp hr)
      dsimp only at hw
      split at hw
      · cases hw
        rwa [load_publishPosition]
      · split at hw
        · rename_i hlt
          rw [if_pos hlt] at hnext
          refine ih ?_ hw
          show shape.Sits (_ + _)
          rw [load_publishPosition]
          exact hnext
        · rename_i hlt
          rw [if_neg hlt] at hnext
          cases hw
          show shape.Sits (_ + _)
          rw [load_publishPosition]
          exact hnext

theorem sits_run (steps : List SpscStep) : shape.Sits (run shape create steps).publishPosition := by
  induction steps using List.reverseRecOn with
  | nil => exact fun _ => .inl rfl
  | append_singleton steps step ih =>
    rw [run, List.foldl_append]
    show shape.Sits (exec shape (run shape create steps) step).publishPosition
    cases step with
    | tryWrite r =>
      unfold exec
      dsimp only
      split
      · rename_i hw
        exact sits_tryWrite ih hw
      · exact ih
    | tryRead | discardBacklog | open_ => exact ih

theorem progress_of_fits (h : shape.Fits) : Progress shape :=
  fun steps hread _ hr => succeeds_of_needed hread hr (h.needed_le hr (sits_run steps))

theorem wrote_and_read_first (hr : r.total ≤ shape.maxMsgSize)
    (hle : alignRecordSize r.total ≤ shape.capacity) :
    (run shape create [.tryWrite r, .tryRead]).publishPosition = alignRecordSize r.total ∧
      (run shape create [.tryWrite r, .tryRead]).consumerPosition = alignRecordSize r.total := by
  have hneed : shape.needed create.publishPosition r = alignRecordSize r.total := by
    unfold RingShape.needed
    dsimp only [create]
    rw [Nat.zero_mod, Nat.sub_zero, if_neg (by omega)]
  have hload : (create : SpscRing).load shape (shape.needed create.publishPosition r) = create := by
    unfold load free
    rw [hneed, if_neg (by dsimp only [create]; omega)]
  have hwrite : exec shape create (.tryWrite r) = create.publish r := by
    have hw := tryWrite_record (s := create) 1 hr
      (by rw [hload, hneed]; unfold free; dsimp only [create]; omega)
      (by dsimp only [create]; rw [Nat.zero_mod]; omega)
    unfold exec
    dsimp only
    rw [hw, hload]
  have hrun : run shape create [.tryWrite r, .tryRead] = exec shape (create.publish r) .tryRead := by
    rw [← hwrite]
    rfl
  rw [hrun]
  constructor
  · exact Nat.zero_add _
  · exact Nat.zero_add _

theorem fits_of_progress (h : Progress shape) : shape.Fits := by
  by_contra hfits
  obtain ⟨hleast, hsize⟩ := RingShape.not_fits hfits
  have htotal := total_blankRecord hleast
  -- in neither case does the largest record go through
  have hfull : ∀ steps, (run shape create steps).consumerPosition = (run shape create steps).publishPosition →
      shape.needed (run shape create steps).publishPosition (blankRecord shape.maxMsgSize) ≤
        shape.capacity := by
    intro steps hread
    by_contra hlt
    obtain ⟨calls, s', hw⟩ := h steps hread (blankRecord shape.maxMsgSize) htotal.le
    cases calls with
    | zero => cases hw
    | succ calls =>
      rw [tryWrite_full calls htotal.le (by omega)] at hw
      cases hw
  rcases hsize with hlt | ⟨hle, h32, hhalf⟩
  · have hneed := hfull [] rfl
    unfold RingShape.needed at hneed
    rw [htotal] at hneed
    dsimp only at hneed
    split at hneed <;> omega
  · obtain ⟨A, hA⟩ : ∃ A, A = alignRecordSize shape.maxMsgSize := ⟨_, rfl⟩
    rw [← hA] at hle h32 hhalf
    have hsmall : (blankRecord (A - 8)).total = A - 8 := by
      refine total_blankRecord ?_
      unfold leastRecord recordHeaderLen recordTrailerLen
      omega
    have hAdvd : alignRecordSize (A - 8) = A - 8 := by
      rw [hA]
      unfold alignRecordSize recordAlign
      omega
    have hmax : A - 8 ≤ shape.maxMsgSize := by
      rw [hA]
      unfold alignRecordSize recordAlign
      omega
    obtain ⟨hpos, hread⟩ := wrote_and_read_first (hsmall.trans_le hmax) (by rw [hsmall, hAdvd]; omega)
    have hneed := hfull _ (hread.trans hpos.symm)
    rw [hpos, hsmall, hAdvd] at hneed
    unfold RingShape.needed at hneed
    dsimp only at hneed
    rw [htotal, ← hA, Nat.mod_eq_of_lt (show A - 8 < shape.capacity by omega), if_pos (by omega)]
      at hneed
    omega

/-- A write to a ring that was read empty succeeds at every position that the ring
    can be at, if and only if the sizes fit. -/
theorem progress_iff : Progress shape ↔ shape.Fits := ⟨fits_of_progress, progress_of_fits⟩

end SpscRing

end UltimaCluster
