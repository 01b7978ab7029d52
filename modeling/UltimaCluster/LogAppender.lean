/-
  The leader's appenders on one buffer, call by call (`uc_log/src/buffer.rs`).

  Each is opened where the last one stopped.  A call is one step here: one thread
  writes, and what a reader sees of a call under way is the matter of `LogRing`.
  `laid` is what was written, with the positions it was written at; a padding is a
  frame without a body whose length reaches to the end of the buffer.  The buffer
  keeps what is not a lap old.
-/
import UltimaCluster.ServiceLog
import UltimaCluster.ClusterFsm
import UltimaCluster.RingReads

namespace UltimaCluster

open LogFrame (total)
open LogRing (padLen)

def frameTypeNewTerm : UInt8 := 3

/-- `NEW_TERM_BODY_LEN`. -/
def newTermBodyLen : ℕ := 8

def writeTimerBody (b : TimerBody) : Bytes :=
  Bytes.le 8 b.identityHash ++ Bytes.le 8 b.timerId ++ Bytes.le 8 b.deadlineNs

/-- A frame as it is laid out: its length is the commit word. -/
structure Laid where
  length : ℕ
  frame : LogFrame
deriving DecidableEq

namespace Laid

def span (e : Laid) : ℕ := alignFrameLen e.length

/-- What is stored: the length, the rest of the header and the body. -/
def image (e : Laid) : Bytes := Bytes.le 4 e.length ++ e.frame.headerExceptLength ++ e.frame.body

def isPadding (e : Laid) : Bool := e.frame.frameType == frameTypePadding

end Laid

/-- Why nothing was appended. -/
inductive AppendError where
  | payloadTooLarge
  | wouldOverrun
deriving DecidableEq

/-- The leader's appender. -/
structure LogAppender where
  pos : ℕ
  cachedDurable : ℕ
  leadershipTermId : ℕ
  nowNs : ℕ
  lastStamp : ℕ
deriving DecidableEq

/-- The ring and its counters. -/
structure AppendLog where
  cells : ℕ → UInt8
  append : ℕ
  durable : ℕ
  payloadCeiling : ℕ
  appender : Option LogAppender
  laid : List (ℕ × Laid)

/-- A call of the leader, or of the archive. -/
inductive AppendStep where
  | openAppender (leadershipTermId seedStamp : ℕ)
  | setNow (nowNs : ℕ)
  | setPayloadCeiling (v : ℕ)
  | append (clientId seq : ℕ) (payload : Bytes)
  | appendNewTerm
  | appendCluster (term : ℕ) (kind : ClusterKind) (payload : Bytes)
  | appendTimer (body : TimerBody) (flags : UInt8)
  | appendSnapshot (term : ℕ) (flags : UInt8)
  /-- The archive has recorded up to `durable`. -/
  | recorded (durable : ℕ)
deriving DecidableEq

/-- What a call returns. -/
inductive AppendAnswer where
  | unit
  | position (pos : ℕ)
  | stamped (pos stamp : ℕ)
deriving DecidableEq

namespace AppendLog

variable (b : LogBuffer)

/-- A buffer of zeros. -/
def fresh : AppendLog := ⟨fun _ => 0, 0, 0, b.maxPayload, none, []⟩

/-- The bytes of a frame at its place. -/
def lay (s : AppendLog) (pos : ℕ) (e : Laid) : AppendLog :=
  { s with
    cells := fun o =>
      if b.offset pos ≤ o ∧ o < b.offset pos + e.image.length then e.image.getD (o - b.offset pos) 0
      else s.cells o
    laid := s.laid ++ [(pos, e)] }

/-- `write_padding`. -/
def writePadding (s : AppendLog) (a : LogAppender) (padLen timeNs : ℕ) : AppendLog :=
  s.lay b a.pos ⟨padLen, ⟨frameTypePadding, 0, a.leadershipTermId, 0, 0, timeNs, []⟩⟩

/-- What the five appends share: the padding before the wrap, the gate, and the
    stamp, which is the time asked for unless an earlier one is later.  The answer
    is the frame's start, its end, and its stamp. -/
def appendFrame (s : AppendLog) (a : LogAppender) (time : ℕ) (f : LogFrame) :
    AppendLog × Except AppendError (ℕ × ℕ × ℕ) :=
  let pad := LogRing.padLen b a.pos f
  let finish := a.pos + pad + alignFrameLen f.total
  let a := if a.cachedDurable + b.capacity < finish then { a with cachedDurable := s.durable } else a
  if a.cachedDurable + b.capacity < finish then ({ s with appender := some a }, .error .wouldOverrun)
  else
    let timeNs := max time a.lastStamp
    let s := if 0 < pad then s.writePadding b a pad timeNs else s
    let s := s.lay b (a.pos + pad) ⟨f.total, { f with timeNs }⟩
    ({ s with append := finish, appender := some { a with pos := finish, lastStamp := timeNs } },
      .ok (a.pos + pad, finish, timeNs))

/-- A MESSAGE frame. -/
def appendMessage (s : AppendLog) (a : LogAppender) (clientId seq : ℕ) (payload : Bytes) :
    AppendLog × Except AppendError AppendAnswer :=
  if s.payloadCeiling < payload.length then (s, .error .payloadTooLarge)
  else
    let (s, res) := s.appendFrame b a a.nowNs
      ⟨frameTypeMessage, 0, a.leadershipTermId, clientId, seq, 0, payload⟩
    (s, res.map fun x => .position x.1)

/-- The first frame of a term. -/
def appendNewTerm (s : AppendLog) (a : LogAppender) : AppendLog × Except AppendError AppendAnswer :=
  let (s, res) := s.appendFrame b a a.nowNs
    ⟨frameTypeNewTerm, 0, a.leadershipTermId, 0, 0, 0, List.replicate newTermBodyLen 0⟩
  (s, res.map fun x => .position x.1)

/-- The answer is the frame's end. -/
def appendCluster (s : AppendLog) (a : LogAppender) (term : ℕ) (kind : ClusterKind) (payload : Bytes) :
    AppendLog × Except AppendError AppendAnswer :=
  if s.payloadCeiling < clusterBodyPrefixLen + payload.length then (s, .error .payloadTooLarge)
  else
    let (s, res) := s.appendFrame b a a.nowNs
      ⟨frameTypeCluster, 0, term, 0, 0, 0, writeClusterPrefix kind ++ payload⟩
    (s, res.map fun x => .position x.2.1)

/-- The stamp is the deadline. -/
def appendTimer (s : AppendLog) (a : LogAppender) (body : TimerBody) (flags : UInt8) :
    AppendLog × Except AppendError AppendAnswer :=
  let (s, res) := s.appendFrame b a body.deadlineNs
    ⟨frameTypeTimer, flags, a.leadershipTermId, 0, 0, 0, writeTimerBody body⟩
  (s, res.map fun x => .stamped x.1 x.2.2)

/-- A SNAPSHOT frame. -/
def appendSnapshot (s : AppendLog) (a : LogAppender) (term : ℕ) (flags : UInt8) :
    AppendLog × Except AppendError AppendAnswer :=
  let (s, res) := s.appendFrame b a a.nowNs ⟨frameTypeSnapshot, flags, term, 0, 0, 0, []⟩
  (s, res.map fun x => .stamped x.2.1 x.2.2)

/-- A call of the open appender. -/
def withAppender (s : AppendLog)
    (call : LogAppender → AppendLog × Except AppendError AppendAnswer) :
    AppendLog × Except AppendError AppendAnswer :=
  match s.appender with
  | none => (s, .ok .unit)
  | some a => call a

/-- One call, and its answer. -/
def perform (s : AppendLog) : AppendStep → AppendLog × Except AppendError AppendAnswer
  | .openAppender leadershipTermId seedStamp =>
    ({ s with appender := some ⟨s.append, s.durable, leadershipTermId, seedStamp, seedStamp⟩ },
      .ok .unit)
  | .setNow nowNs => ({ s with appender := s.appender.map fun a => { a with nowNs } }, .ok .unit)
  | .setPayloadCeiling v => ({ s with payloadCeiling := min v b.maxPayload }, .ok .unit)
  | .append clientId seq payload => s.withAppender fun a => s.appendMessage b a clientId seq payload
  | .appendNewTerm => s.withAppender fun a => s.appendNewTerm b a
  | .appendCluster term kind payload => s.withAppender fun a => s.appendCluster b a term kind payload
  | .appendTimer body flags => s.withAppender fun a => s.appendTimer b a body flags
  | .appendSnapshot term flags => s.withAppender fun a => s.appendSnapshot b a term flags
  | .recorded durable => ({ s with durable }, .ok .unit)

def exec (s : AppendLog) (step : AppendStep) : AppendLog := (s.perform b step).1

/-- The highest stamp on the log. -/
def highestStamp (s : AppendLog) : ℕ := (s.laid.map fun x => x.2.frame.timeNs).foldr max 0

/-- An appender is seeded with the highest stamp recorded, and the archive records
    what was appended. -/
def Possible (s : AppendLog) : AppendStep → Prop
  | .openAppender _ seedStamp => seedStamp = s.highestStamp
  | .recorded durable => s.durable ≤ durable ∧ durable ≤ s.append
  | _ => True

instance (s : AppendLog) : (step : AppendStep) → Decidable (s.Possible step)
  | .openAppender _ _ => inferInstanceAs (Decidable (_ = _))
  | .recorded _ => inferInstanceAs (Decidable (_ ∧ _))
  | .setNow _ | .setPayloadCeiling _ | .append _ _ _ | .appendNewTerm | .appendCluster _ _ _
  | .appendTimer _ _ | .appendSnapshot _ _ => .isTrue trivial

def run (s : AppendLog) (steps : List AppendStep) : AppendLog := steps.foldl (exec b) s

/-! ## The log that is laid out -/

/-- A whole frame in one lap: a padding that reaches to its end, or a frame with
    its body. -/
structure Whole (x : ℕ × Laid) : Prop where
  aligned : frameAlignment ∣ x.1
  lap : b.offset x.1 + x.2.span ≤ b.capacity
  kind : x.2.isPadding = true ∧ x.2.frame.body = [] ∧ headerLen ≤ x.2.length ∧
      b.offset x.1 + x.2.length = b.capacity ∨
    x.2.isPadding = false ∧ x.2.length = x.2.frame.total

/-- The log up to `p`. -/
structure Framed (s : AppendLog) (p : ℕ) : Prop where
  tiled : s.laid = Tiling.place Laid.span 0 (s.laid.map Prod.snd)
  width : p = Tiling.width Laid.span (s.laid.map Prod.snd)
  whole : ∀ x ∈ s.laid, Whole b x
  stamps : s.laid.Pairwise fun x y => x.2.frame.timeNs ≤ y.2.frame.timeNs
  kept : ∀ x ∈ s.laid, p ≤ x.1 + b.capacity →
    ∀ k v, x.2.image[k]? = some v → s.cells (b.offset x.1 + k) = v

end AppendLog

namespace Laid

theorem length_image (e : Laid) : e.image.length = e.frame.total := by
  unfold image total LogFrame.headerExceptLength headerLen
  simp only [List.length_append, Bytes.length_le, List.length_cons, List.length_nil]

end Laid

theorem dvd_alignFrameLen (n : ℕ) : frameAlignment ∣ alignFrameLen n := Nat.dvd_mul_left _ _

theorem LogBuffer.frameAlignment_dvd (b : LogBuffer) : frameAlignment ∣ b.capacity := by
  obtain ⟨k, hk⟩ := b.powerOfTwo
  have hroom := b.room
  have h32 : 32 ≤ alignFrameLen (headerLen + b.maxPayload) :=
    headerLen_le_alignFrameLen (by unfold headerLen; omega)
  have hk5 : 5 ≤ k := by
    by_contra hlt
    have : 2 ^ k ≤ 2 ^ 4 := Nat.pow_le_pow_right (by decide) (by omega)
    omega
  rw [hk]
  exact Nat.pow_dvd_pow 2 hk5

namespace AppendLog

variable {b : LogBuffer} {s : AppendLog} {p : ℕ}

variable {x : ℕ × Laid}

theorem Whole.length_image_le (h : Whole b x) : x.2.image.length ≤ x.2.span := by
  rw [Laid.length_image]
  have hle := le_alignFrameLen x.2.length
  rcases h.kind with ⟨-, hbody, hlen, -⟩ | ⟨-, hlen⟩
  · unfold total Laid.span
    rw [hbody]
    exact hlen.trans hle
  · rw [← hlen]
    exact hle

theorem Whole.span_pos (h : Whole b x) : 0 < x.2.span := by
  have hle := h.length_image_le
  rw [Laid.length_image] at hle
  unfold total headerLen at hle
  omega

theorem Framed.end_le (h : Framed b s p) (hx : x ∈ s.laid) : x.1 + x.2.span ≤ p := by
  rw [h.tiled] at hx
  have hle := Tiling.end_le_of_mem_place hx
  rw [Nat.zero_add, ← h.width] at hle
  exact hle

theorem Framed.aligned (h : Framed b s p) : frameAlignment ∣ p := by
  rw [h.width]
  generalize s.laid.map Prod.snd = l
  induction l with
  | nil => exact Nat.dvd_zero _
  | cons e l ih =>
    rw [Tiling.width_cons]
    exact Nat.dvd_add (dvd_alignFrameLen _) ih

theorem lay_cells {e : Laid} {k : ℕ} {v : UInt8} (hv : e.image[k]? = some v) :
    (s.lay b p e).cells (b.offset p + k) = v := by
  have hk : k < e.image.length := (List.getElem?_eq_some_iff.mp hv).1
  show (if _ then _ else _) = v
  rw [if_pos (by omega), Nat.add_sub_cancel_left, List.getD_eq_getElem?_getD, hv]
  rfl

theorem lay_cells_ne {e : Laid} {o : ℕ} (h : ∀ k < e.image.length, o ≠ b.offset p + k) :
    (s.lay b p e).cells o = s.cells o := by
  show (if _ then _ else _) = _
  rw [if_neg]
  rintro ⟨hle, hlt⟩
  exact h (o - b.offset p) (by omega) (by omega)

theorem Framed.lay (h : Framed b s p) {e : Laid} (hwhole : Whole b (p, e))
    (hstamp : ∀ x ∈ s.laid, x.2.frame.timeNs ≤ e.frame.timeNs) :
    Framed b (s.lay b p e) (p + e.span) where
  tiled := by
    show s.laid ++ [(p, e)] = Tiling.place Laid.span 0 ((s.laid ++ [(p, e)]).map Prod.snd)
    rw [List.map_append, Tiling.place_append, ← h.tiled, Nat.zero_add, ← h.width]
    rfl
  width := by
    show _ = Tiling.width Laid.span ((s.laid ++ [(p, e)]).map Prod.snd)
    rw [List.map_append, Tiling.width_append, ← h.width]
    rfl
  whole := by
    refine List.forall_mem_snoc h.whole ?_
    exact hwhole
  stamps := by
    refine List.pairwise_append.mpr ⟨h.stamps, List.pairwise_singleton _ _, ?_⟩
    intro x hx y hy
    rw [List.mem_singleton.mp hy]
    exact hstamp x hx
  kept := by
    intro x hx hlap k v hv
    rcases List.mem_snoc.mp hx with hx | rfl
    · have hk : k < x.2.image.length := (List.getElem?_eq_some_iff.mp hv).1
      have hxw := h.whole x hx
      have hxi := hxw.length_image_le
      have hxe := h.end_le hx
      have hel := hwhole.lap
      have hei := hwhole.length_image_le
      dsimp only at hel hei
      rw [lay_cells_ne]
      · exact h.kept x hx (by omega) k v hv
      · -- the two would be of one cell, and less than a lap apart
        intro j hj heq
        have hcell : (x.1 + k) % b.capacity = b.offset x.1 + k := b.offset_add (by omega)
        have hcell' : (p + j) % b.capacity = b.offset p + j := b.offset_add (by omega)
        rw [← hcell, ← hcell'] at heq
        have := Lap.le_of_mod_eq heq.symm (by omega)
        omega
    · exact lay_cells hv

/-! ## One append -/

/-- What the appender knows. -/
structure Opened (s : AppendLog) (a : LogAppender) : Prop where
  pos : a.pos = s.append
  durable : a.cachedDurable ≤ s.durable
  stamps : ∀ x ∈ s.laid, x.2.frame.timeNs ≤ a.lastStamp

variable (b) in
/-- The invariant of a run. -/
structure Inv (s : AppendLog) : Prop where
  framed : Framed b s s.append
  gate : s.append ≤ s.durable + b.capacity
  recorded : s.durable ≤ s.append
  ceiling : s.payloadCeiling ≤ b.maxPayload
  opened : ∀ a, s.appender = some a → s.Opened a

theorem padLen_cases (b : LogBuffer) (pos : ℕ) (f : LogFrame) :
    (padLen b pos f = 0 ∧ b.offset pos + alignFrameLen f.total ≤ b.capacity) ∨
      (0 < padLen b pos f ∧ b.offset pos + padLen b pos f = b.capacity ∧
        b.offset (pos + padLen b pos f) = 0) := by
  have hmod : b.offset pos < b.capacity := Nat.mod_lt _ b.capacity_pos
  unfold padLen
  dsimp only
  split
  · refine .inr ⟨by omega, by omega, ?_⟩
    unfold LogBuffer.offset at hmod ⊢
    have hsum : pos + (b.capacity - pos % b.capacity) = b.capacity * (pos / b.capacity + 1) := by
      have := Nat.div_add_mod pos b.capacity
      rw [Nat.mul_add, Nat.mul_one]
      omega
    rw [hsum, Nat.mul_mod_right]
  · exact .inl ⟨rfl, by omega⟩

variable (b) in
theorem padLen_aligned {pos : ℕ} (h : frameAlignment ∣ pos) (f : LogFrame) :
    frameAlignment ∣ padLen b pos f := by
  unfold padLen
  dsimp only
  split
  · have hoffset : frameAlignment ∣ b.offset pos :=
      (Nat.dvd_mod_iff b.frameAlignment_dvd).mpr h
    exact Nat.dvd_sub b.frameAlignment_dvd hoffset
  · exact Nat.dvd_zero _

theorem alignFrameLen_of_dvd {n : ℕ} (h : frameAlignment ∣ n) : alignFrameLen n = n := by
  obtain ⟨k, rfl⟩ := h
  unfold alignFrameLen frameAlignment
  omega

/-- What a frame may take up. -/
def Fitting (b : LogBuffer) (f : LogFrame) : Prop :=
  alignFrameLen f.total ≤ b.capacity ∧ f.frameType ≠ frameTypePadding

variable {a : LogAppender}

theorem Framed.writePadding (h : Framed b s a.pos) (f : LogFrame) {timeNs : ℕ}
    (hstamp : ∀ x ∈ s.laid, x.2.frame.timeNs ≤ timeNs) {t : AppendLog}
    (ht : t = if 0 < padLen b a.pos f then s.writePadding b a (padLen b a.pos f) timeNs
      else s) :
    Framed b t (a.pos + padLen b a.pos f) ∧ ∀ x ∈ t.laid, x.2.frame.timeNs ≤ timeNs := by
  rw [ht]
  rcases padLen_cases b a.pos f with ⟨hzero, -⟩ | ⟨hpos, hend, -⟩
  · rw [hzero, if_neg (Nat.lt_irrefl 0), Nat.add_zero]
    exact ⟨h, hstamp⟩
  · rw [if_pos hpos]
    have haligned := padLen_aligned b h.aligned f
    generalize padLen b a.pos f = pad at *
    have hspan : alignFrameLen pad = pad := alignFrameLen_of_dvd haligned
    have hlong : headerLen ≤ pad := Nat.le_of_dvd hpos haligned
    have hlaid := h.lay (e := ⟨pad, ⟨frameTypePadding, 0, a.leadershipTermId, 0, 0, timeNs, []⟩⟩)
      ⟨h.aligned, by unfold Laid.span; dsimp only; omega, .inl ⟨rfl, rfl, hlong, hend⟩⟩ hstamp
    unfold Laid.span at hlaid
    dsimp only at hlaid
    rw [hspan] at hlaid
    refine ⟨hlaid, ?_⟩
    refine List.forall_mem_snoc hstamp ?_
    rfl

/-- Nothing was written, and the appender stays where it is. -/
structure Refused (s t : AppendLog) : Prop where
  cells : t.cells = s.cells
  append : t.append = s.append
  laid : t.laid = s.laid
  pos : t.appender.map LogAppender.pos = s.appender.map LogAppender.pos

theorem Refused.refl (s : AppendLog) : Refused s s := ⟨rfl, rfl, rfl, rfl⟩

variable {f : LogFrame}

theorem Inv.appendFrame (h : Inv b s) (ha : s.appender = some a) (time : ℕ) (hf : Fitting b f) :
    Inv b (s.appendFrame b a time f).1 ∧
      ∀ e, (s.appendFrame b a time f).2 = .error e → Refused s (s.appendFrame b a time f).1 := by
  have hopen := h.opened a ha
  unfold AppendLog.appendFrame
  dsimp only
  generalize hfinish : a.pos + padLen b a.pos f + alignFrameLen f.total = finish
  obtain ⟨a', ha'⟩ : ∃ a', a' = if a.cachedDurable + b.capacity < finish then
    { a with cachedDurable := s.durable } else a := ⟨_, rfl⟩
  rw [← ha']
  -- only the cached frontier may differ
  have hcached : a'.pos = a.pos ∧ a'.lastStamp = a.lastStamp ∧ a'.cachedDurable ≤ s.durable := by
    rw [ha']
    split
    · exact ⟨rfl, rfl, le_rfl⟩
    · exact ⟨rfl, rfl, hopen.durable⟩
  by_cases hgate : a'.cachedDurable + b.capacity < finish
  · rw [if_pos hgate]
    refine ⟨{ h with framed := ⟨h.framed.tiled, h.framed.width, h.framed.whole, h.framed.stamps,
      h.framed.kept⟩, opened := ?_ }, fun e _ => ⟨rfl, rfl, rfl, ?_⟩⟩
    · rintro i ⟨⟩
      exact ⟨hcached.1.trans hopen.pos, hcached.2.2, fun x hx => by
        rw [hcached.2.1]
        exact hopen.stamps x hx⟩
    · rw [ha]
      show some a'.pos = some a.pos
      rw [hcached.1]
  · rw [if_neg hgate]
    refine ⟨?_, fun e he => by cases he⟩
    rw [hcached.1, hcached.2.1]
    generalize htime : max time a.lastStamp = timeNs
    have hstamps : ∀ x ∈ s.laid, x.2.frame.timeNs ≤ timeNs := fun x hx => by
      have := hopen.stamps x hx
      omega
    have hframed : Framed b s a'.pos := by
      rw [hcached.1, hopen.pos]
      exact h.framed
    obtain ⟨t, ht⟩ : ∃ t, t = if 0 < padLen b a.pos f then
      s.writePadding b a' (padLen b a.pos f) timeNs else s := ⟨_, rfl⟩
    obtain ⟨hpadded, hpstamps⟩ := hframed.writePadding (t := t) f hstamps (by rw [hcached.1]; exact ht)
    rw [hcached.1] at hpadded
    have hwhole : Whole b (a.pos + padLen b a.pos f, ⟨f.total, { f with timeNs }⟩) := by
      refine ⟨hpadded.aligned, ?_, .inr ⟨?_, rfl⟩⟩
      · rcases padLen_cases b a.pos f with ⟨hzero, hend⟩ | ⟨-, -, hzero⟩
        · rw [hzero, Nat.add_zero]
          exact hend
        · rw [hzero, Nat.zero_add]
          exact hf.1
      · exact beq_false_of_ne hf.2
    have hlaid := hpadded.lay hwhole hpstamps
    have hspan : a.pos + padLen b a.pos f +
        Laid.span ⟨f.total, { f with timeNs }⟩ = finish := hfinish
    rw [hspan] at hlaid
    rw [← ht]
    -- the padding and the frame change the cells and the log only
    have hdurable : t.durable = s.durable ∧ t.payloadCeiling = s.payloadCeiling := by
      rw [ht]
      split
      · exact ⟨rfl, rfl⟩
      · exact ⟨rfl, rfl⟩
    refine ⟨⟨hlaid.tiled, hlaid.width, hlaid.whole, hlaid.stamps, hlaid.kept⟩, ?_, ?_, ?_, ?_⟩
    · show finish ≤ t.durable + b.capacity
      rw [hdurable.1]
      omega
    · show t.durable ≤ finish
      have := h.recorded
      have := hopen.pos
      rw [hdurable.1]
      omega
    · show t.payloadCeiling ≤ b.maxPayload
      rw [hdurable.2]
      exact h.ceiling
    · rintro i ⟨⟩
      refine ⟨rfl, ?_, ?_⟩
      · show a'.cachedDurable ≤ t.durable
        rw [hdurable.1]
        exact hcached.2.2
      · refine List.forall_mem_snoc hpstamps ?_
        rfl

/-! ## Runs -/

theorem fitting_short (b : LogBuffer) (hbody : f.body.length ≤ 24)
    (hf : f.frameType ≠ frameTypePadding) : Fitting b f := by
  refine ⟨?_, hf⟩
  have hroom := b.room
  have h32 : 32 ≤ alignFrameLen (headerLen + b.maxPayload) :=
    headerLen_le_alignFrameLen (by unfold headerLen; omega)
  have hmono : alignFrameLen f.total ≤ alignFrameLen 56 :=
    alignFrameLen_mono (by unfold total headerLen; omega)
  have h64 : alignFrameLen 56 = 64 := rfl
  omega

theorem Inv.fitting (h : Inv b s) (hbody : f.body.length ≤ s.payloadCeiling)
    (hf : f.frameType ≠ frameTypePadding) : Fitting b f := by
  refine ⟨?_, hf⟩
  have hroom := b.room
  have hceiling := h.ceiling
  have hmono : alignFrameLen f.total ≤ alignFrameLen (headerLen + b.maxPayload) :=
    alignFrameLen_mono (by unfold total; omega)
  omega

/-- What a step does to the log, and that a refused one does nothing. -/
def Sound (b : LogBuffer) (s : AppendLog) (x : AppendLog × Except AppendError AppendAnswer) : Prop :=
  Inv b x.1 ∧ ∀ e, x.2 = .error e → Refused s x.1

theorem Inv.appended (h : Inv b s) (ha : s.appender = some a) (time : ℕ) (hf : Fitting b f)
    (answer : ℕ × ℕ × ℕ → AppendAnswer) :
    Sound b s ((s.appendFrame b a time f).1, (s.appendFrame b a time f).2.map answer) := by
  obtain ⟨hinv, hrefused⟩ := h.appendFrame ha time hf
  refine ⟨hinv, fun e he => hrefused e ?_⟩
  dsimp only at he
  generalize (s.appendFrame b a time f).2 = res at he
  cases res with
  | error e' =>
    cases he
    rfl
  | ok x => cases he

theorem Inv.withAppender (h : Inv b s)
    {call : LogAppender → AppendLog × Except AppendError AppendAnswer}
    (hcall : ∀ a, s.appender = some a → Sound b s (call a)) : Sound b s (s.withAppender call) := by
  unfold AppendLog.withAppender
  split
  · exact ⟨h, fun e he => by cases he⟩
  · rename_i a ha
    exact hcall a ha

theorem le_foldr_max {l : List ℕ} {n : ℕ} (h : n ∈ l) : n ≤ l.foldr max 0 := by
  induction l with
  | nil => cases h
  | cons m l ih =>
    rw [List.foldr_cons]
    rcases List.mem_cons.mp h with rfl | h
    · exact Nat.le_max_left _ _
    · exact (ih h).trans (Nat.le_max_right _ _)

theorem le_highestStamp (hx : x ∈ s.laid) : x.2.frame.timeNs ≤ s.highestStamp :=
  le_foldr_max (List.mem_map.mpr ⟨x, hx, rfl⟩)

theorem Inv.perform (h : Inv b s) {step : AppendStep} (hp : s.Possible step) :
    Sound b s (s.perform b step) := by
  have hframed : ∀ {t : AppendLog}, t.cells = s.cells → t.laid = s.laid → Framed b t s.append := by
    intro t hcells hlaid
    have hf := h.framed
    exact ⟨hlaid ▸ hf.tiled, hlaid ▸ hf.width, hlaid ▸ hf.whole, hlaid ▸ hf.stamps, by
      rw [hcells, hlaid]
      exact hf.kept⟩
  cases step with
  | openAppender term seedStamp =>
    refine ⟨{ h with framed := hframed rfl rfl, opened := ?_ }, fun e he => by cases he⟩
    rintro a ⟨⟩
    exact ⟨rfl, le_rfl, fun x hx => (le_highestStamp hx).trans (le_of_eq hp.symm)⟩
  | setNow nowNs =>
    refine ⟨{ h with framed := hframed rfl rfl, opened := ?_ }, fun e he => by cases he⟩
    intro a ha
    obtain ⟨a', ha', rfl⟩ := Option.map_eq_some_iff.mp ha
    have hopen := h.opened a' ha'
    exact ⟨hopen.pos, hopen.durable, hopen.stamps⟩
  | setPayloadCeiling v =>
    exact ⟨⟨hframed rfl rfl, h.gate, h.recorded, Nat.min_le_right _ _, fun a ha => by
      have hopen := h.opened a ha
      exact ⟨hopen.pos, hopen.durable, hopen.stamps⟩⟩, fun e he => by cases he⟩
  | append clientId seq payload =>
    refine h.withAppender fun a ha => ?_
    unfold appendMessage
    split
    · exact ⟨h, fun e _ => .refl s⟩
    · exact h.appended ha _ (h.fitting (by dsimp only; omega) (by dsimp only; decide)) _
  | appendNewTerm =>
    exact h.withAppender fun a ha =>
      h.appended ha _ (fitting_short b (by dsimp only; decide) (by dsimp only; decide)) _
  | appendCluster term kind payload =>
    refine h.withAppender fun a ha => ?_
    unfold AppendLog.appendCluster
    split
    · exact ⟨h, fun e _ => .refl s⟩
    · have hlen : (writeClusterPrefix kind).length = clusterBodyPrefixLen := by
        cases kind <;> rfl
      refine h.appended ha _ (h.fitting ?_ (by dsimp only; decide)) _
      rw [List.length_append, hlen]
      omega
  | appendTimer body flags =>
    refine h.withAppender fun a ha => h.appended ha _ (fitting_short b ?_ (by dsimp only; decide)) _
    unfold writeTimerBody
    simp only [List.length_append, Bytes.length_le]
    decide
  | appendSnapshot term flags =>
    exact h.withAppender fun a ha =>
      h.appended ha _ (fitting_short b (by dsimp only; decide) (by dsimp only; decide)) _
  | recorded durable =>
    refine ⟨⟨hframed rfl rfl, ?_, hp.2, h.ceiling, ?_⟩, fun e he => by cases he⟩
    · have hgate := h.gate
      have hle := hp.1
      show s.append ≤ durable + b.capacity
      omega
    · intro a ha
      have hopen := h.opened a ha
      exact ⟨hopen.pos, hopen.durable.trans hp.1, hopen.stamps⟩

theorem inv_fresh (b : LogBuffer) : Inv b (fresh b) where
  framed := ⟨rfl, rfl, fun _ hx => (nomatch hx), .nil, fun _ hx => (nomatch hx)⟩
  gate := Nat.zero_le _
  recorded := le_rfl
  ceiling := le_rfl
  opened := by rintro a ⟨⟩

theorem inv_run {steps : List AppendStep} (h : Trace.Admits (exec b) Possible (fresh b) steps) :
    Inv b (run b (fresh b) steps) := by
  refine Trace.Admits.rule (P := fun is => Inv b (run b (fresh b) is)) (inv_fresh b) ?_ h
  intro is step hinv hp
  unfold run
  rw [List.foldl_append]
  exact (hinv.perform hp).1

/-- Whatever was appended, by whatever chain of appenders: the log up to `append` is
    whole frames end to end, aligned and none across a lap, as the buffer has them
    until they are a lap old; the stamps never go back; nothing is claimed beyond a
    lap above what is durable; and a call that is refused writes nothing. -/
theorem framing_and_log_time (b : LogBuffer) {steps : List AppendStep}
    (h : Trace.Admits (exec b) Possible (fresh b) steps) :
    Framed b (run b (fresh b) steps) (run b (fresh b) steps).append ∧
      (run b (fresh b) steps).append ≤ (run b (fresh b) steps).durable + b.capacity ∧
      ∀ step, (run b (fresh b) steps).Possible step →
        ∀ e, ((run b (fresh b) steps).perform b step).2 = .error e →
          Refused (run b (fresh b) steps) ((run b (fresh b) steps).perform b step).1 := by
  have hinv := inv_run h
  exact ⟨hinv.framed, hinv.gate, fun step hp => (hinv.perform hp).2⟩

/-- A buffer for payloads of 32 bytes. -/
def shortBuffer : LogBuffer := ⟨512, 32, ⟨9, rfl⟩, by decide, by decide⟩

/-- Two leaders: the second has a clock that is behind, and a timer that is ahead. -/
def twoLeaders : List AppendStep :=
  [.openAppender 1 0, .setNow 50, .appendNewTerm, .append 7 1 [1, 2, 3], .recorded 64,
    .openAppender 2 50, .setNow 20, .appendNewTerm, .appendTimer ⟨1, 2, 90⟩ 0, .appendSnapshot 2 0]

theorem framing_and_log_time_two :
    ((run shortBuffer (fresh shortBuffer) twoLeaders).laid.map fun x =>
        (x.1, x.2.frame.frameType, x.2.frame.timeNs)) =
      [(0, 3, 50), (64, 1, 50), (128, 3, 50), (192, 5, 90), (256, 7, 90)] ∧
      Framed shortBuffer (run shortBuffer (fresh shortBuffer) twoLeaders) 288 := by
  have hall := framing_and_log_time shortBuffer (show Trace.Admits (exec shortBuffer) Possible
    (fresh shortBuffer) twoLeaders by decide +kernel)
  have happend : (run shortBuffer (fresh shortBuffer) twoLeaders).append = 288 := by decide +kernel
  rw [happend] at hall
  exact ⟨by decide +kernel, hall.1⟩

end AppendLog

end UltimaCluster
