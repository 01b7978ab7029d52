/-
  When a write to a ring ends with its record in it: the broadcast ring, whose
  producer never waits, and the ring of many producers, by the accesses of the one
  that writes while the others rest.
-/
import UltimaCluster.Spsc
import UltimaCluster.MpscLayout

namespace UltimaCluster

open MpscShape (bytesToTail entryAt free needed)

/-! ## The broadcast ring -/

/-- The sizes with which the call of a `write` comes to an end. -/
def RingShape.Holds (shape : RingShape) : Prop :=
  shape.maxMsgSize < leastRecord ∨ alignRecordSize shape.maxMsgSize ≤ shape.capacity

instance (shape : RingShape) : Decidable shape.Holds := inferInstanceAs (Decidable (_ ∨ _))

namespace BroadcastRing

variable (crc : Bytes → UInt32) (shape : RingShape)

/-- The next step of a `write` under way. -/
def work (s : BroadcastRing) : BroadcastRing :=
  match s.write with
  | none => s
  | some ⟨_, [], _⟩ => s.publish crc shape
  | some ⟨_, _ :: _, _⟩ => s.storeByte shape

/-- The call ends, and its record was published last. -/
def Succeeds (s : BroadcastRing) (r : RingRecord) : Prop :=
  ∃ n pos before,
    ((work crc shape)^[n] (exec crc shape s (.write r))).write = none ∧
      ((work crc shape)^[n] (exec crc shape s (.write r))).published =
        s.published ++ before ++ [(pos, .record r)]

/-- Whatever happened before: when the consumer has read everything, a write goes
    through. -/
def Progress : Prop :=
  ∀ steps, Trace.Admits (exec crc shape) Possible create steps →
    (run crc shape create steps).write = none →
    (run crc shape create steps).head = (run crc shape create steps).publishPosition →
    ∀ r : RingRecord, r.headerExtra.length = 8 → r.total ≤ shape.maxMsgSize →
      (run crc shape create steps).Succeeds crc shape r

variable {crc shape} {s : BroadcastRing} {r : RingRecord}

variable {entry : RingEntry}

variable (crc shape) in
theorem work_store {w : ℕ} {v : UInt8} {left : List (ℕ × UInt8)} {retry : Option RingRecord}
    (h : s.write = some ⟨entry, (w, v) :: left, retry⟩) :
    work crc shape s =
      { s with store := s.store.write shape.capacity w v, write := some ⟨entry, left, retry⟩ } := by
  unfold work
  rw [h]
  unfold storeByte
  rw [h]

variable (crc shape) in
/-- A `write` under way stores all that it has to. -/
theorem work_stores {left : List (ℕ × UInt8)} {retry : Option RingRecord}
    (h : s.write = some ⟨entry, left, retry⟩) :
    ∃ n, ((work crc shape)^[n] s).write = some ⟨entry, [], retry⟩ ∧
      ((work crc shape)^[n] s).publishPosition = s.publishPosition ∧
      ((work crc shape)^[n] s).published = s.published := by
  induction left generalizing s with
  | nil => exact ⟨0, h, rfl, rfl⟩
  | cons x left ih =>
    obtain ⟨w, v⟩ := x
    have hwork := work_store crc shape h
    obtain ⟨n, hn⟩ := ih (s := work crc shape s) (by rw [hwork])
    refine ⟨n + 1, ?_⟩
    rw [Function.iterate_succ_apply]
    rw [hwork] at hn ⊢
    exact hn

/-- What the last step of a `write` leaves. -/
def settle (s : BroadcastRing) (entry : RingEntry) : BroadcastRing :=
  { s with
    publishPosition := s.publishPosition + entry.span
    published := s.published ++ [(s.publishPosition, entry)]
    write := none }

theorem work_record (h : s.write = some ⟨entry, [], none⟩) : work crc shape s = s.settle entry := by
  unfold work
  rw [h]
  unfold publish
  rw [h]
  rfl

variable (crc shape) in
theorem work_padding (h : s.write = some ⟨entry, [], some r⟩) :
    work crc shape s = (s.settle entry).startWrite crc shape r := by
  unfold work
  rw [h]
  unfold publish
  rw [h]
  rfl

variable (crc) in
theorem startWrite_record (h : alignRecordSize r.total ≤
      shape.capacity - s.publishPosition % shape.capacity) :
    (s.startWrite crc shape r).write =
      some ⟨.record r, (RingEntry.record r).stores crc s.publishPosition, none⟩ := by
  unfold startWrite
  dsimp only
  rw [if_neg (by omega), if_neg (by omega)]

variable (crc) in
theorem startWrite_padding (h : shape.capacity - s.publishPosition % shape.capacity <
      alignRecordSize r.total) :
    (s.startWrite crc shape r).write =
      some ⟨.padding (shape.capacity - s.publishPosition % shape.capacity),
        (RingEntry.padding (shape.capacity - s.publishPosition % shape.capacity)).stores crc
          s.publishPosition, some r⟩ := by
  unfold startWrite
  dsimp only
  rw [if_pos h, if_pos h]

variable (crc) in
theorem finishes_record (h : alignRecordSize r.total ≤
      shape.capacity - s.publishPosition % shape.capacity) :
    ∃ n pos, ((work crc shape)^[n] (s.startWrite crc shape r)).write = none ∧
      ((work crc shape)^[n] (s.startWrite crc shape r)).published =
        s.published ++ [(pos, .record r)] := by
  obtain ⟨n, hwrite, hpos, hpub⟩ := work_stores crc shape (startWrite_record crc h)
  refine ⟨n + 1, ((work crc shape)^[n] (s.startWrite crc shape r)).publishPosition, ?_⟩
  rw [Function.iterate_succ_apply', work_record hwrite]
  refine ⟨rfl, ?_⟩
  show _ ++ _ = _
  rw [hpub]
  rfl

theorem finishes (h : alignRecordSize r.total ≤ shape.capacity) :
    ∃ n pos before, ((work crc shape)^[n] (s.startWrite crc shape r)).write = none ∧
      ((work crc shape)^[n] (s.startWrite crc shape r)).published =
        s.published ++ before ++ [(pos, .record r)] := by
  by_cases hlt : shape.capacity - s.publishPosition % shape.capacity < alignRecordSize r.total
  · obtain ⟨n, hwrite, hpos, hpub⟩ := work_stores crc shape (startWrite_padding crc hlt)
    have hlast := work_padding crc shape hwrite
    obtain ⟨s', hs'⟩ : ∃ s', s' = ((work crc shape)^[n] (s.startWrite crc shape r)).settle
      (.padding (shape.capacity - s.publishPosition % shape.capacity)) := ⟨_, rfl⟩
    rw [← hs'] at hlast
    have hzero : s'.publishPosition % shape.capacity = 0 := by
      rw [hs']
      show (_ + _) % _ = 0
      rw [hpos]
      exact RingShape.mod_after_padding rfl
    obtain ⟨m, pos, hnone, hall⟩ := finishes_record crc (s := s') (r := r) (by rw [hzero]; exact h)
    refine ⟨m + (n + 1), pos, [(s.publishPosition,
      .padding (shape.capacity - s.publishPosition % shape.capacity))], ?_⟩
    rw [Function.iterate_add_apply, Function.iterate_succ_apply', hlast]
    refine ⟨hnone, ?_⟩
    rw [hall, hs']
    show _ ++ _ ++ _ = _
    rw [hpub, hpos]
    rfl
  · obtain ⟨n, pos, hnone, hall⟩ := finishes_record crc (Nat.not_lt.mp hlt)
    exact ⟨n, pos, [], hnone, by rw [hall, List.append_nil]⟩

variable (crc) in
theorem never_finishes (h : shape.capacity < alignRecordSize r.total) (n : ℕ) :
    ∃ len left, ((work crc shape)^[n] (s.startWrite crc shape r)).write =
      some ⟨.padding len, left, some r⟩ := by
  induction n with
  | zero => exact ⟨_, _, startWrite_padding crc (by omega)⟩
  | succ n ih =>
    obtain ⟨len, left, hwrite⟩ := ih
    rw [Function.iterate_succ_apply']
    cases left with
    | nil =>
      rw [work_padding crc shape hwrite]
      exact ⟨_, _, startWrite_padding crc (by omega)⟩
    | cons x left =>
      rw [work_store crc shape hwrite]
      exact ⟨len, left, rfl⟩

theorem exec_write (hr : r.total ≤ shape.maxMsgSize) :
    exec crc shape s (.write r) = s.startWrite crc shape r := if_neg (by omega)

theorem progress_iff : Progress crc shape ↔ shape.Holds := by
  constructor
  · intro h
    by_contra hno
    unfold RingShape.Holds at hno
    push Not at hno
    have htotal := total_blankRecord hno.1
    obtain ⟨n, pos, before, hnone, -⟩ := h [] trivial rfl rfl (blankRecord shape.maxMsgSize) rfl htotal.le
    rw [exec_write htotal.le] at hnone
    obtain ⟨len, left, hwrite⟩ := never_finishes crc (s := create)
      (r := blankRecord shape.maxMsgSize) (by rw [htotal]; exact hno.2) n
    rw [run, List.foldl_nil, hwrite] at hnone
    cases hnone
  · intro h steps _ _ _ r _ hr
    unfold Succeeds
    rw [exec_write hr]
    refine finishes ?_
    have hle := alignRecordSize_mono hr
    have hleast := r.leastRecord_le
    rcases h with h | h
    · omega
    · exact hle.trans h

end BroadcastRing

/-! ## The ring of many producers -/

/-- The record that a `try_write` is for. -/
def MpscWritePc.record? : MpscWritePc → Option RingRecord
  | .idle | .dead => none
  | .load r | .reload r _ | .claim r _ | .stamp r _ | .body r _ _ | .crc r _ _ | .trailer r _ _ _
  | .commit r _ => some r

namespace MpscRing

section Calls

variable (crc : Bytes → UInt32) (shape : MpscShape)

/-- The accesses of one producer, with the compare-exchanges that fail for no
    reason. -/
def produces (i : ℕ) (s : MpscRing) (weaks : List Bool) : MpscRing :=
  weaks.foldl (fun s weak => s.produce crc shape i weak) s

/-- The producer is told that its record is in the ring. -/
def Wrote (answers : List (RingRecord × WriteAnswer)) (i : ℕ) (r : RingRecord) (s : MpscRing) : Prop :=
  ∃ cached pos, s.producers[i]? = some ⟨cached, .idle⟩ ∧ s.answers = answers ++ [(r, .ok pos)]

/-- However often its compare-exchanges failed for no reason, the call ends once
    they no longer do. -/
def Ends (answers : List (RingRecord × WriteAnswer)) (i : ℕ) (r : RingRecord) (s : MpscRing) : Prop :=
  ∀ weaks, ∃ n, Wrote answers i r (produces crc shape i s (weaks ++ List.replicate n false))

/-- Whatever happened before: when the consumer has read everything, a write goes
    through, the other producers resting meanwhile. -/
def Progress : Prop :=
  ∀ steps, Trace.Admits (exec crc shape) Possible create steps →
    (run crc shape create steps).consumerPosition = (run crc shape create steps).claimPosition →
    ∀ i cached, (run crc shape create steps).producers[i]? = some ⟨cached, .idle⟩ →
      ∀ r : RingRecord, r.headerExtra.length = 8 → r.msgType.toNat ≠ paddingMsgType →
        r.total ≤ shape.maxMsgSize →
          Ends crc shape (run crc shape create steps).answers i r
            (exec crc shape (run crc shape create steps) (.tryWrite i r))

end Calls

variable {crc : Bytes → UInt32} {shape : MpscShape} {answers : List (RingRecord × WriteAnswer)}
variable {i : ℕ} {r : RingRecord} {s : MpscRing}

theorem produces_idle {cached : ℕ} (h : s.producers[i]? = some ⟨cached, .idle⟩) (weaks : List Bool) :
    produces crc shape i s weaks = s := by
  induction weaks with
  | nil => rfl
  | cons w weaks ih =>
    have hstep : s.produce crc shape i w = s := by
      unfold produce
      rw [h]
    show produces crc shape i (s.produce crc shape i w) weaks = s
    rw [hstep, ih]

theorem Wrote.ends (h : Wrote answers i r s) : Ends crc shape answers i r s := by
  intro weaks
  obtain ⟨cached, pos, hp, ha⟩ := h
  refine ⟨0, ?_⟩
  rw [produces_idle hp]
  exact ⟨cached, pos, hp, ha⟩

theorem ends_of_produce (h : ∀ weak, Ends crc shape answers i r (s.produce crc shape i weak)) :
    Ends crc shape answers i r s := by
  intro weaks
  cases weaks with
  | nil =>
    obtain ⟨n, hn⟩ := h false []
    exact ⟨n + 1, hn⟩
  | cons w weaks => exact h w weaks

theorem ends_of_step {t : MpscRing} (hstep : ∀ weak, s.produce crc shape i weak = t)
    (h : Ends crc shape answers i r t) : Ends crc shape answers i r s := by
  refine ends_of_produce fun weak => ?_
  rw [hstep]
  exact h

/-- Where the ring is while one producer writes. -/
structure Writing (answers : List (RingRecord × WriteAnswer)) (i claimPos consumerPos : ℕ)
    (pc : MpscWritePc) (s : MpscRing) : Prop where
  producer : ∃ cached, s.producers[i]? = some ⟨cached, pc⟩
  answers : s.answers = answers
  claimPosition : s.claimPosition = claimPos
  consumerPosition : s.consumerPosition = consumerPos

variable {claimPos consumerPos : ℕ} {pc q : MpscWritePc} {c : PendingClaim}

theorem Writing.set (h : Writing answers i claimPos consumerPos pc s) (cached : ℕ) :
    Writing answers i claimPos consumerPos q (s.setProducer i ⟨cached, q⟩) where
  producer := by
    obtain ⟨cached', hp⟩ := h.producer
    have hlt : i < s.producers.length := (List.getElem?_eq_some_iff.mp hp).1
    exact ⟨cached, List.getElem?_set_self hlt⟩
  answers := h.answers
  claimPosition := h.claimPosition
  consumerPosition := h.consumerPosition

theorem Writing.cells (h : Writing answers i claimPos consumerPos pc s) (cells : ℕ → UInt8) :
    Writing answers i claimPos consumerPos pc { s with cells := cells } :=
  ⟨h.producer, h.answers, h.claimPosition, h.consumerPosition⟩

theorem wordAt_storeByte_behind (s : MpscRing) (o k : ℕ) (b : UInt8) :
    (s.storeByte (o + 4 + k) b).wordAt o = s.wordAt o :=
  wordAt_congr fun _ _ hx => storeByte_cells_ne s b (by omega)

/-! ### A claim that is written -/

/-- The word of the claim stands. -/
structure Stamped (shape : MpscShape) (c : PendingClaim) (s : MpscRing) : Prop where
  word : s.wordAt (c.pos % shape.capacity) = c.claimWord shape

variable {r' : RingRecord}

theorem ends_commit (hw : Writing answers i claimPos consumerPos (.commit r c) s)
    (hc : c.entry = .record r') (hword : Stamped shape c s) : Ends crc shape answers i r s := by
  obtain ⟨cached, hp⟩ := hw.producer
  have hlt : i < s.producers.length := (List.getElem?_eq_some_iff.mp hp).1
  refine ends_of_step (t := (s.storeWord (c.pos % shape.capacity) (c.commitWord shape)).answerWrite i
    ⟨cached, .commit r c⟩ r (.ok c.pos)) ?_ (Wrote.ends ⟨cached, c.pos, List.getElem?_set_self hlt, ?_⟩)
  · intro weak
    unfold produce
    rw [hp]
    dsimp only
    unfold commit
    rw [hc]
    dsimp only
    rw [if_pos hword.word]
  · show s.answers ++ _ = _
    rw [hw.answers]

theorem ends_trailer {sum : UInt32} {k : ℕ}
    (hw : Writing answers i claimPos consumerPos (.trailer r c sum k) s) (hc : c.entry = .record r')
    (hword : Stamped shape c s) : Ends crc shape answers i r s := by
  -- on the bytes that are left
  induction hm : 4 - k generalizing k s with
  | zero =>
    obtain ⟨cached, hp⟩ := hw.producer
    refine ends_of_step (t := s.setProducer i ⟨cached, .commit r c⟩) ?_
      (ends_commit (hw.set cached) hc ⟨hword.word⟩)
    intro weak
    unfold produce
    rw [hp]
    dsimp only
    rw [List.getElem?_eq_none (by rw [Bytes.length_le]; omega)]
  | succ m ih =>
    obtain ⟨cached, hp⟩ := hw.producer
    have hk : k < (Bytes.le 4 sum.toNat).length := by
      rw [Bytes.length_le]
      omega
    refine ends_of_step (t := (s.storeByte (c.pos % shape.capacity + 4 + c.entry.fields.length + k)
      (Bytes.le 4 sum.toNat)[k]).setProducer i ⟨cached, .trailer r c sum (k + 1)⟩) ?_
      (ih ((hw.cells _).set cached) ⟨?_⟩ (by omega))
    · intro weak
      unfold produce
      rw [hp]
      dsimp only
      rw [List.getElem?_eq_getElem hk]
    · show (s.storeByte _ _).wordAt _ = _
      rw [Nat.add_assoc _ _ k, wordAt_storeByte_behind]
      exact hword.word

theorem ends_crc {again : Bytes} (hw : Writing answers i claimPos consumerPos (.crc r c again) s)
    (hc : c.entry = .record r') (hword : Stamped shape c s) : Ends crc shape answers i r s := by
  induction hm : c.entry.fields.length - again.length generalizing again s with
  | zero =>
    obtain ⟨cached, hp⟩ := hw.producer
    refine ends_of_step (t := s.setProducer i ⟨cached, .trailer r c (crc again) 0⟩) ?_
      (ends_trailer (hw.set cached) hc ⟨hword.word⟩)
    intro weak
    unfold produce
    rw [hp]
    dsimp only
    rw [if_neg (by omega)]
  | succ m ih =>
    obtain ⟨cached, hp⟩ := hw.producer
    refine ends_of_step (t := s.setProducer i ⟨cached, .crc r c
      (again ++ [s.cells (c.pos % shape.capacity + 4 + again.length)])⟩) ?_
      (ih (hw.set cached) ⟨hword.word⟩ (by rw [List.length_append, List.length_singleton]; omega))
    intro weak
    unfold produce
    rw [hp]
    dsimp only
    rw [if_pos (by omega)]

theorem ends_body {k : ℕ} (hw : Writing answers i claimPos consumerPos (.body r c k) s)
    (hword : Stamped shape c s)
    (hnext : ∀ s', Stamped shape c s' → Writing answers i claimPos consumerPos (match c.entry with
          | .record _ => .crc r c []
          | .padding _ => .commit r c) s' → Ends crc shape answers i r s') :
    Ends crc shape answers i r s := by
  induction hm : c.entry.fields.length - k generalizing k s with
  | zero =>
    obtain ⟨cached, hp⟩ := hw.producer
    refine ends_of_step (t := s.setProducer i ⟨cached, _⟩) ?_ (hnext _ ⟨hword.word⟩ (hw.set cached))
    intro weak
    unfold produce
    rw [hp]
    dsimp only
    rw [List.getElem?_eq_none (by omega)]
    cases c.entry <;> rfl
  | succ m ih =>
    obtain ⟨cached, hp⟩ := hw.producer
    have hk : k < c.entry.fields.length := by omega
    refine ends_of_step (t := (s.storeByte (c.pos % shape.capacity + 4 + k)
      c.entry.fields[k]).setProducer i ⟨cached, .body r c (k + 1)⟩) ?_
      (ih ((hw.cells _).set cached) ⟨?_⟩ (by omega))
    · intro weak
      unfold produce
      rw [hp]
      dsimp only
      rw [List.getElem?_eq_getElem hk]
    · show (s.storeByte _ _).wordAt _ = _
      rw [wordAt_storeByte_behind]
      exact hword.word

theorem ends_stamp (hw : Writing answers i claimPos consumerPos (.stamp r c) s)
    (hnext : ∀ s', Stamped shape c s' → Writing answers i claimPos consumerPos (match c.entry with
          | .record _ => .crc r c []
          | .padding _ => .commit r c) s' → Ends crc shape answers i r s') :
    Ends crc shape answers i r s := by
  obtain ⟨cached, hp⟩ := hw.producer
  refine ends_of_step (t := (s.storeWord (c.pos % shape.capacity) (c.claimWord shape)).setProducer i
    ⟨cached, .body r c 0⟩) ?_ (ends_body ((hw.cells _).set cached) ⟨?_⟩ hnext)
  · intro weak
    unfold produce
    rw [hp]
  · exact wordAt_storeWord s _ (encodeCommitWord_lt _ _ _)

/-! ### The claims of a call -/

/-- A call that is about to claim. -/
def Claiming (answers : List (RingRecord × WriteAnswer)) (i claimPos consumerPos : ℕ) (r : RingRecord)
    (s : MpscRing) : Prop :=
  Writing answers i claimPos consumerPos (.load r) s ∨
    Writing answers i claimPos consumerPos (.reload r claimPos) s ∨
      Writing answers i claimPos consumerPos (.claim r claimPos) s

/-- There is room for what is claimed. -/
def Room (shape : MpscShape) (claimPos consumerPos : ℕ) (r : RingRecord) : Prop :=
  shape.needed claimPos r ≤ shape.free claimPos consumerPos

variable (crc) in
theorem Writing.of_claim (h : Writing answers i claimPos consumerPos (.claim r claimPos) s) :
    Writing answers i (claimPos + (shape.entryAt claimPos r).span) consumerPos
      (.stamp r ⟨claimPos, shape.entryAt claimPos r⟩) (s.produce crc shape i false) := by
  obtain ⟨cached, hp⟩ := h.producer
  have hstep : s.produce crc shape i false =
      { s.setProducer i ⟨cached, .stamp r ⟨claimPos, shape.entryAt claimPos r⟩⟩ with
        claimPosition := claimPos + (shape.entryAt claimPos r).span
        claims := s.claims ++ [⟨claimPos, shape.entryAt claimPos r⟩] } := by
    unfold produce
    rw [hp]
    dsimp only
    rw [if_neg]
    rintro (hweak | hne)
    · cases hweak
    · exact hne h.claimPosition
  rw [hstep]
  have hset := h.set (q := .stamp r ⟨claimPos, shape.entryAt claimPos r⟩) cached
  exact { hset with claimPosition := rfl }

theorem Writing.of_claim_weak (h : Writing answers i claimPos consumerPos (.claim r claimPos) s) :
    Writing answers i claimPos consumerPos (.load r) (s.produce crc shape i true) := by
  obtain ⟨cached, hp⟩ := h.producer
  have hstep : s.produce crc shape i true = s.setProducer i ⟨cached, .load r⟩ := by
    unfold produce
    rw [hp]
    dsimp only
    rw [if_pos (.inl rfl)]
  rw [hstep]
  exact h.set cached

variable (crc) in
theorem Writing.of_reload (h : Writing answers i claimPos consumerPos (.reload r claimPos) s)
    (hroom : Room shape claimPos consumerPos r) (weak : Bool) :
    Writing answers i claimPos consumerPos (.claim r claimPos) (s.produce crc shape i weak) := by
  obtain ⟨cached, hp⟩ := h.producer
  have hstep : s.produce crc shape i weak = s.setProducer i ⟨consumerPos, .claim r claimPos⟩ := by
    unfold produce
    rw [hp]
    dsimp only
    rw [h.consumerPosition, if_neg (Nat.not_lt.mpr hroom)]
  rw [hstep]
  exact h.set consumerPos

variable (crc shape) in
theorem Writing.of_load (h : Writing answers i claimPos consumerPos (.load r) s) (weak : Bool) :
    Writing answers i claimPos consumerPos (.reload r claimPos) (s.produce crc shape i weak) ∨
      Writing answers i claimPos consumerPos (.claim r claimPos) (s.produce crc shape i weak) := by
  obtain ⟨cached, hp⟩ := h.producer
  by_cases hfree : shape.free claimPos cached < shape.needed claimPos r
  · have hstep : s.produce crc shape i weak = s.setProducer i ⟨cached, .reload r claimPos⟩ := by
      unfold produce
      rw [hp]
      dsimp only
      rw [h.claimPosition, if_pos hfree]
    rw [hstep]
    exact .inl (h.set cached)
  · have hstep : s.produce crc shape i weak = s.setProducer i ⟨cached, .claim r claimPos⟩ := by
      unfold produce
      rw [hp]
      dsimp only
      rw [h.claimPosition, if_neg hfree]
    rw [hstep]
    exact .inr (h.set cached)

theorem ends_claiming (hroom : Room shape claimPos consumerPos r)
    (hnext : ∀ s', Writing answers i (claimPos + (shape.entryAt claimPos r).span) consumerPos
      (.stamp r ⟨claimPos, shape.entryAt claimPos r⟩) s' → Ends crc shape answers i r s')
    (h : Claiming answers i claimPos consumerPos r s) : Ends crc shape answers i r s := by
  intro weaks
  induction weaks generalizing s with
  | nil =>
    -- at most three accesses, none of which fails for no reason
    have hclaim : ∀ s, Writing answers i claimPos consumerPos (.claim r claimPos) s →
        ∃ n, Wrote answers i r (produces crc shape i s (List.replicate n false)) := by
      intro s h
      obtain ⟨n, hn⟩ := hnext _ (h.of_claim crc) []
      exact ⟨n + 1, hn⟩
    have hreload : ∀ s, Writing answers i claimPos consumerPos (.reload r claimPos) s →
        ∃ n, Wrote answers i r (produces crc shape i s (List.replicate n false)) := by
      intro s h
      obtain ⟨n, hn⟩ := hclaim _ (h.of_reload crc hroom false)
      exact ⟨n + 1, hn⟩
    rcases h with h | h | h
    · rcases h.of_load crc shape false with h | h
      · obtain ⟨n, hn⟩ := hreload _ h
        exact ⟨n + 1, hn⟩
      · obtain ⟨n, hn⟩ := hclaim _ h
        exact ⟨n + 1, hn⟩
    · exact hreload s h
    · exact hclaim s h
  | cons w weaks ih =>
    rcases h with h | h | h
    · exact ih (.inr (h.of_load crc shape w))
    · exact ih (.inr (.inr (h.of_reload crc hroom w)))
    · cases w with
      | false => exact hnext _ (h.of_claim crc) weaks
      | true => exact ih (.inl h.of_claim_weak)

theorem ends_of_fitting (hroom : Room shape claimPos consumerPos r)
    (hfits : alignRecordSize r.total ≤ shape.bytesToTail claimPos)
    (h : Claiming answers i claimPos consumerPos r s) : Ends crc shape answers i r s := by
  have hentry : shape.entryAt claimPos r = .record r := if_neg (Nat.not_lt.mpr hfits)
  refine ends_claiming hroom (fun s' hw => ?_) h
  rw [hentry] at hw
  exact ends_stamp hw fun _ hword hw => ends_crc hw rfl hword

theorem Writing.of_padding {len : ℕ} (hc : c.entry = .padding len) (weak : Bool)
    (h : Writing answers i claimPos consumerPos (.commit r c) s) :
    Writing answers i claimPos consumerPos (.load r) (s.produce crc shape i weak) := by
  obtain ⟨cached, hp⟩ := h.producer
  have hset := h.set (q := .load r) cached
  unfold produce
  rw [hp]
  dsimp only
  unfold commit
  rw [hc]
  dsimp only
  split
  · exact hset.cells _
  · exact hset

theorem ends_of_room (hroom : Room shape claimPos consumerPos r)
    (h : Claiming answers i claimPos consumerPos r s) (hle : consumerPos ≤ claimPos)
    (hneed : shape.needed claimPos r ≤ shape.capacity) : Ends crc shape answers i r s := by
  by_cases hlt : shape.bytesToTail claimPos < alignRecordSize r.total
  · have hentry : shape.entryAt claimPos r = .padding (shape.bytesToTail claimPos) := if_pos hlt
    obtain ⟨hzero, hnext, hsum⟩ := RingShape.needed_after_padding
      (show shape.bytesToTail claimPos = shape.toRingShape.capacity - claimPos % shape.capacity from rfl)
      hlt hneed
    have hroom' : Room shape (claimPos + shape.bytesToTail claimPos) consumerPos r := by
      unfold Room needed free at hroom
      rw [if_pos hlt] at hroom
      show shape.toRingShape.needed _ r ≤ shape.capacity - _
      rw [hnext]
      omega
    have hfits : alignRecordSize r.total ≤ shape.bytesToTail (claimPos + shape.bytesToTail claimPos) := by
      unfold bytesToTail at hzero hsum ⊢
      rw [hzero]
      omega
    refine ends_claiming hroom (fun s' hw => ends_stamp hw fun s' _ hw => ?_) h
    rw [hentry] at hw
    exact ends_of_produce fun weak => ends_of_fitting hroom' hfits (.inl (hw.of_padding rfl weak))
  · exact ends_of_fitting hroom (Nat.not_lt.mp hlt) h

/-! ### Where the ring can be -/

/-- The records under way are of the ring's sizes, and it is where they lead. -/
structure Placed (shape : MpscShape) (s : MpscRing) : Prop where
  sits : shape.Sits s.claimPosition
  sized : ∀ p ∈ s.producers, ∀ r ∈ p.pc.record?, r.total ≤ shape.maxMsgSize

variable {p : MpscProducer}

theorem Placed.set (h : Placed shape s) (hp : ∀ r ∈ p.pc.record?, r.total ≤ shape.maxMsgSize) :
    Placed shape (s.setProducer i p) where
  sits := h.sits
  sized := by
    intro q hq
    rcases List.mem_or_eq_of_mem_set hq with hq | rfl
    · exact h.sized q hq
    · exact hp

theorem Placed.attach (h : Placed shape s) (hp : p.pc = .idle) :
    Placed shape { s with producers := s.producers ++ [p] } where
  sits := h.sits
  sized := by
    intro q hq r hr
    rcases List.mem_snoc.mp hq with hq | rfl
    · exact h.sized q hq r hr
    · rw [hp] at hr
      cases hr

theorem Placed.congr (h : Placed shape s) {t : MpscRing} (hclaim : t.claimPosition = s.claimPosition)
    (hproducers : t.producers = s.producers) : Placed shape t :=
  ⟨hclaim ▸ h.sits, hproducers ▸ h.sized⟩

theorem Placed.answer (h : Placed shape s) (p : MpscProducer) (r : RingRecord) (a : WriteAnswer) :
    Placed shape (s.answerWrite i p r a) :=
  (h.set (i := i) (p := { p with pc := .idle }) fun _ hr => nomatch hr).congr rfl rfl

theorem Placed.tryWrite (h : Placed shape s) (i : ℕ) (r : RingRecord) :
    Placed shape (s.tryWrite shape i r) := by
  unfold MpscRing.tryWrite
  split
  · exact h
  · split
    · exact h.answer _ _ _
    · split
      · exact h.answer _ _ _
      · rename_i hle
        refine h.set fun r' hr' => ?_
        cases hr'
        exact Nat.not_lt.mp hle

theorem Placed.claim (h : Placed shape s) (hr : r.total ≤ shape.maxMsgSize)
    (claims : List PendingClaim) :
    Placed shape { s.setProducer i
      { p with pc := .stamp r ⟨s.claimPosition, shape.entryAt s.claimPosition r⟩ } with
      claimPosition := s.claimPosition + (shape.entryAt s.claimPosition r).span
      claims := claims } where
  sits := by
    have hnext := h.sits.next hr
    unfold entryAt bytesToTail
    split at hnext
    · rename_i hlt
      rw [if_pos hlt]
      exact hnext
    · rename_i hlt
      rw [if_neg hlt]
      exact hnext
  sized := (h.set fun r' hr' => by
    cases hr'
    exact hr).sized

theorem Placed.produce (h : Placed shape s) (i : ℕ) (weak : Bool) :
    Placed shape (s.produce crc shape i weak) := by
  unfold MpscRing.produce
  split
  · exact h
  · rename_i p hp
    have hsized := h.sized p (List.mem_of_getElem? hp)
    have hset : ∀ {s' : MpscRing} {cached : ℕ} {pc : MpscWritePc}, Placed shape s' →
        pc.record? = p.pc.record? → Placed shape (s'.setProducer i ⟨cached, pc⟩) :=
      fun h' hrecord => h'.set fun r hr => hsized r (hrecord ▸ hr)
    split
    · exact h
    · exact h
    · rename_i hpc
      split <;> exact hset h (by rw [hpc]; rfl)
    · rename_i hpc
      split
      · exact h.answer _ _ _
      · exact hset h (by rw [hpc]; rfl)
    · rename_i r claimPos hpc
      split
      · exact hset h (by rw [hpc]; rfl)
      · rename_i hcas
        push Not at hcas
        rw [← hcas.2]
        exact h.claim (hsized r (by rw [hpc]; rfl)) _
    · rename_i hpc
      exact hset (h.congr rfl rfl) (by rw [hpc]; rfl)
    · rename_i hpc
      split
      · exact hset (h.congr rfl rfl) (by rw [hpc]; rfl)
      · exact hset h (by rw [hpc]; rfl)
      · exact hset h (by rw [hpc]; rfl)
    · rename_i hpc
      split <;> exact hset h (by rw [hpc]; rfl)
    · rename_i hpc
      split
      · exact hset (h.congr rfl rfl) (by rw [hpc]; rfl)
      · exact hset h (by rw [hpc]; rfl)
    · rename_i r c hpc
      unfold commit
      dsimp only
      split
      · have hload : Placed shape (s.setProducer i { p with pc := .load r }) := hset h (by rw [hpc]; rfl)
        split
        · exact hload.congr rfl rfl
        · exact hload
      · split
        · exact (h.congr (t := s.storeWord _ _) rfl rfl).answer _ _ _
        · exact h.answer _ _ _

theorem consume_frame (s : MpscRing) (elapsed : Bool) :
    (s.consume crc shape elapsed).claimPosition = s.claimPosition ∧
      (s.consume crc shape elapsed).producers = s.producers := by
  unfold consume
  dsimp only
  repeat' split
  all_goals exact ⟨rfl, rfl⟩

variable (crc shape) in
theorem placed_run (steps : List MpscStep) : Placed shape (run crc shape create steps) := by
  induction steps using List.reverseRecOn with
  | nil =>
    refine ⟨fun _ => .inl rfl, fun p hp r hr => ?_⟩
    rw [List.mem_singleton.mp hp] at hr
    cases hr
  | append_singleton steps step ih =>
    rw [run, List.foldl_append]
    show Placed shape (exec crc shape (run crc shape create steps) step)
    generalize run crc shape create steps = s at ih
    cases step with
    | attach => exact ih.attach rfl
    | clone i =>
      unfold exec
      dsimp only
      split
      · exact ih.attach rfl
      · exact ih
    | tryWrite i r => exact ih.tryWrite i r
    | produce i weak => exact ih.produce i weak
    | die i =>
      unfold exec
      dsimp only
      split
      · exact ih.set fun _ hr => nomatch hr
      · exact ih
    | tryRead => exact ih.congr rfl rfl
    | consume elapsed => exact ih.congr (consume_frame s elapsed).1 (consume_frame s elapsed).2

theorem exec_tryWrite {cached : ℕ} (hp : s.producers[i]? = some ⟨cached, .idle⟩)
    (htype : r.msgType.toNat ≠ paddingMsgType) (hr : r.total ≤ shape.maxMsgSize) :
    exec crc shape s (.tryWrite i r) = s.setProducer i ⟨cached, .load r⟩ := by
  show s.tryWrite shape i r = _
  unfold MpscRing.tryWrite
  rw [hp]
  dsimp only
  rw [if_neg htype, if_neg (by omega)]

theorem progress_of_fits (h : shape.Fits) : Progress crc shape := by
  intro steps _ hread i cached hp r _ htype hr
  have hplaced := placed_run crc shape steps
  generalize run crc shape create steps = s at hread hp hplaced
  have hneed : shape.needed s.claimPosition r ≤ shape.capacity := h.needed_le hr hplaced.sits
  have hw : Writing s.answers i s.claimPosition s.claimPosition .idle s := ⟨⟨cached, hp⟩, rfl, rfl, hread⟩
  rw [exec_tryWrite hp htype hr]
  refine ends_of_room ?_ (.inl (hw.set cached)) le_rfl hneed
  unfold Room free
  omega

/-! ### A ring that stays full -/

theorem not_ends_of_needed (h : Writing answers i claimPos consumerPos (.load r) s)
    (hlt : shape.capacity < shape.needed claimPos r) : ¬ Ends crc shape answers i r s := by
  intro hends
  obtain ⟨cached, hp⟩ := h.producer
  have hload : s.produce crc shape i false = s.setProducer i ⟨cached, .reload r claimPos⟩ := by
    unfold produce
    rw [hp]
    dsimp only
    rw [h.claimPosition, if_pos]
    unfold free
    omega
  have hw := h.set (q := .reload r claimPos) cached
  rw [← hload] at hw
  generalize hs₁ : s.produce crc shape i false = s₁ at hload hw
  obtain ⟨cached₁, hp₁⟩ := hw.producer
  have hreload : s₁.produce crc shape i false =
      s₁.answerWrite i ⟨s₁.consumerPosition, .reload r claimPos⟩ r .full := by
    unfold produce
    rw [hp₁]
    dsimp only
    rw [if_pos]
    unfold free
    omega
  have hlt₁ : i < s₁.producers.length := (List.getElem?_eq_some_iff.mp hp₁).1
  obtain ⟨n, cached', pos, -, hanswers⟩ := hends [false, false]
  have hidle : (s₁.produce crc shape i false).producers[i]? = some ⟨s₁.consumerPosition, .idle⟩ := by
    rw [hreload]
    exact List.getElem?_set_self hlt₁
  have hrest : produces crc shape i s ([false, false] ++ List.replicate n false) =
      s₁.produce crc shape i false := by
    show produces crc shape i ((s.produce crc shape i false).produce crc shape i false) _ = _
    rw [hs₁, produces_idle hidle]
  rw [hrest, hreload] at hanswers
  have hfull : s₁.answers ++ [(r, WriteAnswer.full)] = answers ++ [(r, WriteAnswer.ok pos)] := hanswers
  rw [hw.answers, List.append_cancel_left_eq] at hfull
  cases hfull

/-- There is a run to here. -/
def Reached (crc : Bytes → UInt32) (shape : MpscShape) (s : MpscRing) : Prop :=
  ∃ steps, Trace.Admits (exec crc shape) Possible create steps ∧ run crc shape create steps = s

theorem Reached.step (h : Reached crc shape s) (step : MpscStep) (hp : s.Possible step) :
    Reached crc shape (exec crc shape s step) := by
  obtain ⟨steps, hadmits, rfl⟩ := h
  refine ⟨steps ++ [step], Trace.admits_append.mpr ⟨hadmits, hp, trivial⟩, ?_⟩
  rw [run, List.foldl_append]
  rfl

theorem Reached.via (h : Reached crc shape s) (step : MpscStep) (hp : s.Possible step) {s' : MpscRing}
    (hstep : MpscRing.exec crc shape s step = s') : Reached crc shape s' := by
  rw [← hstep]
  exact h.step step hp

/-- `zero_consumed`. -/
theorem Reached.release {advance k : ℕ} (h : Reached crc shape s) (hk : k ≤ advance)
    (hrelease : s.consumer = .release advance k none) :
    ∃ s', Reached crc shape s' ∧ s'.consumer = .load ∧ s'.claimPosition = s.claimPosition ∧
      s'.consumerPosition = s.consumerPosition + advance ∧ s'.producers = s.producers ∧
      s'.answers = s.answers := by
  induction hm : advance - k generalizing k s with
  | zero =>
    obtain rfl : k = advance := by omega
    have hword : exec crc shape s (.consume false) =
        { s.storeWord (s.consumerPosition % shape.capacity) 0 with
          consumer := .release k (k + 1) none } := by
      show s.consume crc shape false = _
      unfold consume
      rw [hrelease]
      dsimp only
      rw [if_neg (by omega), if_pos rfl]
    have hreached := h.step (.consume false) (fun hno => nomatch hno)
    rw [hword] at hreached
    have hlast := hreached.step (.consume false) (fun hno => nomatch hno)
    refine ⟨_, hlast, ?_⟩
    have hstep : ∀ s : MpscRing, s.consumer = .release k (k + 1) none →
        exec crc shape s (.consume false) =
          { s with consumerPosition := s.consumerPosition + k, consumer := .load } := by
      intro s hs
      show s.consume crc shape false = _
      unfold consume
      rw [hs]
      dsimp only
      rw [if_neg (by omega), if_neg (by omega)]
    rw [hstep _ rfl]
    exact ⟨rfl, rfl, rfl, rfl, rfl⟩
  | succ m ih =>
    have hbyte : exec crc shape s (.consume false) =
        { s.storeByte (s.consumerPosition % shape.capacity + k) 0 with
          consumer := .release advance (k + 1) none } := by
      show s.consume crc shape false = _
      unfold consume
      rw [hrelease]
      dsimp only
      rw [if_pos (by omega)]
    have hreached := h.step (.consume false) (fun hno => nomatch hno)
    rw [hbyte] at hreached
    have hrest := ih hreached (by omega) rfl (by omega)
    exact hrest

theorem Reached.consume (h : Reached crc shape s) (elapsed : Bool)
    (hp : elapsed = true → s.consumer.isClaimed = true → s.OnlyCommits) {s' : MpscRing}
    (hstep : s.consume crc shape elapsed = s') : Reached crc shape s' := by
  rw [← hstep]
  exact h.step (.consume elapsed) hp

theorem Reached.skip (h : Reached crc shape s) (advance : ℕ) (hidle : s.consumer = .idle)
    (hword : s.wordAt (s.consumerPosition % shape.capacity) =
      encodeCommitWord (lapOf s.consumerPosition shape.capacity) advance true)
    (hadvance : 4 ≤ advance) (halign : alignRecordSize advance = advance) (hmax : advance ≤ shape.maxRecord)
    (htail : advance ≤ shape.bytesToTail s.consumerPosition)
    (hclaim : s.claimPosition = s.consumerPosition + advance) (honly : s.OnlyCommits) :
    ∃ s', Reached crc shape s' ∧ s'.claimPosition = s.claimPosition ∧
      s'.consumerPosition = s.consumerPosition + advance ∧ s'.producers = s.producers ∧
      s'.answers = s.answers := by
  obtain ⟨word, hw⟩ : ∃ word, word = s.wordAt (s.consumerPosition % shape.capacity) := ⟨_, rfl⟩
  have hclass : classifyCommitWord word (lapOf s.consumerPosition shape.capacity) = .claimed advance := by
    rw [hw, hword]
    exact classifyCommitWord_claim (hmax.trans_lt shape.maxRecord_lt)
  have h1 : Reached crc shape { s with consumer := .load } := h.step .tryRead hidle
  have h2 : Reached crc shape { s with consumer := .claimed word advance } := by
    refine h1.consume false (fun hno => nomatch hno) ?_
    unfold MpscRing.consume
    dsimp only
    rw [show wordAt { s with consumer := .load } (s.consumerPosition % shape.capacity) = word from hw.symm,
      hclass]
  have h3 : Reached crc shape { s with consumer := .frontier word advance } := by
    refine h2.consume true (fun _ _ => honly) ?_
    unfold MpscRing.consume
    dsimp only
    rw [if_neg (by decide), if_neg (by omega)]
  have h4 : Reached crc shape { s with consumer := .mark word advance } := by
    refine h3.consume false (fun hno => nomatch hno) ?_
    unfold MpscRing.consume
    dsimp only
    rw [if_neg (by omega)]
  have h5 : Reached crc shape { s.storeWord (s.consumerPosition % shape.capacity)
          (encodeCommitWord (lapOf s.consumerPosition shape.capacity) 0 true) with
        consumer := .release advance 4 none
        skipped := s.skipped ++ [s.consumerPosition] } := by
    refine h4.consume false (fun hno => nomatch hno) ?_
    exact if_pos hw.symm
  obtain ⟨s', hs', -, hrest⟩ := h5.release hadvance rfl
  exact ⟨s', hs', hrest⟩

variable (crc) in
/-- A producer claims, stamps and dies, and the consumer skips what it claimed. -/
theorem reached_skip (hheader : r.headerExtra.length = 8) (htype : r.msgType.toNat ≠ paddingMsgType)
    (hr : r.total ≤ shape.maxMsgSize) (hle : alignRecordSize r.total ≤ shape.capacity) :
    ∃ s, Reached crc shape s ∧ s.claimPosition = alignRecordSize r.total ∧
      s.consumerPosition = alignRecordSize r.total ∧ s.producers = [⟨0, .dead⟩] ∧ s.answers = [] := by
  obtain ⟨c, hc⟩ : ∃ c : PendingClaim, c = ⟨0, .record r⟩ := ⟨_, rfl⟩
  have hentry : shape.entryAt 0 r = .record r := by
    unfold entryAt bytesToTail
    rw [Nat.zero_mod, Nat.sub_zero, if_neg (by omega)]
  have hneed : shape.needed 0 r = alignRecordSize r.total := by
    unfold needed bytesToTail
    rw [Nat.zero_mod, Nat.sub_zero, if_neg (by omega)]
  have hsmall : alignRecordSize r.total ≤ shape.maxRecord :=
    le_min (alignRecordSize_mono hr) ((alignRecordSize_mono hr).trans shape.fits)
  have h0 : Reached crc shape create := ⟨[], trivial, rfl⟩
  have h1 : Reached crc shape { create with producers := [⟨0, .load r⟩] } := by
    refine h0.via (.tryWrite 0 r) ⟨fun p hp => ?_, hheader⟩ ?_
    · cases hp
      rfl
    · show (if _ then _ else if _ then _ else _) = _
      rw [if_neg htype, if_neg (by omega)]
      rfl
  have h2 : Reached crc shape { create with producers := [⟨0, .claim r 0⟩] } := by
    refine h1.via (.produce 0 false) trivial ?_
    show (if shape.free 0 0 < shape.needed 0 r then _ else _) = _
    rw [hneed, if_neg (by unfold free; omega)]
    rfl
  have h3 : Reached crc shape { create with
        producers := [⟨0, .stamp r c⟩]
        claimPosition := alignRecordSize r.total
        claims := [c] } := by
    refine h2.via (.produce 0 false) trivial ?_
    unfold exec produce
    simp [create, setProducer, hentry, RingEntry.span, hc]
  have h4 : Reached crc shape { create.storeWord 0 (c.claimWord shape) with
        producers := [⟨0, .body r c 0⟩]
        claimPosition := alignRecordSize r.total
        claims := [c] } := by
    refine h3.via (.produce 0 false) trivial ?_
    unfold exec produce
    simp [create, setProducer, storeWord, hc]
  have h5 : Reached crc shape { create.storeWord 0 (c.claimWord shape) with
        producers := [⟨0, .dead⟩]
        claimPosition := alignRecordSize r.total
        claims := [c] } := h4.via (.die 0) trivial rfl
  generalize hs : ({ create.storeWord 0 (c.claimWord shape) with
    producers := [⟨0, .dead⟩], claimPosition := _, claims := [c] } : MpscRing) = s at h5
  have hpos : s.consumerPosition = 0 := by rw [← hs]; rfl
  have hclaim : s.claimPosition = alignRecordSize r.total := by rw [← hs]
  have hproducers : s.producers = [⟨0, .dead⟩] := by rw [← hs]
  have hword : s.wordAt (s.consumerPosition % shape.capacity) =
      encodeCommitWord (lapOf s.consumerPosition shape.capacity) (alignRecordSize r.total) true := by
    have hstored := wordAt_storeWord create 0
        (encodeCommitWord_lt (lapOf c.pos shape.capacity) c.entry.span true)
    rw [hpos, Nat.zero_mod, ← hs]
    rw [hc] at hstored ⊢
    exact hstored
  have honly : s.OnlyCommits := by
    intro p hp c' hc'
    rw [hproducers, List.mem_singleton] at hp
    rw [hp] at hc'
    cases hc'
  have hleast := r.leastRecord_le
  unfold leastRecord recordHeaderLen recordTrailerLen at hleast
  obtain ⟨s', hs', hclaim', hconsumer', hproducers', hanswers'⟩ := h5.skip (alignRecordSize r.total)
    (by rw [← hs]; rfl) hword (by unfold alignRecordSize recordAlign; omega)
    (by unfold alignRecordSize recordAlign; omega) hsmall
    (by unfold bytesToTail; rw [hpos, Nat.zero_mod]; omega) (by omega) honly
  refine ⟨s', hs', hclaim'.trans hclaim, ?_, hproducers'.trans hproducers, ?_⟩
  · rw [hconsumer', hpos, Nat.zero_add]
  · rw [hanswers', ← hs]
    rfl

theorem fits_of_progress (h : Progress crc shape) : shape.Fits := by
  by_contra hfits
  obtain ⟨hleast, hsize⟩ := RingShape.not_fits hfits
  have htotal := total_blankRecord hleast
  have hneeded : ∀ s : MpscRing, Reached crc shape s → s.consumerPosition = s.claimPosition →
      ∀ i : ℕ, s.producers[i]? = some ⟨0, .idle⟩ →
        shape.needed s.claimPosition (blankRecord shape.maxMsgSize) ≤ shape.capacity := by
    rintro s ⟨steps, hadmits, rfl⟩ hread i hp
    by_contra hlt
    have hends := h steps hadmits hread i 0 hp (blankRecord shape.maxMsgSize) rfl blankRecord_type htotal.le
    generalize run crc shape create steps = s at hread hp hlt hends
    have hw : Writing s.answers i s.claimPosition s.claimPosition .idle s := ⟨⟨0, hp⟩, rfl, rfl, hread⟩
    have hstart : exec crc shape s (.tryWrite i (blankRecord shape.maxMsgSize)) =
        s.setProducer i ⟨0, .load (blankRecord shape.maxMsgSize)⟩ :=
          exec_tryWrite hp blankRecord_type htotal.le
    rw [hstart] at hends
    exact not_ends_of_needed (hw.set 0) (Nat.not_le.mp hlt) hends
  rcases hsize with hlt | ⟨hle, h32, hhalf⟩
  · have hneed := hneeded create ⟨[], trivial, rfl⟩ rfl 0 rfl
    unfold needed at hneed
    rw [htotal] at hneed
    split at hneed <;> omega
  · obtain ⟨A, hA⟩ : ∃ A, A = alignRecordSize shape.maxMsgSize := ⟨_, rfl⟩
    rw [← hA] at hle h32 hhalf
    have hsmall : (blankRecord (A - 8)).total = A - 8 := by
      refine total_blankRecord ?_
      unfold leastRecord recordHeaderLen recordTrailerLen
      omega
    have hsmaller : A - 8 ≤ shape.maxMsgSize ∧ alignRecordSize (A - 8) = A - 8 := by
      rw [hA]
      unfold alignRecordSize recordAlign
      omega
    obtain ⟨s, hs, hclaim, hconsumer, hproducers, -⟩ := reached_skip crc (r := blankRecord (A - 8)) rfl
      blankRecord_type (hsmall.trans_le hsmaller.1) (by rw [hsmall, hsmaller.2]; omega)
    have hattached : Reached crc shape { s with producers := s.producers ++ [⟨0, .idle⟩] } :=
      hs.step .attach trivial
    have hneed := hneeded _ hattached (hconsumer.trans hclaim.symm) 1 (by rw [hproducers]; rfl)
    dsimp only at hneed
    rw [hclaim, hsmall, hsmaller.2] at hneed
    unfold needed bytesToTail at hneed
    rw [htotal, ← hA, Nat.mod_eq_of_lt (show A - 8 < shape.capacity by omega), if_pos (by omega)] at hneed
    omega

theorem progress_iff : Progress crc shape ↔ shape.Fits := ⟨fits_of_progress, progress_of_fits⟩

end MpscRing

/-! ## The three rings -/

/-- Every write to a ring that was read empty ends with its record in it, wherever
    the ring is, if and only if the sizes of the ring fit. -/
theorem progress_iff_fits (crc : Bytes → UInt32) :
    (∀ shape : RingShape, SpscRing.Progress shape ↔ shape.Fits) ∧
      (∀ shape : MpscShape, MpscRing.Progress crc shape ↔ shape.Fits) ∧
        ∀ shape : RingShape, BroadcastRing.Progress crc shape ↔ shape.Holds :=
  ⟨fun _ => SpscRing.progress_iff, fun _ => MpscRing.progress_iff, fun _ => BroadcastRing.progress_iff⟩

/-- A ring whose largest record is as large as itself. -/
def wholeRing : RingShape := .sixtyFour

theorem full_though_read_empty :
    (SpscRing.run wholeRing SpscRing.create [.tryWrite (blankRecord 56), .tryRead]).publishPosition = 56 ∧
      (SpscRing.run wholeRing SpscRing.create [.tryWrite (blankRecord 56), .tryRead]).consumerPosition = 56 ∧
      (blankRecord 64).total ≤ wholeRing.maxMsgSize ∧
      ¬ (SpscRing.run wholeRing SpscRing.create [.tryWrite (blankRecord 56), .tryRead]).Succeeds
          wholeRing (blankRecord 64) := by
  refine ⟨by decide, by decide, by decide, ?_⟩
  rintro ⟨calls, s', hw⟩
  cases calls with
  | zero => cases hw
  | succ calls =>
    rw [SpscRing.tryWrite_full calls (by decide) (by decide)] at hw
    cases hw

end UltimaCluster
