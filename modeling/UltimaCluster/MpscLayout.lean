/-
  What the buffer of the ring of many producers holds.

  The claims are laid out one behind the other, and those that the consumer has
  not passed have the buffer to themselves: none of them shares a byte with
  another or with the room that is left.  Each has got to some stage, which the
  first word and the bytes behind it show.
-/
import UltimaCluster.MpscSlots
import Mathlib.Data.List.Pairwise

namespace UltimaCluster

namespace PendingClaim

variable (shape : MpscShape) (c : PendingClaim)

def offset : ℕ := c.pos % shape.capacity

/-- The bytes of the buffer that are claimed. -/
def Covers (x : ℕ) : Prop := c.offset shape ≤ x ∧ x < c.offset shape + c.entry.span

/-- Neither reaches into the other. -/
def Apart (d : PendingClaim) : Prop :=
  c.pos + c.entry.span ≤ d.pos ∨ d.pos + d.entry.span ≤ c.pos

instance : Std.Symm Apart := ⟨fun _ _ h => h.symm⟩

/-- A claim fits its place. -/
structure Ok : Prop where
  entry : c.entry.Ok
  size : c.entry.span ≤ shape.maxRecord
  fits : c.offset shape + c.entry.span ≤ shape.capacity
  padding : ∀ len, c.entry = .padding len → len = shape.bytesToTail c.pos

end PendingClaim

/-- How far a claim has got. -/
inductive SlotStage where
  | bare
  /-- The claim word is stored, and `k` bytes behind it. -/
  | written (k : ℕ)
  | committed
  /-- The consumer is done with it and has cleared it up to byte `k`. -/
  | leaving (k : ℕ)
deriving DecidableEq

/-- The claim is still with its producer. -/
def SlotStage.busy : SlotStage → Bool
  | .bare | .written _ => true
  | .committed | .leaving _ => false

namespace MpscRing

variable (crc : Bytes → UInt32) (shape : MpscShape)

/-- What the slot of a claim shows at a stage. -/
def Holds (s : MpscRing) (c : PendingClaim) : SlotStage → Prop
  | .bare => s.wordAt (c.offset shape) = 0
  | .written k => s.wordAt (c.offset shape) = c.claimWord shape ∧
      ∀ i < k, (c.entry.stored crc)[i]? = some (s.cells (c.offset shape + 4 + i))
  | .committed => s.wordAt (c.offset shape) = c.commitWord shape ∧
      ∀ i < (c.entry.stored crc).length,
        (c.entry.stored crc)[i]? = some (s.cells (c.offset shape + 4 + i))
  | .leaving k => s.wordAt (c.offset shape) ≠ c.claimWord shape ∧
      ∀ i, 4 ≤ i → i < k → i < c.entry.span → s.cells (c.offset shape + i) = 0

/-- The claims tile the ring. -/
structure Layout (s : MpscRing) : Prop where
  ok : ∀ c ∈ s.claims, c.Ok shape
  below : ∀ c ∈ s.claims, c.pos + c.entry.span ≤ s.claimPosition
  ordered : s.claims.Pairwise fun a b => a.pos + a.entry.span ≤ b.pos
  next : ∀ c ∈ s.claims,
    c.pos + c.entry.span = s.claimPosition ∨ ∃ d ∈ s.claims, d.pos = c.pos + c.entry.span
  head : s.consumerPosition = s.claimPosition ∨ ∃ c ∈ s.claims, c.pos = s.consumerPosition
  room : s.claimPosition ≤ s.consumerPosition + shape.capacity
  aligned : recordAlign ∣ s.claimPosition

/-- Every claim that the consumer has not passed is at its stage, and what nobody
    claimed is zero. -/
structure Memory (stage : ℕ → SlotStage) (s : MpscRing) : Prop where
  live : ∀ c ∈ s.claims, s.consumerPosition ≤ c.pos → Holds crc shape s c (stage c.pos)
  blank : ∀ w, s.claimPosition ≤ w → w < s.consumerPosition + shape.capacity →
    s.cells (w % shape.capacity) = 0

end MpscRing

namespace MpscShape

variable (shape : MpscShape)

theorem maxRecord_lt : shape.maxRecord < 2 ^ 18 :=
  lt_of_le_of_lt (min_le_right _ _) (by decide)

theorem mod_inj {n w w' : ℕ} (hw : n ≤ w) (hw' : n ≤ w') (h : w < n + shape.capacity)
    (h' : w' < n + shape.capacity) (heq : w % shape.capacity = w' % shape.capacity) : w = w' := by
  have hle := Lap.le_of_mod_eq heq (by omega)
  have hge := Lap.le_of_mod_eq heq.symm (by omega)
  omega

end MpscShape

namespace PendingClaim

variable {shape : MpscShape} {c : PendingClaim}

theorem Ok.four_le (h : c.Ok shape) : 4 ≤ c.entry.span :=
  (c.entry.four_le_length (fun _ => 0) h.entry).trans (c.entry.length_bytes_le (fun _ => 0) h.entry)

theorem Ok.size_lt (h : c.Ok shape) : c.entry.span < 2 ^ 18 := h.size.trans_lt shape.maxRecord_lt

theorem Ok.offset_add (h : c.Ok shape) {i : ℕ} (hi : i < c.entry.span) :
    c.offset shape + i = (c.pos + i) % shape.capacity := by
  have hfits := h.fits
  rw [← Nat.mod_add_mod]
  exact (Nat.mod_eq_of_lt (by omega)).symm

theorem Ok.covers_iff (h : c.Ok shape) {x : ℕ} :
    c.Covers shape x ↔ ∃ i < c.entry.span, x = (c.pos + i) % shape.capacity := by
  constructor
  · rintro ⟨hle, hlt⟩
    refine ⟨x - c.offset shape, by omega, ?_⟩
    rw [← h.offset_add (by omega)]
    omega
  · rintro ⟨i, hi, rfl⟩
    rw [← h.offset_add hi]
    exact ⟨by omega, by omega⟩

end PendingClaim

namespace MpscRing

variable {crc : Bytes → UInt32} {shape : MpscShape} {s s' : MpscRing} {stage : ℕ → SlotStage}
  {c d : PendingClaim}

/-! ## The layout -/

theorem Layout.apart (h : Layout shape s) (hc : c ∈ s.claims) (hd : d ∈ s.claims) (hne : c ≠ d) :
    c.Apart d := by
  have hapart : s.claims.Pairwise PendingClaim.Apart := h.ordered.imp fun hab => .inl hab
  exact hapart.forall hc hd hne

theorem Layout.pos_inj (h : Layout shape s) (hc : c ∈ s.claims) (hd : d ∈ s.claims)
    (heq : c.pos = d.pos) : c = d := by
  by_contra hne
  have hcpos := (h.ok c hc).four_le
  have hdpos := (h.ok d hd).four_le
  rcases h.apart hc hd hne with hlt | hlt <;> omega

theorem Layout.behind_head (h : Layout shape s) (hc : c ∈ s.claims) (hd : d ∈ s.claims)
    (hpos : c.pos = s.consumerPosition) (hle : s.consumerPosition ≤ d.pos) (hne : d.pos ≠ c.pos) :
    c.pos + c.entry.span ≤ d.pos := by
  rcases h.apart hc hd (fun heq => hne (heq ▸ rfl)) with hlt | hlt <;> omega

theorem Layout.not_covers (h : Layout shape s) (hc : c ∈ s.claims) (hd : d ∈ s.claims)
    (hlc : s.consumerPosition ≤ c.pos) (hld : s.consumerPosition ≤ d.pos) (hne : d.pos ≠ c.pos) {x : ℕ}
    (hx : c.Covers shape x) : ¬ d.Covers shape x := by
  rw [(h.ok c hc).covers_iff] at hx
  rw [(h.ok d hd).covers_iff]
  obtain ⟨i, hi, rfl⟩ := hx
  rintro ⟨j, hj, heq⟩
  have hcb := h.below c hc
  have hdb := h.below d hd
  have hroom := h.room
  have hpos := shape.mod_inj (n := s.consumerPosition) (by omega) (by omega) (by omega) (by omega) heq
  rcases h.apart hc hd (fun hcd => hne (hcd ▸ rfl)) with hlt | hlt <;> omega

theorem Layout.blank_not_covers (h : Layout shape s) (hc : c ∈ s.claims)
    (hlc : s.consumerPosition ≤ c.pos) {w : ℕ} (hw : s.claimPosition ≤ w)
    (hlt : w < s.consumerPosition + shape.capacity) : ¬ c.Covers shape (w % shape.capacity) := by
  rw [(h.ok c hc).covers_iff]
  rintro ⟨i, hi, heq⟩
  have hcb := h.below c hc
  have hpos := shape.mod_inj (n := s.consumerPosition) (by omega) (by omega) (by omega) (by omega) heq
  omega

/-! ## Stages -/

theorem lt_length_of_some {l : Bytes} {i : ℕ} {b : UInt8} (h : l[i]? = some b) : i < l.length :=
  (List.getElem?_eq_some_iff.mp h).1

theorem Holds.congr (hok : c.Ok shape) {st : SlotStage}
    (hcells : ∀ x, c.Covers shape x → s'.cells x = s.cells x) (h : Holds crc shape s c st) :
    Holds crc shape s' c st := by
  have hstored := c.entry.length_stored crc hok.entry
  have hword : s'.wordAt (c.offset shape) = s.wordAt (c.offset shape) :=
    wordAt_congr fun x hx hlt => hcells x ⟨hx, by omega⟩
  have hbytes : ∀ i < (c.entry.stored crc).length,
      s'.cells (c.offset shape + 4 + i) = s.cells (c.offset shape + 4 + i) :=
    fun i hi => hcells _ ⟨by omega, by omega⟩
  cases st with
  | bare => exact hword.trans h
  | written k =>
    refine ⟨hword.trans h.1, fun i hi => ?_⟩
    rw [hbytes i (lt_length_of_some (h.2 i hi))]
    exact h.2 i hi
  | committed =>
    refine ⟨hword.trans h.1, fun i hi => ?_⟩
    rw [hbytes i hi]
    exact h.2 i hi
  | leaving k =>
    refine ⟨hword ▸ h.1, fun i h4i hik hi => ?_⟩
    rw [hcells _ ⟨by omega, by omega⟩]
    exact h.2 i h4i hik hi

theorem storeWord_cells_behind (s : MpscRing) (word : ℕ) {i : ℕ} :
    (s.storeWord (c.offset shape) word).cells (c.offset shape + 4 + i) =
      s.cells (c.offset shape + 4 + i) :=
  s.storeWord_cells_of_outside (by omega)

theorem Holds.stamp (s : MpscRing) (c : PendingClaim) :
    Holds crc shape (s.storeWord (c.offset shape) (c.claimWord shape)) c (.written 0) :=
  ⟨s.wordAt_storeWord _ (encodeCommitWord_lt _ _ _), fun i hi => absurd hi (Nat.not_lt_zero i)⟩

theorem Holds.write {k : ℕ} {b : UInt8} (h : Holds crc shape s c (.written k))
    (hb : (c.entry.stored crc)[k]? = some b) :
    Holds crc shape (s.storeByte (c.offset shape + 4 + k) b) c (.written (k + 1)) := by
  refine ⟨?_, fun i hi => ?_⟩
  · rw [wordAt_congr (s := s) fun x _ hx => s.storeByte_cells_ne b (by omega)]
    exact h.1
  · rcases Nat.lt_succ_iff_lt_or_eq.mp hi with hlt | rfl
    · rw [s.storeByte_cells_ne b (by omega)]
      exact h.2 i hlt
    · rw [s.storeByte_cells_self, hb]

theorem Holds.commit (h : Holds crc shape s c (.written (c.entry.stored crc).length)) :
    Holds crc shape (s.storeWord (c.offset shape) (c.commitWord shape)) c .committed := by
  refine ⟨s.wordAt_storeWord _ (encodeCommitWord_lt _ _ _), fun i hi => ?_⟩
  rw [storeWord_cells_behind]
  exact h.2 i hi

theorem Holds.mark (s : MpscRing) (hok : c.Ok shape) :
    Holds crc shape (s.storeWord (c.offset shape)
      (encodeCommitWord (lapOf c.pos shape.capacity) 0 true)) c (.leaving 4) := by
  refine ⟨?_, fun i h4 hlt => by omega⟩
  rw [s.wordAt_storeWord _ (encodeCommitWord_lt _ _ _)]
  have h4 := hok.four_le
  exact marker_ne_claim (by omega) hok.size_lt

theorem Holds.leave (h : Holds crc shape s c .committed) : Holds crc shape s c (.leaving 4) := by
  refine ⟨?_, fun i h4 hlt => by omega⟩
  rw [h.1]
  exact commit_ne_claim _ _ _ _

theorem Holds.clear {k : ℕ} (h4 : 4 ≤ k) (h : Holds crc shape s c (.leaving k)) :
    Holds crc shape (s.storeByte (c.offset shape + k) 0) c (.leaving (k + 1)) := by
  refine ⟨?_, fun i h4i hik hi => ?_⟩
  · rw [wordAt_congr (s := s) fun x _ hx => s.storeByte_cells_ne 0 (by omega)]
    exact h.1
  · rcases Nat.lt_succ_iff_lt_or_eq.mp hik with hlt | rfl
    · rw [s.storeByte_cells_ne 0 (by omega)]
      exact h.2 i h4i hlt hi
    · exact s.storeByte_cells_self _ 0

theorem Holds.clear_word (h : Holds crc shape s c (.leaving c.entry.span)) :
    Holds crc shape (s.storeWord (c.offset shape) 0) c (.leaving (c.entry.span + 1)) := by
  refine ⟨?_, fun i h4 _ hi => ?_⟩
  · rw [s.wordAt_storeWord _ (by decide)]
    exact zero_ne_claim _ _
  · rw [s.storeWord_cells_of_outside (by omega)]
    exact h.2 i h4 hi hi

/-! ## Writes -/

theorem Memory.write (h : Memory crc shape stage s) (hl : Layout shape s) (hc : c ∈ s.claims)
    (hlive : s.consumerPosition ≤ c.pos) {st : SlotStage} (hclaims : s'.claims = s.claims)
    (hclaim : s'.claimPosition = s.claimPosition)
    (hconsumer : s'.consumerPosition = s.consumerPosition)
    (hcells : ∀ x, ¬ c.Covers shape x → s'.cells x = s.cells x) (hst : Holds crc shape s' c st) :
    Memory crc shape (Function.update stage c.pos st) s' where
  live d hd hld := by
    rw [hclaims] at hd
    rw [hconsumer] at hld
    by_cases hpos : d.pos = c.pos
    · rw [hl.pos_inj hd hc hpos, Function.update_self]
      exact hst
    · rw [Function.update_of_ne hpos]
      refine (h.live d hd hld).congr (hl.ok d hd) fun x hx => hcells x fun hcx => ?_
      exact hl.not_covers hc hd hlive hld hpos hcx hx
  blank w hw hlt := by
    rw [hclaim] at hw
    rw [hconsumer] at hlt
    rw [hcells _ (hl.blank_not_covers hc hlive hw hlt)]
    exact h.blank w hw hlt

theorem Layout.claim (h : Layout shape s) (hok : c.Ok shape) (hpos : c.pos = s.claimPosition)
    (hroom : c.pos + c.entry.span ≤ s.consumerPosition + shape.capacity)
    (hclaims : s'.claims = s.claims ++ [c]) (hclaim : s'.claimPosition = c.pos + c.entry.span)
    (hconsumer : s'.consumerPosition = s.consumerPosition) : Layout shape s' where
  ok d hd := by
    rw [hclaims, List.mem_append, List.mem_singleton] at hd
    rcases hd with hd | rfl
    · exact h.ok d hd
    · exact hok
  below d hd := by
    rw [hclaims, List.mem_append, List.mem_singleton] at hd
    rw [hclaim]
    rcases hd with hd | rfl
    · have := h.below d hd
      omega
    · exact le_rfl
  ordered := by
    rw [hclaims, List.pairwise_append]
    refine ⟨h.ordered, List.pairwise_singleton _ _, ?_⟩
    rintro a ha b hb
    rw [List.mem_singleton.mp hb, hpos]
    exact h.below a ha
  next d hd := by
    rw [hclaims, List.mem_append, List.mem_singleton] at hd
    rw [hclaim, hclaims]
    rcases hd with hd | rfl
    · refine .inr ?_
      rcases h.next d hd with hlast | ⟨e, he, hnext⟩
      · exact ⟨c, List.mem_append_right _ (List.mem_singleton_self c), by omega⟩
      · exact ⟨e, List.mem_append_left _ he, hnext⟩
    · exact .inl rfl
  head := by
    rw [hclaims, hconsumer]
    rcases h.head with heq | ⟨d, hd, hdpos⟩
    · exact .inr ⟨c, List.mem_append_right _ (List.mem_singleton_self c), by omega⟩
    · exact .inr ⟨d, List.mem_append_left _ hd, hdpos⟩
  room := by
    rw [hclaim, hconsumer]
    exact hroom
  aligned := by
    rw [hclaim, hpos]
    exact (Nat.dvd_add_right h.aligned).mpr (c.entry.span_dvd hok.entry)

theorem Memory.claim (h : Memory crc shape stage s) (hl : Layout shape s) (hok : c.Ok shape)
    (hpos : c.pos = s.claimPosition)
    (hroom : c.pos + c.entry.span ≤ s.consumerPosition + shape.capacity)
    (hclaims : s'.claims = s.claims ++ [c]) (hclaim : s'.claimPosition = c.pos + c.entry.span)
    (hconsumer : s'.consumerPosition = s.consumerPosition) (hcells : s'.cells = s.cells) :
    Memory crc shape (Function.update stage c.pos .bare) s' where
  live d hd hld := by
    rw [hclaims, List.mem_append, List.mem_singleton] at hd
    rw [hconsumer] at hld
    rcases hd with hd | rfl
    · have hne : d.pos ≠ c.pos := by
        have hb := hl.below d hd
        have h4 := (hl.ok d hd).four_le
        omega
      rw [Function.update_of_ne hne]
      exact (h.live d hd hld).congr (hl.ok d hd) fun x _ => congrFun hcells x
    · rw [Function.update_self]
      refine wordAt_zero fun i hi => ?_
      have h4 := hok.four_le
      rw [hcells, hok.offset_add (by omega)]
      exact h.blank _ (by omega) (by omega)
  blank w hw hlt := by
    rw [hclaim] at hw
    rw [hconsumer] at hlt
    rw [hcells]
    exact h.blank w (by omega) hlt

theorem Layout.pass (h : Layout shape s) (hc : c ∈ s.claims) (hpos : c.pos = s.consumerPosition)
    (hclaims : s'.claims = s.claims) (hclaim : s'.claimPosition = s.claimPosition)
    (hconsumer : s'.consumerPosition = c.pos + c.entry.span) : Layout shape s' where
  ok d hd := h.ok d (hclaims ▸ hd)
  below d hd := by
    rw [hclaim]
    exact h.below d (hclaims ▸ hd)
  ordered := hclaims ▸ h.ordered
  next d hd := by
    rw [hclaim, hclaims]
    exact h.next d (hclaims ▸ hd)
  head := by
    rw [hclaim, hconsumer, hclaims]
    exact h.next c hc
  room := by
    have := h.room
    rw [hclaim, hconsumer]
    omega
  aligned := hclaim ▸ h.aligned

theorem Memory.pass (h : Memory crc shape stage s) (hl : Layout shape s) (hc : c ∈ s.claims)
    (hpos : c.pos = s.consumerPosition) (hclear : ∀ i < c.entry.span, s.cells (c.offset shape + i) = 0)
    (hclaims : s'.claims = s.claims) (hclaim : s'.claimPosition = s.claimPosition)
    (hconsumer : s'.consumerPosition = c.pos + c.entry.span) (hcells : s'.cells = s.cells) :
    Memory crc shape stage s' where
  live d hd hld := by
    rw [hclaims] at hd
    refine (h.live d hd (by omega)).congr (hl.ok d hd) fun x _ => congrFun hcells x
  blank w hw hlt := by
    rw [hclaim] at hw
    rw [hconsumer] at hlt
    rw [hcells]
    by_cases hlap : w < s.consumerPosition + shape.capacity
    · exact h.blank w hw hlap
    · -- a lap after a byte of the claim that is passed
      have hoff := (hl.ok c hc).offset_add (show w - shape.capacity - c.pos < c.entry.span by omega)
      have hmod : w % shape.capacity = c.offset shape + (w - shape.capacity - c.pos) := by
        have hw' : c.pos + (w - shape.capacity - c.pos) + shape.capacity = w := by omega
        rw [hoff, ← Nat.add_mod_right (c.pos + _), hw']
      rw [hmod]
      exact hclear _ (by omega)

end MpscRing

end UltimaCluster
