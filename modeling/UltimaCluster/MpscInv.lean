/-
  The ring of many producers delivers exactly once.

  A producer that the consumer skipped goes by the first word of its slot, and by
  that alone, to find out.  As long as no such producer finds its own claim word
  there again, be it in the slot of a later claim or in the payload of a later
  record, every claim stays with the producer that made it.
-/
import UltimaCluster.MpscLayout

namespace UltimaCluster

def WriteAnswer.okPos : WriteAnswer → Option ℕ
  | .ok pos => some pos
  | _ => none

namespace MpscRing

variable (crc : Bytes → UInt32) (shape : MpscShape)

/-- The record of a claim that was committed and that the consumer has passed. -/
def take? (s : MpscRing) (c : PendingClaim) : Option (ℕ × RingRecord) :=
  match c.entry with
  | .record r =>
    if c.pos < s.consumerPosition ∧ (r, .ok c.pos) ∈ s.answers then some (c.pos, r) else none
  | .padding _ => none

/-- What the consumer is to have been given, in the order of the claims. -/
def taken (s : MpscRing) : List (ℕ × RingRecord) := s.claims.filterMap s.take?

/-- The positions of the writes that were answered with `Ok`. -/
def okPositions (s : MpscRing) : List ℕ := s.answers.filterMap fun a => a.2.okPos

/-- Each answered record is read once, in order. -/
structure ExactlyOnce (s : MpscRing) : Prop where
  delivered : s.delivered = s.taken
  order : s.delivered.Pairwise fun a b => a.1 < b.1
  /-- No two writes are answered with `Ok` for one claim. -/
  answered : s.okPositions.Nodup
  claimed : ∀ r pos, (r, .ok pos) ∈ s.answers → ⟨pos, .record r⟩ ∈ s.claims
  skipped : ∀ pos ∈ s.skipped, ∀ r, (r, .ok pos) ∉ s.answers ∧ (pos, r) ∉ s.delivered
  refused : ∀ r pos, (r, .skipped pos) ∈ s.answers → pos ∈ s.skipped
  /-- A committed record is in its slot until it was read. -/
  kept : ∀ r pos, (r, .ok pos) ∈ s.answers → s.consumerPosition ≤ pos →
    Holds crc shape s ⟨pos, .record r⟩ .committed ∨
      pos = s.consumerPosition ∧ ∃ advance k, s.consumer = .release advance k (some r)
  reads : ∀ a ∈ s.reads, a ≠ .corrupt ∧ a ≠ .badCrc

/-- A record's commit that finds its claim word in the slot has not been passed by
    the consumer. -/
def Genuine (s : MpscRing) : MpscStep → Prop
  | .produce i _ => ∀ p ∈ s.producers[i]?, ∀ c ∈ p.pc.claim?, p.pc.finished = true →
      s.wordAt (c.pos % shape.capacity) = c.claimWord shape → s.consumerPosition ≤ c.pos
  | _ => True

instance (s : MpscRing) : (step : MpscStep) → Decidable (s.Genuine shape step)
  | .produce _ _ => inferInstanceAs (Decidable (∀ p ∈ _, ∀ c ∈ _, _))
  | .attach | .clone _ | .tryWrite _ _ | .die _ | .tryRead | .consume _ => .isTrue trivial

/-! ## Producers -/

/-- What `claim` lets through. -/
def Writes (r : RingRecord) : Prop :=
  r.headerExtra.length = 8 ∧ r.msgType.toNat ≠ paddingMsgType ∧ r.total ≤ shape.maxMsgSize

end MpscRing

namespace MpscWritePc

variable (crc : Bytes → UInt32) (shape : MpscShape)

/-- The stage that a `try_write` has brought its claim to. -/
def stage : MpscWritePc → SlotStage
  | .body _ _ k => .written k
  | .crc _ c _ => .written c.entry.fields.length
  | .trailer _ c _ k => .written (c.entry.fields.length + k)
  | .commit _ c => .written (c.entry.stored crc).length
  | _ => .bare

/-- What a `try_write` knows of itself. -/
def Local (cached : ℕ) : MpscWritePc → Prop
  | .idle | .dead => True
  | .load r | .reload r _ => MpscRing.Writes shape r
  | .claim r pos => MpscRing.Writes shape r ∧ pos + shape.needed pos r ≤ cached + shape.capacity
  | .stamp r c => MpscRing.Writes shape r ∧ (c.entry = .record r ∨ ∃ len, c.entry = .padding len)
  | .body r c k => MpscRing.Writes shape r ∧ (c.entry = .record r ∨ ∃ len, c.entry = .padding len) ∧
      k ≤ c.entry.fields.length
  | .crc r c again => c.entry = .record r ∧ MpscRing.Writes shape r ∧
      ∃ k ≤ c.entry.fields.length, again = c.entry.fields.take k
  | .trailer r c sum k => c.entry = .record r ∧ MpscRing.Writes shape r ∧
      sum = crc c.entry.fields ∧ k ≤ 4
  | .commit r c => MpscRing.Writes shape r ∧ (c.entry = .record r ∨ ∃ len, c.entry = .padding len)

end MpscWritePc

namespace MpscRing

variable (crc : Bytes → UInt32) (shape : MpscShape)

/-- The consumer is done with the claim. -/
def Passed (stage : ℕ → SlotStage) (s : MpscRing) (pos : ℕ) : Prop :=
  pos < s.consumerPosition ∨
    pos = s.consumerPosition ∧ pos < s.claimPosition ∧ ∃ k, stage pos = .leaving k

/-- What a producer knows. -/
structure Producing (stage : ℕ → SlotStage) (s : MpscRing) (p : MpscProducer) : Prop where
  cached : p.cachedConsumerPos ≤ s.consumerPosition
  own : p.pc.Local crc shape p.cachedConsumerPos
  claim : ∀ c ∈ p.pc.claim?, c ∈ s.claims ∧
    (s.consumerPosition ≤ c.pos ∧ stage c.pos = p.pc.stage crc ∨
      p.pc.finished = true ∧ c.pos ∈ s.skipped ∧ Passed stage s c.pos)

/-- Distinct producers have distinct claims. -/
def Unique (ps : List MpscProducer) : Prop :=
  ∀ (i j : ℕ) (p q : MpscProducer), ps[i]? = some p → ps[j]? = some q →
    ∀ c ∈ p.pc.claim?, ∀ d ∈ q.pc.claim?, c.pos = d.pos → i = j

/-! ## The consumer -/

/-- What a `try_read` relies on. -/
def Consuming (stage : ℕ → SlotStage) (s : MpscRing) : MpscReadPc → Prop
  | .idle | .load | .empty => True
  | .claimed word advance => ∃ c ∈ s.claims, c.pos = s.consumerPosition ∧
      word = c.claimWord shape ∧ advance = c.entry.span
  | .frontier word advance | .mark word advance => s.OnlyCommits ∧ ∃ c ∈ s.claims,
      c.pos = s.consumerPosition ∧ word = c.claimWord shape ∧ advance = c.entry.span
  | .read length out => ∃ c ∈ s.claims, c.pos = s.consumerPosition ∧ stage c.pos = .committed ∧
      length = c.entry.commitLen ∧ c.entry.Copied crc out
  | .release advance k got => ∃ c ∈ s.claims, c.pos = s.consumerPosition ∧
      advance = c.entry.span ∧ stage c.pos = .leaving k ∧ 4 ≤ k ∧ k ≤ advance + 1 ∧
      (k = advance + 1 → ∀ i < 4, s.cells (c.offset shape + i) = 0) ∧
      (∀ r, got = some r → c.entry = .record r ∧ (r, .ok c.pos) ∈ s.answers) ∧
      (got = none → ∀ r, (r, .ok c.pos) ∉ s.answers)

/-! ## Answers -/

/-- What the answers say. -/
structure Answered (stage : ℕ → SlotStage) (s : MpscRing) : Prop where
  claimed : ∀ r pos, (r, .ok pos) ∈ s.answers → ⟨pos, .record r⟩ ∈ s.claims
  committed : ∀ c ∈ s.claims, s.consumerPosition ≤ c.pos → stage c.pos = .committed →
    ∀ r, c.entry = .record r → (r, .ok c.pos) ∈ s.answers
  pending : ∀ c ∈ s.claims, s.consumerPosition ≤ c.pos → (stage c.pos).busy = true →
    ∀ r, (r, .ok c.pos) ∉ s.answers
  nodup : s.okPositions.Nodup
  skipped : ∀ pos ∈ s.skipped, (∀ r, (r, .ok pos) ∉ s.answers) ∧ Passed stage s pos
  refused : ∀ r pos, (r, .skipped pos) ∈ s.answers → pos ∈ s.skipped
  delivered : s.delivered = s.taken
  reads : ∀ a ∈ s.reads, a ≠ .corrupt ∧ a ≠ .badCrc

/-- The invariant of a run. -/
structure Inv (stage : ℕ → SlotStage) (s : MpscRing) : Prop where
  layout : Layout shape s
  memory : Memory crc shape stage s
  producing : ∀ p ∈ s.producers, Producing crc shape stage s p
  unique : Unique s.producers
  consuming : Consuming crc shape stage s s.consumer
  leaving : ∀ c ∈ s.claims, s.consumerPosition ≤ c.pos → ∀ k, stage c.pos = .leaving k →
    c.pos = s.consumerPosition ∧ ∃ advance got, s.consumer = .release advance k got
  answered : Answered stage s

variable {crc shape} {s s' : MpscRing} {stage stage' : ℕ → SlotStage} {p p' : MpscProducer}
  {c : PendingClaim} {i : ℕ}

theorem inv_create : Inv crc shape (fun _ => .bare) create where
  layout := {
    ok := by rintro c ⟨⟩
    below := by rintro c ⟨⟩
    ordered := .nil
    next := by rintro c ⟨⟩
    head := .inl rfl
    room := Nat.zero_le _
    aligned := dvd_zero _ }
  memory := ⟨by rintro c ⟨⟩, fun _ _ _ => rfl⟩
  producing := by
    rintro p hp
    rw [List.mem_singleton.mp hp]
    exact ⟨le_rfl, trivial, by rintro c ⟨⟩⟩
  unique := by
    rintro i j p q hp hq c hc
    have hidle := List.mem_of_getElem? hp
    rw [List.mem_singleton.mp hidle] at hc
    cases hc
  consuming := trivial
  leaving := by rintro c ⟨⟩
  answered := {
    claimed := by rintro r pos ⟨⟩
    committed := by rintro c ⟨⟩
    pending := by rintro c ⟨⟩
    nodup := .nil
    skipped := by rintro pos ⟨⟩
    refused := by rintro r pos ⟨⟩
    delivered := rfl
    reads := by rintro a ⟨⟩ }

theorem take?_eq_some {x : ℕ × RingRecord} (h : s.take? c = some x) :
    x.1 = c.pos ∧ x.1 < s.consumerPosition ∧ (x.2, .ok x.1) ∈ s.answers := by
  unfold take? at h
  cases hentry : c.entry with
  | padding len =>
    rw [hentry] at h
    cases h
  | record r =>
    rw [hentry] at h
    dsimp only at h
    split at h
    · rename_i hcond
      cases h
      exact ⟨rfl, hcond⟩
    · cases h

theorem take?_of_le (h : s.consumerPosition ≤ c.pos) : s.take? c = none := by
  unfold take?
  cases c.entry with
  | padding len => rfl
  | record r => exact if_neg fun hcond => absurd hcond.1 (not_lt.mpr h)

theorem Inv.exactlyOnce (h : Inv crc shape stage s) : ExactlyOnce crc shape s := by
  have hordered : s.taken.Pairwise fun a b => a.1 < b.1 := by
    refine List.pairwise_filterMap.mpr (h.layout.ordered.imp_of_mem ?_)
    rintro a b ha hb hab x hx y hy
    have h4 := (h.layout.ok a ha).four_le
    rw [(take?_eq_some hx).1, (take?_eq_some hy).1]
    omega
  have htaken : ∀ pos r, (pos, r) ∈ s.taken → (r, .ok pos) ∈ s.answers := by
    intro pos r hmem
    obtain ⟨c, hc, heq⟩ := List.mem_filterMap.mp hmem
    exact (take?_eq_some heq).2.2
  exact { h.answered with
    order := h.answered.delivered ▸ hordered
    answered := h.answered.nodup
    skipped := fun pos hpos r => by
      have hno := (h.answered.skipped pos hpos).1 r
      exact ⟨hno, fun hmem => hno (htaken pos r (h.answered.delivered ▸ hmem))⟩
    kept := fun r pos hok hle => by
      have hc := h.answered.claimed r pos hok
      cases hst : stage pos with
      | bare => exact absurd hok (h.answered.pending _ hc hle (by rw [hst]; rfl) r)
      | written k => exact absurd hok (h.answered.pending _ hc hle (by rw [hst]; rfl) r)
      | committed =>
        have hholds := h.memory.live _ hc hle
        dsimp only at hholds
        rw [hst] at hholds
        exact .inl hholds
      | leaving k =>
        obtain ⟨heq, advance, got, hpc⟩ := h.leaving _ hc hle k hst
        refine .inr ⟨heq, advance, k, ?_⟩
        have hcons := h.consuming
        rw [hpc] at hcons ⊢
        obtain ⟨d, hd, hdpos, -, -, -, -, -, hsome, hnone⟩ := hcons
        have heqd : d = ⟨pos, .record r⟩ := h.layout.pos_inj hd hc (hdpos.trans heq.symm)
        cases got with
        | none =>
          refine absurd hok ?_
          have := hnone rfl r
          rwa [heqd] at this
        | some r' =>
          have := (hsome r' rfl).1
          rw [heqd] at this
          rw [RingEntry.record.inj this] }

end MpscRing

end UltimaCluster
