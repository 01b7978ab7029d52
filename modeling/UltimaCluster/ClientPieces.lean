/-
  The completions, and the pieces of a fan-in.

  The pieces that have come for a live request are those of the rings in its
  `received` word, in the buffer of its index; what an earlier request left there
  is dropped with its first piece.  So the last piece finds those of all the
  other rings.
-/
import UltimaCluster.ClientBooks

namespace UltimaCluster

open Function (update update_of_ne update_self)
open List (map_append map_singleton mem_append mem_singleton)
open Option (mem_def)
open SlotTable (setOwner setSlot setSlot_slotIndex slot slot_setSlot_self)

namespace ClientEngine

/-- Pieces that were delivered for the number, one from each ring of `P`. -/
structure PiecesOf (delivered : List (ℕ × ℕ × Bytes)) (s : ℕ) (P : ℕ → Prop)
    (parts : List (ℕ × Bytes)) : Prop where
  nodup : (parts.map (·.1)).Nodup
  rings : ∀ ring, ring ∈ parts.map (·.1) ↔ P ring
  sent : ∀ p ∈ parts, ∃ payload, (s, p.1, payload) ∈ delivered ∧ p.2 = payload.drop 8

variable (w : ClientEngine)

/-- The pieces that have come. -/
def Gathered (s : ℕ) (P : ℕ → Prop) : Prop :=
  PiecesOf w.delivered s P (w.fanin (w.table.slotIndex s)).parts

/-- The record in hand is the last piece of the number, from the ring. -/
def Closing (s ring : ℕ) : PollPc → Prop
  | .resolve r q (.userData _ _ first) | .resolve r q (.fanIn _ _ first _)
  | .resolve r q (.exchange _ _ first _ _) => q = s ∧ first = false ∧ ∃ a ∈ r.answer, a.1 = ring
  | _ => False

/-- What a completion says of the claim it is for. -/
structure Right (delivered : List (ℕ × ℕ × Bytes)) (x : Completion) (c : Claim) : Prop where
  userData : x.userData = c.body.userData
  query : ∀ body, x.outcome = .response body → c.body.kind = .query →
    ∃ p, x.position = some p ∧ c.body.minPosition ≤ p
  pieces : ∀ parts, x.outcome = .responses parts →
    PiecesOf delivered x.seq (fun ring => c.body.expected.testBit ring) parts

/-- The record in hand is all that its request awaits. -/
def LastPiece (r : EgressRecord) (s : ℕ) (first : Bool) : Prop :=
  ∀ a ∈ r.answer, ∀ c, w.claims s = some c →
    first = true ∧ c.body.expected = 1 <<< a.1 ∨
      first = false ∧ c.body.expected.testBit a.1 ∧ (w.table.slot s).received = c.body.expected

/-- The same when the slot is given up, and another request may have it. -/
def LastGathered (r : EgressRecord) (s : ℕ) (first : Bool) : Prop :=
  (∀ q, w.life q = .live → w.table.slotIndex q = w.table.slotIndex s →
    (w.table.slot q).received = 0) ∧
  ∀ a ∈ r.answer, ∀ c, w.claims s = some c →
    first = true ∧ c.body.expected = 1 <<< a.1 ∨
      first = false ∧ c.body.expected.testBit a.1 ∧
        w.Gathered s fun ring => c.body.expected.testBit ring ∧ ring ≠ a.1

def PiecesKnown : PollPc → Prop
  | .resolve r s stage =>
    (∀ a ∈ r.answer, (s, a.1, a.2.2) ∈ w.delivered) ∧
      match stage with
      | .userData _ _ first | .fanIn _ _ first _ | .exchange _ _ first _ _ => w.LastPiece r s first
      | .finish _ _ first _ _ => w.LastGathered r s first
      | _ => True
  | _ => True

/-- One completion for each number that is done, and what it says. -/
structure Settled : Prop where
  nodup : (w.completions.map (·.seq)).Nodup
  done : ∀ s, w.life s = .done ↔ s ∈ w.completions.map (·.seq)
  right : ∀ x ∈ w.completions, ∀ c, w.claims x.seq = some c → Right w.delivered x c
  received : ∀ s c, w.life s = .live → w.claims s = some c → ∀ ring,
    (w.table.slot s).received.testBit ring → c.body.expected.testBit ring
  gathered : ∀ s, w.life s = .live → (w.table.slot s).received ≠ 0 →
    w.Gathered s fun ring => (w.table.slot s).received.testBit ring ∧ ¬ Closing s ring w.poll
  poll : w.PiecesKnown w.poll

variable {w} {w' : ClientEngine} {s s₀ t i : ℕ}

section
variable {d d' : List (ℕ × ℕ × Bytes)} {P Q : ℕ → Prop} {parts : List (ℕ × Bytes)}

theorem PiecesOf.mono (h : PiecesOf d s P parts) (hd : ∀ x ∈ d, x ∈ d') : PiecesOf d' s P parts where
  nodup := h.nodup
  rings := h.rings
  sent p hp := by
    obtain ⟨payload, hin, heq⟩ := h.sent p hp
    exact ⟨payload, hd _ hin, heq⟩

theorem PiecesOf.congr (h : PiecesOf d s P parts) (hPQ : ∀ ring, P ring ↔ Q ring) :
    PiecesOf d s Q parts where
  nodup := h.nodup
  rings ring := (h.rings ring).trans (hPQ ring)
  sent := h.sent

theorem PiecesOf.concat {ring : ℕ} {payload : Bytes} (h : PiecesOf d s P parts) (hring : ¬ P ring)
    (hd : (s, ring, payload) ∈ d) :
    PiecesOf d s (fun r => P r ∨ r = ring) (parts ++ [(ring, payload.drop 8)]) where
  nodup := by
    rw [map_append, map_singleton, List.nodup_append]
    refine ⟨h.nodup, List.nodup_singleton _, fun a ha b hb => ?_⟩
    rw [mem_singleton] at hb
    rintro rfl
    subst hb
    exact hring ((h.rings a).mp ha)
  rings r := by
    rw [map_append, map_singleton, mem_append, mem_singleton, h.rings]
  sent p hp := by
    rw [mem_append, mem_singleton] at hp
    obtain hp | rfl := hp
    · exact h.sent p hp
    · exact ⟨payload, hd, rfl⟩

theorem piecesOf_nil : PiecesOf d s (fun _ => False) [] where
  nodup := List.nodup_nil
  rings ring := by simp
  sent p hp := by cases hp

theorem PiecesOf.perm (h : PiecesOf d s P parts) {parts' : List (ℕ × Bytes)}
    (hp : parts'.Perm parts) : PiecesOf d s P parts' where
  nodup := (hp.map _).nodup_iff.mpr h.nodup
  rings ring := ((hp.map _).mem_iff).trans (h.rings ring)
  sent p hin := h.sent p (hp.mem_iff.mp hin)

theorem PiecesOf.push {f : FanIn} {first : Bool} {ring : ℕ} {payload : Bytes}
    (h : PiecesOf d s P (if first then [] else f.parts)) (position : ℕ) (hring : ¬ P ring)
    (hd : (s, ring, payload) ∈ d) :
    PiecesOf d s (fun r => P r ∨ r = ring)
      (f.pushPiece first position ring (payload.drop 8)).parts := by
  have hparts : (f.pushPiece first position ring (payload.drop 8)).parts =
      (if first then [] else f.parts) ++ [(ring, payload.drop 8)] := by
    cases first <;> rfl
  rw [hparts]
  exact h.concat hring hd

theorem Right.mono {x : Completion} {c : Claim} (h : Right d x c) (hd : ∀ y ∈ d, y ∈ d') :
    Right d' x c where
  userData := h.userData
  query := h.query
  pieces parts hparts := (h.pieces parts hparts).mono hd

end

/-- What the senders leave alone. -/
structure Apart (w w' : ClientEngine) : Prop where
  fanin : w'.fanin = w.fanin
  delivered : w'.delivered = w.delivered
  completions : w'.completions = w.completions

theorem apart_senderStep (w : ClientEngine) (t : ℕ) (write : Except RingError Unit) :
    Apart w (w.senderStep t write) := by
  rw [senderStep]
  split <;> first
    | exact ⟨rfl, rfl, rfl⟩
    | (split <;> exact ⟨rfl, rfl, rfl⟩)

theorem apart_enter (w : ClientEngine) (t : ℕ) (call : ClientCall) (v : DoorView) :
    Apart w (w.enter t call v) := by
  rw [enter]
  split <;> exact ⟨rfl, rfl, rfl⟩

theorem Touches.born_live (htouch : Touches w w' t s₀) (hl : w'.life s = .live) :
    w.life s = .live ∧ w'.table.slot s = w.table.slot s ∨ (w'.table.slot s).received = 0 := by
  by_cases hne : s = s₀
  · subst hne
    exact htouch.born hl
  · rw [htouch.life s hne] at hl
    exact .inl ⟨hl, htouch.slot hne (.inr hl)⟩

variable {c : Claim}

theorem Touches.claims_kept (htouch : Touches w w' t s₀) (hc : w.claims s = some c) :
    w'.claims s = some c := by
  by_cases hne : s = s₀
  · subst hne
    exact htouch.kept c hc
  · rw [htouch.claims s hne, hc]

theorem Settled.touches (h : w.Settled) (hown : w.Own) (htouch : Touches w w' t s₀)
    (hapart : Apart w w') : w'.Settled where
  nodup := hapart.completions ▸ h.nodup
  done s := by
    rw [hapart.completions, ← h.done]
    by_cases hne : s = s₀
    · subst hne
      exact htouch.done
    · rw [htouch.life s hne]
  right x hx c hc := by
    rw [hapart.completions] at hx
    have hdone : w.life x.seq = .done := (h.done _).mpr (List.mem_map_of_mem hx)
    obtain ⟨c', hc'⟩ := hown.claim (s := x.seq) (by rw [hdone]; decide)
    rw [htouch.claims_kept hc', Option.some.injEq] at hc
    subst hc
    rw [hapart.delivered]
    exact h.right x hx c' hc'
  received s c hl hc ring hring := by
    obtain ⟨hlive, hslot⟩ | hzero := htouch.born_live hl
    · obtain ⟨c', hc'⟩ := hown.claim (s := s) (by rw [hlive]; decide)
      rw [htouch.claims_kept hc', Option.some.injEq] at hc
      subst hc
      exact h.received s c' hlive hc' ring (hslot ▸ hring)
    · rw [hzero, Nat.zero_testBit] at hring
      cases hring
  gathered s hl hne := by
    obtain ⟨hlive, hslot⟩ | hzero := htouch.born_live hl
    · rw [Gathered, htouch.slotIndex, hapart.fanin, hapart.delivered, hslot, htouch.poll]
      exact h.gathered s hlive (hslot ▸ hne)
    · exact absurd hzero hne
  poll := by
    rw [htouch.poll]
    have hpoll := h.poll
    have hknows := hown.poll
    cases hcase : w.poll with
    | resolve r q stage =>
      rw [hcase] at hpoll hknows
      obtain ⟨hsent, -, -, hknows⟩ := hknows
      have hq : q ≠ s₀ := by
        rintro rfl
        exact htouch.unsent hsent
      refine ⟨fun a ha => hapart.delivered ▸ hpoll.1 a ha, ?_⟩
      have hlast : ∀ first, w.life q = .live → w.LastPiece r q first → w'.LastPiece r q first := by
        intro first hl hlast a ha c hc
        rw [htouch.slot hq (.inr hl)]
        exact hlast a ha c ((htouch.claims q hq).symm.trans hc)
      cases stage with
      | userData min owner first | fanIn min owner first ud | exchange min owner first ud fi =>
        obtain ⟨c, ⟨-, hl, -⟩, -⟩ := hknows
        exact hlast first hl hpoll.2
      | finish min owner first ud fi =>
        refine ⟨fun q' hl hidx => ?_, fun a ha c hc => ?_⟩
        · rw [htouch.slotIndex, htouch.slotIndex] at hidx
          obtain ⟨hlive, hslot⟩ | hzero := htouch.born_live hl
          · rw [hslot]
            exact hpoll.2.1 q' hlive hidx
          · exact hzero
        · rw [Gathered, htouch.slotIndex, hapart.fanin, hapart.delivered]
          exact hpoll.2.2 a ha c ((htouch.claims q hq).symm.trans hc)
      | _ => trivial
    | _ => trivial

/-! ## Steps of the poll half -/

theorem testBit_bit (ring q : ℕ) : (1 <<< ring).testBit q = decide (ring = q) := by
  rw [Nat.one_shiftLeft, Nat.testBit_two_pow]

theorem or_bit_of_testBit {e ring : ℕ} (h : e.testBit ring = true) : e ||| 1 <<< ring = e := by
  apply Nat.eq_of_testBit_eq
  intro q
  rw [Nat.testBit_or, testBit_bit]
  by_cases hq : ring = q
  · subst hq
    simp [h]
  · simp [hq]

theorem Settled.goes (h : w.Settled) (htable : w'.table = w.table) (hlife : w'.life = w.life)
    (hclaims : w'.claims = w.claims) (hfanin : w'.fanin = w.fanin)
    (hcomp : w'.completions = w.completions) (hdel : ∀ d ∈ w.delivered, d ∈ w'.delivered)
    (hclosing : ∀ s ring, Closing s ring w'.poll ↔ Closing s ring w.poll)
    (hpoll : w'.PiecesKnown w'.poll) : w'.Settled where
  nodup := hcomp ▸ h.nodup
  done := hcomp ▸ hlife ▸ h.done
  right x hx c hc := (h.right x (hcomp ▸ hx) c (hclaims ▸ hc)).mono hdel
  received := hlife ▸ hclaims ▸ htable ▸ h.received
  gathered s hl hne := by
    rw [hlife] at hl
    rw [htable] at hne
    rw [Gathered, htable, hfanin]
    exact ((h.gathered s hl hne).mono hdel).congr fun ring => by rw [hclosing]
  poll := hpoll

theorem Settled.moves (h : w.Settled) {pc : PollPc} (hold : ∀ s ring, ¬ Closing s ring w.poll)
    (hnew : ∀ s ring, ¬ Closing s ring pc) (hpoll : w.PiecesKnown pc) :
    { w with poll := pc }.Settled := by
  refine h.goes rfl rfl rfl rfl rfl (fun _ => id)
    (fun s ring => iff_of_false (hnew s ring) (hold s ring)) ?_
  cases pc with
  | resolve r q stage => cases stage <;> exact hpoll
  | _ => trivial

theorem Own.live_index (hown : w.Own) (hl : w.life s = .live) {q : ℕ} (hq : w.life q = .live)
    (hne : q ≠ s) : w.table.slotIndex q ≠ w.table.slotIndex s :=
  hown.apart_of_holds (.inr hl) q hne (.inr hq)

variable {min owner expected ring : ℕ} {r : EgressRecord}

theorem Settled.again (h : w.Settled)
    (hpc : w.poll = .resolve r s (.received min owner expected ring))
    (hbit : (w.table.slot s).received.testBit ring = true) :
    { w with
      table := w.table.setSlot s
        { w.table.slot s with received := (w.table.slot s).received ||| 1 <<< ring }
      poll := .idle }.Settled := by
  have hsame : w.table.setSlot s
      { w.table.slot s with received := (w.table.slot s).received ||| 1 <<< ring } = w.table := by
    rw [or_bit_of_testBit hbit]
    exact SlotTable.setSlot_self w.table s
  rw [hsame]
  refine h.moves ?_ (fun _ _ => id) trivial
  rw [hpc]
  exact fun _ _ => id

theorem slot_receive (hown : w.Own) (hl : w.life s = .live) (mask : ℕ) {q : ℕ}
    (hq : w.life q = .live) :
    (w.table.setSlot s { w.table.slot s with received := mask }).slot q =
      if q = s then { w.table.slot s with received := mask } else w.table.slot q := by
  split_ifs with hne
  · subst hne
    exact slot_setSlot_self _ _ _
  · exact SlotTable.slot_setSlot_of_ne (hown.live_index hl hq hne)

theorem Settled.received_bit (h : w.Settled) (hl : w.life s = .live) (hc : w.claims s = some c)
    (hexp : c.body.expected.testBit ring = true) (q : ℕ)
    (hq : ((w.table.slot s).received ||| 1 <<< ring).testBit q) : c.body.expected.testBit q := by
  rw [Nat.testBit_or, testBit_bit, Bool.or_eq_true, decide_eq_true_eq] at hq
  obtain hq | rfl := hq
  · exact h.received s c hl hc q hq
  · exact hexp

theorem Settled.gather (h : w.Settled) (hown : w.Own) {payload : Bytes} {position : ℕ}
    (hpc : w.poll = .resolve r s (.received min owner expected ring)) (hl : w.life s = .live)
    (hc : w.claims s = some c) (hexp : c.body.expected.testBit ring = true)
    (hdel : (s, ring, payload) ∈ w.delivered)
    (hbit : (w.table.slot s).received.testBit ring = false) :
    { w with
      table := w.table.setSlot s
        { w.table.slot s with received := (w.table.slot s).received ||| 1 <<< ring }
      fanin := update w.fanin (w.table.slotIndex s)
        ((w.fanin (w.table.slotIndex s)).pushPiece ((w.table.slot s).received = 0) position ring
          (payload.drop 8))
      poll := .idle }.Settled := by
  have hclosing : ∀ q ring, ¬ Closing q ring w.poll := by
    rw [hpc]
    exact fun _ _ => id
  refine ⟨h.nodup, h.done, fun x hx c hc => (h.right x hx c hc).mono fun _ => id, ?_, ?_, trivial⟩
  · intro q c' hq hc' ring' hring'
    dsimp only at hq hc' hring'
    rw [slot_receive hown hl _ hq] at hring'
    split_ifs at hring' with hqs
    · subst hqs
      rw [hc, Option.some.injEq] at hc'
      subst hc'
      exact h.received_bit hl hc hexp ring' hring'
    · exact h.received q c' hq hc' ring' hring'
  · intro q hq hne
    dsimp only at hq hne ⊢
    rw [slot_receive hown hl _ hq] at hne ⊢
    by_cases hqs : q = s
    · subst hqs
      rw [if_pos rfl]
      -- what was gathered, and this piece
      have hold : PiecesOf w.delivered q (fun r => (w.table.slot q).received.testBit r)
          (if decide ((w.table.slot q).received = 0) = true then []
            else (w.fanin (w.table.slotIndex q)).parts) := by
        by_cases hzero : (w.table.slot q).received = 0
        · simp only [hzero, decide_true, if_true]
          exact piecesOf_nil.congr fun r => by simp
        · simp only [hzero, decide_false, Bool.false_eq_true, if_false]
          exact (h.gathered q hq hzero).congr fun r => and_iff_left (hclosing q r)
      have hnew := hold.push position (by rw [hbit]; decide) hdel
      simp only [Gathered, setSlot_slotIndex, update_self]
      refine hnew.congr fun r => ?_
      rw [Nat.testBit_or, testBit_bit, Bool.or_eq_true, decide_eq_true_eq, @eq_comm ℕ ring r]
      exact (and_iff_left (show ¬ Closing q r .idle from id)).symm
    · rw [if_neg hqs] at hne ⊢
      simp only [Gathered, setSlot_slotIndex]
      rw [update_of_ne (hown.live_index hl hq hqs)]
      exact (h.gathered q hq hne).congr fun r =>
        and_congr_right fun _ => iff_of_true (hclosing q r) id

theorem Settled.complete (h : w.Settled) (hown : w.Own) {kind : ReqKind} {payload : Bytes}
    (hpc : w.poll = .resolve r s (.received min owner c.body.expected ring)) (hl : w.life s = .live)
    (hc : w.claims s = some c) (hans : r.answer = some (ring, kind, payload))
    (hexp : c.body.expected.testBit ring = true) (hone : c.body.expected ≠ 1 <<< ring)
    (hbit : (w.table.slot s).received.testBit ring = false)
    (hall : (w.table.slot s).received ||| 1 <<< ring = c.body.expected) :
    { w with
      table := w.table.setSlot s
        { w.table.slot s with received := (w.table.slot s).received ||| 1 <<< ring }
      poll := .resolve r s
        (.userData min owner ((w.table.slot s).received = 0)) }.Settled := by
  have hclosing : ∀ q ring, ¬ Closing q ring w.poll := by
    rw [hpc]
    exact fun _ _ => id
  have hsome : (w.table.slot s).received ≠ 0 := fun hzero => by
    rw [hzero, Nat.zero_or] at hall
    exact hone hall.symm
  rw [decide_eq_false hsome]
  have hknown := h.poll
  rw [hpc] at hknown
  refine ⟨h.nodup, h.done, h.right, ?_, ?_, hknown.1, ?_⟩
  · intro q c' hq hc' ring' hring'
    dsimp only at hq hc' hring'
    rw [slot_receive hown hl _ hq] at hring'
    split_ifs at hring' with hqs
    · subst hqs
      rw [hc, Option.some.injEq] at hc'
      subst hc'
      exact h.received_bit hl hc hexp ring' hring'
    · exact h.received q c' hq hc' ring' hring'
  · intro q hq hne
    dsimp only at hq hne ⊢
    rw [slot_receive hown hl _ hq] at hne ⊢
    by_cases hqs : q = s
    · subst hqs
      rw [if_pos rfl]
      refine (h.gathered q hq hsome).congr fun r' => ?_
      have hnow : Closing q r' (.resolve r q (.userData min owner false)) ↔ ring = r' := by
        simp [Closing, hans]
      rw [and_iff_left (hclosing q r'), hnow, Nat.testBit_or, testBit_bit, Bool.or_eq_true,
        decide_eq_true_eq]
      constructor
      · intro hr'
        refine ⟨.inl hr', ?_⟩
        rintro rfl
        rw [hbit] at hr'
        cases hr'
      · rintro ⟨hr' | rfl, hne'⟩
        · exact hr'
        · exact absurd rfl hne'
    · rw [if_neg hqs] at hne ⊢
      refine (h.gathered q hq hne).congr fun r' => and_congr_right fun _ =>
        iff_of_true (hclosing q r') ?_
      rintro ⟨heq, -⟩
      exact hqs heq.symm
  · rintro a ha c' hc'
    dsimp only at hc'
    rw [hc, Option.some.injEq] at hc'
    subst hc'
    rw [mem_def, hans, Option.some.injEq] at ha
    subst ha
    refine .inr ⟨rfl, hexp, ?_⟩
    rw [slot_setSlot_self]
    exact hall

theorem Settled.win (h : w.Settled) (hown : w.Own) (hl : w.life s = .live) {pc : PollPc}
    (hclosing : ∀ q ring, w.life q = .live → q ≠ s → ¬ Closing q ring w.poll)
    (hnew : ∀ q ring, ¬ Closing q ring pc)
    (hpoll : ({ w with table := w.table.setOwner s ownerFree, poll := pc }.setLife s .won).PiecesKnown
      pc) :
    ({ w with table := w.table.setOwner s ownerFree, poll := pc }.setLife s .won).Settled := by
  have hlive : ∀ q, update w.life s .won q = .live →
      q ≠ s ∧ w.life q = .live ∧ (w.table.setOwner s ownerFree).slot q = w.table.slot q := by
    intro q hq
    have hqs : q ≠ s := by
      rintro rfl
      rw [update_self] at hq
      cases hq
    rw [update_of_ne hqs] at hq
    exact ⟨hqs, hq, SlotTable.slot_setOwner_of_ne (hown.live_index hl hq hqs)⟩
  refine ⟨h.nodup, fun q => ?_, h.right, fun q c hq hc ring hring => ?_, fun q hq hne => ?_, hpoll⟩
  · change update w.life s .won q = .done ↔ _
    by_cases hqs : q = s
    · subst hqs
      rw [update_self]
      have hnot := (h.done q).not.mp (by rw [hl]; decide)
      exact iff_of_false (by decide) hnot
    · rw [update_of_ne hqs]
      exact h.done q
  · obtain ⟨-, hq, hslot⟩ := hlive q hq
    change ((w.table.setOwner s ownerFree).slot q).received.testBit ring = true at hring
    rw [hslot] at hring
    exact h.received q c hq hc ring hring
  · obtain ⟨hqs, hq, hslot⟩ := hlive q hq
    change ((w.table.setOwner s ownerFree).slot q).received ≠ 0 at hne
    change PiecesOf w.delivered q (fun ring =>
      ((w.table.setOwner s ownerFree).slot q).received.testBit ring = true ∧ ¬ Closing q ring pc)
      (w.fanin (w.table.slotIndex q)).parts
    rw [hslot] at hne ⊢
    exact (h.gathered q hq hne).congr fun ring => and_congr_right fun _ =>
      iff_of_true (hclosing q ring hq hqs) (hnew q ring)

theorem Settled.finish (h : w.Settled) (hl : w.life s = .won) {fanin : ℕ → FanIn}
    {pc : PollPc} {x : Completion} (hx : x.seq = s)
    (hright : ∀ c, w.claims s = some c → Right w.delivered x c)
    (hfanin : ∀ q, w.life q = .live → (w.table.slot q).received ≠ 0 →
      fanin (w.table.slotIndex q) = w.fanin (w.table.slotIndex q))
    (hold : ∀ q ring, ¬ Closing q ring w.poll) (hnew : ∀ q ring, ¬ Closing q ring pc)
    (hpoll : ∀ v : ClientEngine, v.PiecesKnown pc) :
    ({ w with
        table := w.table.subInflight, fanin, poll := pc
        completions := w.completions ++ [x] }.setLife s .done).Settled := by
  have hnot : s ∉ w.completions.map (·.seq) := (h.done s).not.mp (by rw [hl]; decide)
  have hlive : ∀ q, update w.life s .done q = .live → w.life q = .live := by
    intro q hq
    rwa [update_of_ne (by rintro rfl; simp at hq)] at hq
  refine ⟨?_, fun q => ?_, fun y hy c hc => ?_, fun q c hq => h.received q c (hlive q hq),
    fun q hq hne => ?_, hpoll _⟩
  · change ((w.completions ++ [x]).map (·.seq)).Nodup
    rw [map_append, map_singleton, hx, List.nodup_append]
    refine ⟨h.nodup, List.nodup_singleton _, fun a ha b hb => ?_⟩
    rw [mem_singleton] at hb
    rintro rfl
    exact hnot (hb ▸ ha)
  · change update w.life s .done q = .done ↔ q ∈ (w.completions ++ [x]).map (·.seq)
    rw [map_append, map_singleton, hx, mem_append, mem_singleton, ← h.done]
    by_cases hqs : q = s
    · subst hqs
      simp
    · rw [update_of_ne hqs]
      simp [hqs]
  · change y ∈ w.completions ++ [x] at hy
    rw [mem_append, mem_singleton] at hy
    obtain hy | rfl := hy
    · exact h.right y hy c hc
    · exact hright c (hx ▸ hc)
  · have hq' := hlive q hq
    change PiecesOf w.delivered q (fun ring => (w.table.slot q).received.testBit ring = true ∧
      ¬ Closing q ring pc) (fanin (w.table.slotIndex q)).parts
    rw [hfanin q hq' hne]
    exact (h.gathered q hq' hne).congr fun ring => and_congr_right fun _ =>
      iff_of_true (hold q ring) (hnew q ring)

theorem right_callback {f : FanIn} {first : Bool} {ud : ℕ} (fi : Bool) {d : List (ℕ × ℕ × Bytes)}
    (hud : ud = c.body.userData) (hmin : MinRead r min c) (hkind : KindRead r c)
    (hpieces : ∀ a ∈ r.answer, first = true ∧ c.body.expected = 1 <<< a.1 ∨
      first = false ∧ c.body.expected.testBit a.1 ∧
        PiecesOf d s (fun ring => c.body.expected.testBit ring ∧ ring ≠ a.1) f.parts)
    (hdel : ∀ a ∈ r.answer, (s, a.1, a.2.2) ∈ d) :
    (callback f r s min first ud fi).2.seq = s ∧
      Right d (callback f r s min first ud fi).2 c := by
  -- an outcome that is no response
  have hplain : ∀ o, (∀ body, o ≠ ClientOutcome.response body) → (∀ parts, o ≠ .responses parts) →
      Right d ⟨s, ud, none, o⟩ c := fun o hr hrs =>
    ⟨hud, fun body ho => absurd ho (hr body), fun parts ho => absurd ho (hrs parts)⟩
  rw [callback]
  cases hans : r.answer with
  | none =>
    cases r.msg <;> exact ⟨rfl, hplain _ (by simp) (by simp)⟩
  | some a =>
    obtain ⟨ring, kind, payload⟩ := a
    have hring := hpieces _ hans
    have hin := hdel _ hans
    dsimp only at hring hin ⊢
    split_ifs with hfi hstale
    · refine ⟨rfl, hud, by simp, fun parts hparts => ?_⟩
      rw [ClientOutcome.responses.injEq] at hparts
      subst hparts
      refine PiecesOf.perm ?_ (List.perm_insertionSort _ _)
      have hold : PiecesOf d s (fun q => c.body.expected.testBit q ∧ q ≠ ring)
          (if first = true then [] else f.parts) := by
        obtain ⟨rfl, hone⟩ | ⟨rfl, -, hg⟩ := hring
        · refine piecesOf_nil.congr fun q => iff_of_false id ?_
          rw [hone, testBit_bit, decide_eq_true_eq]
          rintro ⟨rfl, hne⟩
          exact hne rfl
        · exact hg
      refine (hold.push _ (fun hq => hq.2 rfl) hin).congr fun q => ?_
      by_cases hq : q = ring
      · subst hq
        refine iff_of_true (.inr rfl) ?_
        obtain ⟨-, hone⟩ | ⟨-, hbit, -⟩ := hring
        · rw [hone, testBit_bit, decide_eq_true_eq]
        · exact hbit
      · simp [hq]
    · exact ⟨rfl, hplain _ (by simp) (by simp)⟩
    · refine ⟨rfl, hud, fun body _ hq => ⟨_, rfl, ?_⟩, by simp⟩
      have hk := hkind _ hans
      dsimp only at hk
      rw [hmin (by rw [hans, Option.map_some, hk, hq])] at hstale
      rw [hk] at hstale
      exact Nat.le_of_not_lt fun hlt => hstale ⟨hq, hlt⟩

theorem Settled.resolveStep (h : w.Settled) (hown : w.Own) {stage : ResolveStage}
    (hpc : w.poll = .resolve r s stage) : (w.resolveStep r s stage).Settled := by
  have hknows := hown.poll
  have hknown := h.poll
  rw [hpc] at hknows hknown
  obtain ⟨-, hwire, -, hknows⟩ := hknows
  obtain ⟨hdel, hknown⟩ := hknown
  have hslot := hown.slot_wire hwire
  have hidx := hown.slotIndex_wire hwire
  have goes : ∀ pc, (∀ q ring, ¬ Closing q ring w.poll) → (∀ q ring, ¬ Closing q ring pc) →
      w.PiecesKnown pc → { w with poll := pc }.Settled := fun pc hold hnew => h.moves hold hnew
  cases stage with
  | minOwner =>
    refine goes _ (by rw [hpc]; exact fun _ _ => id) ?_ ?_
    · split_ifs <;> exact fun _ _ => id
    · split_ifs <;> exact ⟨hdel, trivial⟩
  | minValue => exact goes _ (by rw [hpc]; exact fun _ _ => id) (fun _ _ => id) ⟨hdel, trivial⟩
  | owner min =>
    dsimp only [ClientEngine.resolveStep]
    split_ifs
    · exact goes _ (by rw [hpc]; exact fun _ _ => id) (fun _ _ => id) ⟨hdel, trivial⟩
    · exact goes _ (by rw [hpc]; exact fun _ _ => id) (fun _ _ => id) ⟨hdel, trivial⟩
    · exact goes _ (by rw [hpc]; exact fun _ _ => id) (fun _ _ => id) trivial
  | kind min owner =>
    dsimp only [ClientEngine.resolveStep]
    split_ifs
    · exact goes _ (by rw [hpc]; exact fun _ _ => id) (fun _ _ => id) ⟨hdel, trivial⟩
    · exact goes _ (by rw [hpc]; exact fun _ _ => id) (fun _ _ => id) trivial
  | expected min owner =>
    dsimp only [ClientEngine.resolveStep]
    obtain ⟨c, ⟨hc, hl, ho⟩, -⟩ := hknows
    rw [hslot, (hown.live s c hl hc).2.expected]
    split
    · rename_i hans
      refine goes _ (by rw [hpc]; exact fun _ _ => id) ?_ ⟨hdel, ?_⟩
      · rintro q ring ⟨-, -, a, ha, -⟩
        rw [mem_def, hans] at ha
        cases ha
      · intro a ha
        rw [mem_def, hans] at ha
        cases ha
    · rename_i ring kind payload hans
      split_ifs with hbit hone
      · exact goes _ (by rw [hpc]; exact fun _ _ => id) (fun _ _ => id) trivial
      · refine goes _ (by rw [hpc]; exact fun _ _ => id) ?_ ⟨hdel, ?_⟩
        · rintro q ring ⟨-, hfalse, -⟩
          cases hfalse
        · intro a ha c' hc'
          rw [hc, Option.some.injEq] at hc'
          subst hc'
          rw [mem_def, hans, Option.some.injEq] at ha
          subst ha
          exact .inl ⟨rfl, hone⟩
      · exact goes _ (by rw [hpc]; exact fun _ _ => id) (fun _ _ => id) ⟨hdel, trivial⟩
  | received min owner expected ring =>
    dsimp only [ClientEngine.resolveStep]
    obtain ⟨c, ⟨hc, hl, ho⟩, -, -, rfl, ⟨⟨_, kind, payload⟩, hans, rfl⟩, hexp, hone⟩ := hknows
    have hset : ∀ x, w.table.setSlot r.wireSeq x = w.table.setSlot s x := fun x => by
      rw [setSlot, setSlot, hidx]
    have hans' : r.answer = some (_, kind, payload) := hans
    have hin := hdel _ hans
    rw [hslot, hset, setSlot_slotIndex, hidx, hans']
    simp only [ne_eq, and_bit_eq_zero, Bool.not_eq_false]
    split_ifs with hbit hall
    · exact h.again hpc hbit
    · exact h.complete hown hpc hl hc hans' hexp hone (Bool.eq_false_of_not_eq_true hbit) hall
    · exact h.gather hown hpc hl hc hexp hin (Bool.eq_false_of_not_eq_true hbit)
  | userData min owner first =>
    refine h.goes rfl rfl rfl rfl rfl (fun _ => id) (fun q ring => ?_) ⟨hdel, hknown⟩
    rw [hpc]
    exact Iff.rfl
  | fanIn min owner first ud =>
    refine h.goes rfl rfl rfl rfl rfl (fun _ => id) (fun q ring => ?_) ⟨hdel, hknown⟩
    rw [hpc]
    exact Iff.rfl
  | exchange min owner first ud fi =>
    dsimp only [ClientEngine.resolveStep]
    obtain ⟨c, ⟨hc, hl, rfl⟩, -⟩ := hknows
    have hset : w.table.setOwner r.wireSeq ownerFree = w.table.setOwner s ownerFree := by
      rw [setOwner, setOwner, setSlot, setSlot, hidx, hslot]
    rw [hslot, hset, if_pos ((hown.owner_eq_iff (by rw [hl]; decide)).mpr hl), Nat.add_sub_cancel]
    refine h.win hown hl (fun q ring _ hne => ?_) (fun _ _ => id) ⟨hdel, fun q hq hsame => ?_,
      fun a ha c' hc' => ?_⟩
    · rw [hpc]
      rintro ⟨rfl, -⟩
      exact hne rfl
    · change update w.life s .won q = .live at hq
      by_cases hqs : q = s
      · subst hqs
        rw [update_self] at hq
        cases hq
      · rw [update_of_ne hqs] at hq
        exact absurd hsame (hown.live_index hl hq hqs)
    · obtain ⟨hf, hone⟩ | ⟨hf, hbit, hall⟩ := hknown a ha c' hc'
      · exact .inl ⟨hf, hone⟩
      · refine .inr ⟨hf, hbit, ?_⟩
        have hsome : (w.table.slot s).received ≠ 0 := by
          rw [hall]
          intro hzero
          rw [hzero, Nat.zero_testBit] at hbit
          cases hbit
        refine (h.gathered s hl hsome).congr fun ring => ?_
        have hnow : Closing s ring w.poll ↔ a.1 = ring := by
          rw [mem_def] at ha
          rw [hpc]
          simp [Closing, hf, ha]
        rw [hall, hnow]
        exact and_congr_right fun _ => ⟨Ne.symm, Ne.symm⟩
  | finish min owner first ud fi =>
    dsimp only [ClientEngine.resolveStep]
    obtain ⟨c, hc, hl, rfl, hmin, hkind, hud, -⟩ := hknows
    rw [Nat.add_sub_cancel, hidx]
    obtain ⟨hzero, hlast⟩ := hknown
    obtain ⟨hseq, hright⟩ := right_callback (s := s) (f := w.fanin (w.table.slotIndex s)) fi hud hmin
      hkind (fun a ha => hlast a ha c hc) hdel
    refine h.finish hl hseq (fun c' hc' => ?_) (fun q hq hne => ?_) ?_ (fun _ _ => id) fun _ => trivial
    · rw [hc, Option.some.injEq] at hc'
      exact hc' ▸ hright
    · refine update_of_ne (fun hsame => hne (hzero q hq hsame)) _ _
    · rw [hpc]
      exact fun _ _ => id

theorem Settled.scanStep (h : w.Settled) (hown : w.Own) {mode : ScanMode} {stage : ScanStage}
    (hpc : w.poll = .scan mode i stage) : (w.scanStep mode i stage).Settled := by
  have hknows := hown.poll
  rw [hpc] at hknows
  have hold : ∀ q ring, ¬ Closing q ring w.poll := by
    rw [hpc]
    exact fun _ _ => id
  cases stage with
  | owner =>
    dsimp only [ClientEngine.scanStep]
    split
    · refine h.moves hold ?_ ?_
      · cases mode <;> exact fun _ _ => id
      · cases mode <;> trivial
    · split
      · refine h.moves hold ?_ ?_
        · cases mode <;> exact fun _ _ => id
        · cases mode <;> trivial
      · exact h.moves hold (fun _ _ => id) trivial
  | deadline owner =>
    dsimp only [ClientEngine.scanStep]
    split
    · split_ifs <;> exact h.moves hold (fun _ _ => id) trivial
    · exact h.moves hold (fun _ _ => id) trivial
  | userData owner => exact h.moves hold (fun _ _ => id) trivial
  | exchange owner ud =>
    dsimp only [ClientEngine.scanStep]
    obtain ⟨hi, s, rfl, hidx, hp, -⟩ := hknows
    split_ifs with howner
    · have hslot : w.table.slot s = w.table.slots i := by rw [slot, hidx]
      have hl : w.life s = .live := (hown.owner_eq_iff hp.ne_fresh).mp (by rw [hslot, howner])
      have hii : w.table.slotIndex i = i := Nat.mod_eq_of_lt hi
      have hset : w.table.setOwner i ownerFree = w.table.setOwner s ownerFree := by
        rw [setOwner, setOwner, setSlot, setSlot, hii, hidx,
          slot, slot, hii, hidx]
      rw [hset, Nat.add_sub_cancel]
      exact h.win hown hl (fun q ring _ _ => hold q ring) (fun _ _ => id) trivial
    · exact h.moves hold (fun _ _ => id) trivial
  | finish owner ud =>
    dsimp only [ClientEngine.scanStep]
    obtain ⟨s, c, rfl, hl, hc, hud⟩ := hknows
    rw [Nat.add_sub_cancel]
    refine h.finish hl rfl (fun c' hc' => ?_) (fun _ _ _ => rfl) hold (fun _ _ => id) fun _ => trivial
    rw [hc, Option.some.injEq] at hc'
    subst hc'
    refine ⟨hud, fun body ho => ?_, fun parts ho => ?_⟩ <;> cases mode <;> cases ho

theorem Settled.exec (h : w.Settled) (hown : w.Own) (step : EngineStep) (hp : w.Possible step) :
    (w.exec step).Settled := by
  have hstep := hp.1
  have hold : w.poll = .idle → ∀ q ring, ¬ Closing q ring w.poll := by
    rintro hidle
    rw [hidle]
    exact fun _ _ => id
  cases step with
  | enter t call v =>
    obtain ⟨s₀, htouch⟩ := hown.touches_enter hstep.2 call v
    exact h.touches hown htouch (apart_enter w t call v)
  | sender t write =>
    obtain ⟨s₀, htouch⟩ := hown.touches_senderStep hstep write (room_of_possible hp)
    exact h.touches hown htouch (apart_senderStep w t write)
  | deliver r s =>
    dsimp only [ClientEngine.exec]
    rw [ClientEngine.deliver]
    split
    · exact h
    · split
      · rename_i ring kind payload hans
        refine h.goes rfl rfl rfl rfl rfl (fun d hd => List.mem_append_left _ hd)
          (fun q ring' => iff_of_false ?_ (hold hstep.1 q ring')) ⟨fun a ha => ?_, ?_⟩
        · split_ifs <;> exact id
        · rw [mem_def, hans, Option.some.injEq] at ha
          subst ha
          exact List.mem_append_right _ (List.mem_singleton.mpr rfl)
        · split_ifs <;> trivial
      · rename_i hans
        split
        · refine h.moves (hold hstep.1) (fun _ _ => id) ⟨fun a ha => ?_, trivial⟩
          rw [mem_def, hans] at ha
          cases ha
        · exact h
  | maintain observed =>
    dsimp only [ClientEngine.exec]
    rw [ClientEngine.maintain]
    split_ifs <;>
      exact h.goes rfl rfl rfl rfl rfl (fun _ => id)
        (fun q ring => iff_of_false id (hold hstep q ring)) trivial
  | drainAbort => exact h.moves (hold hstep) (fun _ _ => id) trivial
  | poll now =>
    dsimp only [ClientEngine.exec]
    rw [ClientEngine.pollStep]
    split
    · exact h
    · rename_i r s stage hpc
      exact h.resolveStep hown hpc
    · rename_i hpc
      refine h.moves ?_ (fun _ _ => id) trivial
      rw [hpc]
      exact fun _ _ => id
    · rename_i mode i stage hpc
      exact h.scanStep hown hpc

theorem settled_start (sh : EngineShared) (maxInflight startSeq threads : ℕ) :
    (start sh maxInflight startSeq threads).Settled where
  nodup := List.nodup_nil
  done s := by simp [start]
  right x hx := by cases hx
  received s c hl := by cases hl
  gathered s hl := by cases hl
  poll := trivial

end ClientEngine

end UltimaCluster
