/-
  Who has a slot.

  A sequence number holds its slot while it is being stored or is live, and no
  two hold the same one.  So a compare-exchange from `seq + 1` succeeds exactly
  while the request is live, and what was read of a slot before it succeeds is of
  that request.
-/
import UltimaCluster.ClientEngine
import Mathlib.Data.Nat.Bitwise

namespace UltimaCluster

open Function (update update_eq_self update_of_ne update_self)
open SlotTable (setOwner setSlot)

namespace SlotTable

variable {T : SlotTable} {s s' : ℕ} {x : Slot} {o : ℕ}

@[simp]
theorem slot_setSlot_self (T : SlotTable) (s : ℕ) (x : Slot) : (T.setSlot s x).slot s = x := by
  simp [slot, setSlot, slotIndex]

theorem slot_setSlot_of_ne (h : T.slotIndex s' ≠ T.slotIndex s) :
    (T.setSlot s x).slot s' = T.slot s' := by
  simp only [slot, setSlot, slotIndex] at *
  rw [update_of_ne h]

@[simp]
theorem slot_setOwner_self (T : SlotTable) (s o : ℕ) :
    (T.setOwner s o).slot s = { T.slot s with owner := o } :=
  slot_setSlot_self T s _

theorem slot_setOwner_of_ne (h : T.slotIndex s' ≠ T.slotIndex s) :
    (T.setOwner s o).slot s' = T.slot s' :=
  slot_setSlot_of_ne h

@[simp]
theorem setSlot_len (T : SlotTable) (s : ℕ) (x : Slot) : (T.setSlot s x).len = T.len := rfl

@[simp]
theorem setOwner_len (T : SlotTable) (s o : ℕ) : (T.setOwner s o).len = T.len := rfl

@[simp]
theorem setSlot_slotIndex (T : SlotTable) (s s' : ℕ) (x : Slot) :
    (T.setSlot s x).slotIndex s' = T.slotIndex s' := rfl

@[simp]
theorem setOwner_slotIndex (T : SlotTable) (s s' o : ℕ) :
    (T.setOwner s o).slotIndex s' = T.slotIndex s' := rfl

theorem setSlot_self (T : SlotTable) (s : ℕ) : T.setSlot s (T.slot s) = T := by
  rw [setSlot, slot, update_eq_self]

theorem slots_setSlot (T : SlotTable) (s i : ℕ) (x : Slot) :
    (T.setSlot s x).slots i = if i = T.slotIndex s then x else T.slots i := by
  simp [setSlot, Function.update_apply]

theorem slotIndex_wire {k : ℕ} (hk : k ≤ 32) (hlen : T.len = 2 ^ k) (s : ℕ) :
    T.slotIndex (s % 2 ^ 32) = T.slotIndex s := by
  rw [slotIndex, slotIndex, hlen, Nat.mod_mod_of_dvd _ (Nat.pow_dvd_pow 2 hk)]

end SlotTable

namespace ClientEngine

/-! ## What a number holds -/

/-- A request that is accepted, or will be. -/
def Held (l : Life) : Prop := l = .live ∨ l = .won ∨ l = .done

/-- A number whose slot is its own. -/
def Holds (l : Life) : Prop := l = .storing ∨ l = .live

/-- A number whose claim was published. -/
def Past (l : Life) : Prop := Held l ∨ l = .released

/-- The slot has what the claim wrote; `received` grows from there. -/
structure Matches (x : Slot) (m : SlotMeta) : Prop where
  userData : x.userData = m.userData
  deadlineNs : x.deadlineNs = m.deadlineNs
  kind : x.kind = m.kind
  expected : x.expected = m.expected
  fanIn : x.fanIn = m.fanIn
  minPosition : x.minPosition = m.minPosition

/-- The first stores of a claim are made. -/
structure Stored (x : Slot) (m : SlotMeta) (done : ℕ) : Prop where
  userData : 0 < done → x.userData = m.userData
  deadlineNs : 1 < done → x.deadlineNs = m.deadlineNs
  kind : 2 < done → x.kind = m.kind
  expected : 3 < done → x.expected = m.expected
  received : 4 < done → x.received = 0
  fanIn : 5 < done → x.fanIn = m.fanIn
  minPosition : 6 < done → x.minPosition = m.minPosition

theorem Stored.matches {x : Slot} {m : SlotMeta} {done : ℕ} (h : Stored x m done) (hd : ¬ done < 7) :
    Matches x m ∧ x.received = 0 :=
  ⟨⟨h.userData (by omega), h.deadlineNs (by omega), h.kind (by omega), h.expected (by omega),
    h.fanIn (by omega), h.minPosition (by omega)⟩, h.received (by omega)⟩

theorem Stored.zero (x : Slot) (m : SlotMeta) : Stored x m 0 := by
  constructor <;> intro h <;> omega

theorem Stored.store {x : Slot} {m : SlotMeta} {done : ℕ} (h : Stored x m done) (hd : done < 7) :
    Stored (x.store m done) m (done + 1) := by
  have h7 : done = 0 ∨ done = 1 ∨ done = 2 ∨ done = 3 ∨ done = 4 ∨ done = 5 ∨ done = 6 := by omega
  rcases h7 with rfl | rfl | rfl | rfl | rfl | rfl | rfl <;>
    constructor <;> intro hlt <;>
    first
      | rfl
      | exact absurd hlt (by omega)
      | exact h.userData (by omega)
      | exact h.deadlineNs (by omega)
      | exact h.kind (by omega)
      | exact h.expected (by omega)
      | exact h.received (by omega)
      | exact h.fanIn (by omega)

@[simp]
theorem store_owner (x : Slot) (m : SlotMeta) (done : ℕ) : (x.store m done).owner = x.owner := by
  unfold Slot.store
  split <;> rfl

/-! ## What the threads know -/

variable (w : ClientEngine)

/-- The number that a sending thread is at work on. -/
def SenderKnows (t : ℕ) : SenderPc → Prop
  | .idle => True
  | .admitted c | .counted c | .full c | .busy c => c.thread = t
  | .drawn c s => c.thread = t ∧ w.claims s = some c ∧ w.life s = .drawn
  | .storing c s done =>
    c.thread = t ∧ w.claims s = some c ∧ w.life s = .storing ∧
      Stored (w.table.slot s) c.body done
  | .published c s | .writeFailed c s _ =>
    c.thread = t ∧ w.claims s = some c ∧ Held (w.life s) ∧ s ∉ w.sent
  | .written c s => c.thread = t ∧ w.claims s = some c ∧ Held (w.life s) ∧ s ∈ w.sent
  | .released c s _ => c.thread = t ∧ w.claims s = some c ∧ w.life s = .released

/-- The request that a record found, with its claim. -/
def Found (s owner : ℕ) (c : Claim) : Prop :=
  w.claims s = some c ∧ w.life s = .live ∧ owner = s + 1

/-- The token that was read of the request, if the record answers a query. -/
def MinRead (r : EgressRecord) (min : ℕ) (c : Claim) : Prop :=
  r.answer.map (·.2.1) = some .query → min = c.body.minPosition

/-- The record is of the kind of the request. -/
def KindRead (r : EgressRecord) (c : Claim) : Prop :=
  ∀ a ∈ r.answer, a.2.1 = c.body.kind

/-- What `resolve` knows at a stage. -/
def ResolveKnows (r : EgressRecord) (s : ℕ) : ResolveStage → Prop
  | .minOwner => True
  | .minValue => w.life s = .live
  | .owner min => ∀ c, w.claims s = some c → w.life s = .live → MinRead r min c
  | .kind min owner => ∃ c, w.Found s owner c ∧ MinRead r min c
  | .expected min owner => ∃ c, w.Found s owner c ∧ MinRead r min c ∧ KindRead r c
  | .received min owner expected ring =>
    ∃ c, w.Found s owner c ∧ MinRead r min c ∧ KindRead r c ∧ expected = c.body.expected ∧
      (∃ a ∈ r.answer, a.1 = ring) ∧ expected.testBit ring ∧ expected ≠ 1 <<< ring
  | .userData min owner _ => ∃ c, w.Found s owner c ∧ MinRead r min c ∧ KindRead r c
  | .fanIn min owner _ userData =>
    ∃ c, w.Found s owner c ∧ MinRead r min c ∧ KindRead r c ∧ userData = c.body.userData
  | .exchange min owner _ userData fanIn =>
    ∃ c, w.Found s owner c ∧ MinRead r min c ∧ KindRead r c ∧ userData = c.body.userData ∧
      fanIn = c.body.fanIn
  | .finish min owner _ userData fanIn =>
    ∃ c, w.claims s = some c ∧ w.life s = .won ∧ owner = s + 1 ∧ MinRead r min c ∧ KindRead r c ∧
      userData = c.body.userData ∧ fanIn = c.body.fanIn

/-- What a scan knows at a stage: the word it read was published at its index. -/
def ScanKnows (i : ℕ) : ScanStage → Prop
  | .owner => True
  | .deadline owner | .userData owner =>
    i < w.table.len ∧ ∃ s, owner = s + 1 ∧ w.table.slotIndex s = i ∧ Past (w.life s)
  | .exchange owner userData =>
    i < w.table.len ∧ ∃ s, owner = s + 1 ∧ w.table.slotIndex s = i ∧ Past (w.life s) ∧
      ∀ c, w.life s = .live → w.claims s = some c → userData = c.body.userData
  | .finish owner userData =>
    ∃ s c, owner = s + 1 ∧ w.life s = .won ∧ w.claims s = some c ∧ userData = c.body.userData

/-- What the polling thread knows. -/
def PollKnows : PollPc → Prop
  | .idle | .clock => True
  | .resolve r s stage =>
    s ∈ w.sent ∧ s % 2 ^ 32 = r.wireSeq ∧ (∀ ring ∈ r.ring, ring < cncMaxServices) ∧
      w.ResolveKnows r s stage
  | .scan _ i stage => w.ScanKnows i stage

/-- The poll half is about to call back for the number. -/
def Finishing (s : ℕ) : PollPc → Prop
  | .resolve _ _ (.finish _ owner _ _ _) | .scan _ _ (.finish owner _) => owner = s + 1
  | _ => False

/-- The invariant of the slots, with what each thread knows. -/
structure Own : Prop where
  len : ∃ k ≤ 32, w.table.len = 2 ^ k
  drawn : ∀ s, w.life s ≠ .fresh → s < w.table.nextSeq ∧ s + 2 < 2 ^ 64
  claims : ∀ s, w.claims s = none ↔ w.life s = .fresh
  live : ∀ s c, w.life s = .live → w.claims s = some c →
    (w.table.slot s).owner = s + 1 ∧ Matches (w.table.slot s) c.body
  storing : ∀ s, w.life s = .storing → (w.table.slot s).owner = ownerReserved
  alone : ∀ s s', w.life s = .storing → w.life s' = .storing →
    w.table.slotIndex s = w.table.slotIndex s' → s = s'
  owner : ∀ i < w.table.len,
    (w.table.slots i).owner = ownerFree ∨ ∃ s, w.table.slotIndex s = i ∧ Holds (w.life s)
  senders : ∀ t < w.threads, w.SenderKnows t (w.senders t)
  sent : ∀ s ∈ w.sent, Held (w.life s)
  poll : w.PollKnows w.poll
  won : ∀ s, w.life s = .won → Finishing s w.poll

variable {w} {w' : ClientEngine} {s s' t i : ℕ}

/-! ## Facts about slots -/

theorem ownerWord_eq (h : s + 2 < 2 ^ 64) : SlotTable.ownerWord s = s + 1 :=
  Nat.mod_eq_of_lt (by omega)

theorem Own.slotIndex_lt (h : w.Own) (s : ℕ) : w.table.slotIndex s < w.table.len := by
  obtain ⟨k, -, hk⟩ := h.len
  exact Nat.mod_lt _ (by rw [hk]; exact Nat.two_pow_pos k)

theorem Own.claim (h : w.Own) (hs : w.life s ≠ .fresh) : ∃ c, w.claims s = some c := by
  rw [← Option.ne_none_iff_exists']
  exact fun hnone => hs ((h.claims s).mp hnone)

variable {l : Life}

theorem Holds.ne_fresh (h : Holds l) : l ≠ .fresh := by
  rintro rfl
  rcases h with h | h <;> cases h

theorem Held.ne_fresh (h : Held l) : l ≠ .fresh := by
  rintro rfl
  rcases h with h | h | h <;> cases h

theorem Past.ne_fresh (h : Past l) : l ≠ .fresh := by
  rcases h with h | rfl
  · exact h.ne_fresh
  · decide

theorem Own.owner_of_holds (h : w.Own) (hs : Holds (w.life s)) :
    (w.table.slot s).owner = if w.life s = .live then s + 1 else ownerReserved := by
  rcases hs with hs | hs
  · rw [h.storing s hs, if_neg (by rw [hs]; decide)]
  · obtain ⟨c, hc⟩ := h.claim (s := s) (by rw [hs]; decide)
    rw [(h.live s c hs hc).1, if_pos hs]

theorem Own.apart (h : w.Own) (hs : Holds (w.life s)) (hs' : Holds (w.life s'))
    (hidx : w.table.slotIndex s = w.table.slotIndex s') : s = s' := by
  have howner := h.owner_of_holds hs
  have howner' := h.owner_of_holds hs'
  have hslot : w.table.slot s = w.table.slot s' := by rw [SlotTable.slot, hidx]; rfl
  have hlt := (h.drawn s hs.ne_fresh).2
  have hlt' := (h.drawn s' hs'.ne_fresh).2
  rw [hslot, howner'] at howner
  rcases hs with hs | hs <;> rcases hs' with hs' | hs'
  · exact h.alone s s' hs hs' hidx
  · rw [hs, hs', if_pos rfl, if_neg (by decide), ownerReserved] at howner
    omega
  · rw [hs, hs', if_pos rfl, if_neg (by decide), ownerReserved] at howner
    omega
  · rw [hs, hs', if_pos rfl, if_pos rfl] at howner
    omega

theorem Own.occupied (h : w.Own) (hi : i < w.table.len) (hocc : (w.table.slots i).Occupied) :
    ∃ s, w.table.slotIndex s = i ∧ w.life s = .live ∧ (w.table.slots i).owner = s + 1 := by
  obtain hfree | ⟨s, rfl, hs | hs⟩ := h.owner i hi
  · exact absurd hfree hocc.1
  · exact absurd (h.storing s hs) hocc.2
  · obtain ⟨c, hc⟩ := h.claim (s := s) (by rw [hs]; decide)
    exact ⟨s, rfl, hs, (h.live s c hs hc).1⟩

/-- The compare-exchange from a published word succeeds while its request is live. -/
theorem Own.owner_eq_iff (h : w.Own) (hs : w.life s ≠ .fresh) :
    (w.table.slot s).owner = s + 1 ↔ w.life s = .live := by
  have hlt := (h.drawn s hs).2
  constructor
  · intro howner
    have hocc : (w.table.slot s).Occupied := by
      rw [Slot.Occupied, howner, ownerFree, ownerReserved]
      omega
    obtain ⟨s', hidx, hlive, howner'⟩ := h.occupied (h.slotIndex_lt s) hocc
    change (w.table.slot s).owner = s' + 1 at howner'
    have heq : s' = s := by omega
    rwa [← heq]
  · intro hlive
    obtain ⟨c, hc⟩ := h.claim hs
    exact (h.live s c hlive hc).1

/-! ## Frames -/

theorem SenderKnows.frame {pc : SenderPc} (h : w.SenderKnows t pc)
    (hmine : ∀ s c, w.claims s = some c → c.thread = t →
      w'.claims s = some c ∧ (w'.life s = w.life s ∨ Held (w.life s) ∧ Held (w'.life s)) ∧
        (w.life s = .storing → w'.table.slot s = w.table.slot s) ∧ (s ∈ w'.sent ↔ s ∈ w.sent)) :
    w'.SenderKnows t pc := by
  cases pc with
  | idle => trivial
  | admitted c => exact h
  | counted c => exact h
  | full c => exact h
  | busy c => exact h
  | drawn c s =>
    obtain ⟨ht, hc, hl⟩ := h
    obtain ⟨hc', hl', -, -⟩ := hmine s c hc ht
    refine ⟨ht, hc', ?_⟩
    rw [hl] at hl'
    exact hl'.resolve_right fun ⟨hh, _⟩ => by rcases hh with h | h | h <;> cases h
  | storing c s done =>
    obtain ⟨ht, hc, hl, hst⟩ := h
    obtain ⟨hc', hl', hslot, -⟩ := hmine s c hc ht
    refine ⟨ht, hc', ?_, by rwa [hslot hl]⟩
    rw [hl] at hl'
    exact hl'.resolve_right fun ⟨hh, _⟩ => by rcases hh with h | h | h <;> cases h
  | published c s | writeFailed c s e =>
    obtain ⟨ht, hc, hl, hns⟩ := h
    obtain ⟨hc', hl', -, hsent⟩ := hmine s c hc ht
    exact ⟨ht, hc', hl'.elim (fun heq => heq ▸ hl) And.right, fun hin => hns (hsent.mp hin)⟩
  | written c s =>
    obtain ⟨ht, hc, hl, hs⟩ := h
    obtain ⟨hc', hl', -, hsent⟩ := hmine s c hc ht
    exact ⟨ht, hc', hl'.elim (fun heq => heq ▸ hl) And.right, hsent.mpr hs⟩
  | released c s e =>
    obtain ⟨ht, hc, hl⟩ := h
    obtain ⟨hc', hl', -, -⟩ := hmine s c hc ht
    refine ⟨ht, hc', ?_⟩
    rw [hl] at hl'
    exact hl'.resolve_right fun ⟨hh, _⟩ => by rcases hh with h | h | h <;> cases h

/-- The poll half keeps what it knows over the steps of the senders: what was
    written stays, and what was published does not become live again. -/
theorem PollKnows.frame {pc : PollPc} (h : w.PollKnows pc)
    (hsent : ∀ s ∈ w.sent, s ∈ w'.sent ∧ w'.life s = w.life s ∧ w'.claims s = w.claims s)
    (hpast : ∀ s, Past (w.life s) → Past (w'.life s) ∧ w'.claims s = w.claims s ∧
      (w'.life s = .live → w.life s = .live) ∧ (w.life s = .won → w'.life s = .won))
    (hlen : w'.table.len = w.table.len) : w'.PollKnows pc := by
  have hidx : ∀ s, w'.table.slotIndex s = w.table.slotIndex s := fun s => by
    rw [SlotTable.slotIndex, SlotTable.slotIndex, hlen]
  cases pc with
  | idle => trivial
  | clock => trivial
  | resolve r s stage =>
    obtain ⟨hin, hwire, hring, hknows⟩ := h
    obtain ⟨hin', hl, hc⟩ := hsent s hin
    refine ⟨hin', hwire, hring, ?_⟩
    cases stage with
    | minOwner => trivial
    | _ => simpa only [ResolveKnows, Found, hl, hc] using hknows
  | scan mode i stage =>
    cases stage with
    | owner => trivial
    | deadline owner | userData owner =>
      obtain ⟨hi, s, ho, hs, hp⟩ := h
      exact ⟨hlen ▸ hi, s, ho, hidx s ▸ hs, (hpast s hp).1⟩
    | exchange owner ud =>
      obtain ⟨hi, s, ho, hs, hp, hud⟩ := h
      obtain ⟨hp', hc, hlive, -⟩ := hpast s hp
      exact ⟨hlen ▸ hi, s, ho, hidx s ▸ hs, hp', fun c hl hcl => hud c (hlive hl) (hc ▸ hcl)⟩
    | finish owner ud =>
      obtain ⟨s, c, ho, hl, hc, hud⟩ := h
      obtain ⟨-, hc', -, hwon⟩ := hpast s (.inl (.inr (.inl hl)))
      exact ⟨s, c, ho, hwon hl, hc' ▸ hc, hud⟩

/-! ## A step of a sender

It changes one number, and that is the thread's own. -/

/-- A sender's step, but for its own slot. -/
structure Touches (w w' : ClientEngine) (t s₀ : ℕ) : Prop where
  threads : w'.threads = w.threads
  poll : w'.poll = w.poll
  len : w'.table.len = w.table.len
  nextSeq : w.table.nextSeq ≤ w'.table.nextSeq
  others : ∀ t' ≠ t, w'.senders t' = w.senders t'
  life : ∀ s ≠ s₀, w'.life s = w.life s
  claims : ∀ s ≠ s₀, w'.claims s = w.claims s
  sent : ∀ s ≠ s₀, (s ∈ w'.sent ↔ s ∈ w.sent)
  slots : ∀ i ≠ w.table.slotIndex s₀, w'.table.slots i = w.table.slots i
  mine : ∀ c, w.claims s₀ = some c → c.thread = t
  knows : w'.SenderKnows t (w'.senders t)
  drawn : w'.life s₀ ≠ .fresh → s₀ < w'.table.nextSeq ∧ s₀ + 2 < 2 ^ 64
  claim : w'.claims s₀ = none ↔ w'.life s₀ = .fresh
  live : ∀ c, w'.life s₀ = .live → w'.claims s₀ = some c →
    (w'.table.slot s₀).owner = s₀ + 1 ∧ Matches (w'.table.slot s₀) c.body
  storing : w'.life s₀ = .storing → (w'.table.slot s₀).owner = ownerReserved
  /-- The slot is as it was, or nobody else holds it. -/
  apart : (w'.table.slot s₀ = w.table.slot s₀ ∧ ¬ Holds (w.life s₀) ∧ ¬ Holds (w'.life s₀)) ∨
    ((w'.table.slot s₀).owner = ownerFree ∨ Holds (w'.life s₀)) ∧
      ∀ s ≠ s₀, Holds (w.life s) → w.table.slotIndex s ≠ w.table.slotIndex s₀
  unsent : s₀ ∉ w.sent
  sent₀ : s₀ ∈ w'.sent → Held (w'.life s₀)
  kept : ∀ c, w.claims s₀ = some c → w'.claims s₀ = some c
  past : Past (w.life s₀) → Past (w'.life s₀) ∧ (w'.life s₀ = .live → w.life s₀ = .live)
  born : w'.life s₀ = .live →
    w.life s₀ = .live ∧ w'.table.slot s₀ = w.table.slot s₀ ∨ (w'.table.slot s₀).received = 0
  won : w'.life s₀ = .won ↔ w.life s₀ = .won
  done : w'.life s₀ = .done ↔ w.life s₀ = .done

variable {s₀ : ℕ}

theorem Touches.slotIndex (h : Touches w w' t s₀) (s : ℕ) :
    w'.table.slotIndex s = w.table.slotIndex s := by
  rw [SlotTable.slotIndex, SlotTable.slotIndex, h.len]

theorem Touches.slot_of_index_ne (h : Touches w w' t s₀)
    (hne : w.table.slotIndex s ≠ w.table.slotIndex s₀) : w'.table.slot s = w.table.slot s := by
  rw [SlotTable.slot, h.slotIndex, h.slots _ hne]
  rfl

theorem Touches.slot (h : Touches w w' t s₀) (hne : s ≠ s₀) (hs : Holds (w.life s)) :
    w'.table.slot s = w.table.slot s := by
  by_cases hidx : w.table.slotIndex s = w.table.slotIndex s₀
  · obtain ⟨hkept, -, -⟩ | ⟨-, hapart⟩ := h.apart
    · rw [SlotTable.slot, SlotTable.slot, h.slotIndex, hidx]
      rwa [SlotTable.slot, SlotTable.slot, h.slotIndex] at hkept
    · exact absurd hidx (hapart s hne hs)
  · exact h.slot_of_index_ne hidx

theorem Own.touches (hown : w.Own) (h : Touches w w' t s₀) : w'.Own where
  len := by rw [h.len]; exact hown.len
  drawn s hs := by
    by_cases hne : s = s₀
    · subst hne
      exact h.drawn hs
    · rw [h.life s hne] at hs
      exact ⟨(hown.drawn s hs).1.trans_le h.nextSeq, (hown.drawn s hs).2⟩
  claims s := by
    by_cases hne : s = s₀
    · subst hne
      exact h.claim
    · rw [h.life s hne, h.claims s hne]
      exact hown.claims s
  live s c hs hc := by
    by_cases hne : s = s₀
    · subst hne
      exact h.live c hs hc
    · rw [h.life s hne] at hs
      rw [h.claims s hne] at hc
      rw [h.slot hne (.inr hs)]
      exact hown.live s c hs hc
  storing s hs := by
    by_cases hne : s = s₀
    · subst hne
      exact h.storing hs
    · rw [h.life s hne] at hs
      rw [h.slot hne (.inl hs)]
      exact hown.storing s hs
  alone s s' hs hs' hidx := by
    rw [h.slotIndex, h.slotIndex] at hidx
    by_cases hne : s = s₀ <;> by_cases hne' : s' = s₀
    · rw [hne, hne']
    · subst hne
      rw [h.life s' hne'] at hs'
      obtain ⟨-, -, hnot⟩ | ⟨-, hapart⟩ := h.apart
      · exact absurd (.inl hs) hnot
      · exact absurd hidx.symm (hapart s' hne' (.inl hs'))
    · subst hne'
      rw [h.life s hne] at hs
      obtain ⟨-, -, hnot⟩ | ⟨-, hapart⟩ := h.apart
      · exact absurd (.inl hs') hnot
      · exact absurd hidx (hapart s hne (.inl hs))
    · rw [h.life s hne] at hs
      rw [h.life s' hne'] at hs'
      exact hown.alone s s' hs hs' hidx
  owner i hi := by
    simp only [h.slotIndex]
    rw [h.len] at hi
    by_cases hidx : i = w.table.slotIndex s₀
    · subst hidx
      obtain ⟨hkept, hnot, -⟩ | ⟨hfree | hholds, -⟩ := h.apart
      · rw [SlotTable.slot, SlotTable.slot, h.slotIndex] at hkept
        rw [hkept]
        refine (hown.owner _ hi).imp id fun ⟨s, hidx, hs⟩ => ⟨s, hidx, ?_⟩
        rwa [h.life s (by rintro rfl; exact hnot hs)]
      · rw [SlotTable.slot, h.slotIndex] at hfree
        exact .inl hfree
      · exact .inr ⟨s₀, rfl, hholds⟩
    · rw [h.slots i hidx]
      refine (hown.owner i hi).imp id fun ⟨s, hs, hh⟩ => ⟨s, hs, ?_⟩
      rwa [h.life s (by rintro rfl; exact hidx hs.symm)]
  senders t' ht' := by
    rw [h.threads] at ht'
    by_cases hne : t' = t
    · subst hne
      exact h.knows
    · rw [h.others t' hne]
      refine (hown.senders t' ht').frame fun s c hc hthread => ?_
      have hs : s ≠ s₀ := by
        rintro rfl
        exact hne (hthread.symm.trans (h.mine c hc))
      exact ⟨(h.claims s hs).trans hc, .inl (h.life s hs), fun hst => h.slot hs (.inl hst),
        h.sent s hs⟩
  sent s hs := by
    by_cases hne : s = s₀
    · subst hne
      exact h.sent₀ hs
    · rw [h.life s hne]
      exact hown.sent s ((h.sent s hne).mp hs)
  poll := by
    rw [h.poll]
    refine hown.poll.frame (fun s hs => ?_) (fun s hs => ?_) h.len
    · by_cases hne : s = s₀
      · subst hne
        exact absurd hs h.unsent
      · exact ⟨(h.sent s hne).mpr hs, h.life s hne, h.claims s hne⟩
    · by_cases hne : s = s₀
      · subst hne
        obtain ⟨c, hc⟩ := hown.claim hs.ne_fresh
        exact ⟨(h.past hs).1, (h.kept c hc).trans hc.symm, (h.past hs).2, h.won.mpr⟩
      · rw [h.life s hne]
        exact ⟨hs, h.claims s hne, id, id⟩
  won s hs := by
    rw [h.poll]
    by_cases hne : s = s₀
    · subst hne
      exact hown.won s (h.won.mp hs)
    · rw [h.life s hne] at hs
      exact hown.won s hs

theorem Own.touches_quiet (hown : w.Own) (hthreads : w'.threads = w.threads) (hpoll : w'.poll = w.poll)
    (hothers : ∀ t' ≠ t, w'.senders t' = w.senders t') (hlife : w'.life = w.life)
    (hclaims : w'.claims = w.claims) (hsent : w'.sent = w.sent)
    (hlen : w'.table.len = w.table.len) (hslots : w'.table.slots = w.table.slots)
    (hseq : w'.table.nextSeq = w.table.nextSeq) (hknows : w'.SenderKnows t (w'.senders t)) :
    Touches w w' t w.table.nextSeq := by
  -- the next number serves as the one that is not changed
  have hfresh : w.life w.table.nextSeq = .fresh := by
    by_contra hne
    exact Nat.lt_irrefl _ (hown.drawn _ hne).1
  have hnone : w.claims w.table.nextSeq = none := (hown.claims _).mpr hfresh
  have hns : w.table.nextSeq ∉ w.sent := fun hs => (hown.sent _ hs).ne_fresh hfresh
  refine ⟨hthreads, hpoll, hlen, by rw [hseq], hothers,
    fun s _ => by rw [hlife], fun s _ => by rw [hclaims], fun s _ => by rw [hsent],
    fun i _ => by rw [hslots], by simp [hnone], hknows, by simp [hlife, hfresh],
    by simp [hlife, hclaims, hfresh, hnone], by simp [hlife, hfresh], by simp [hlife, hfresh], .inl ?_,
    hns, fun hs => absurd (hsent ▸ hs) hns, by simp [hnone], ?_, by simp [hlife, hfresh],
    by simp [hlife], by simp [hlife]⟩
  · simp [SlotTable.slot, SlotTable.slotIndex, hslots, hlen, hlife, hfresh, Holds]
  · exact fun hs => absurd hfresh hs.ne_fresh

theorem Own.touches_enter (hown : w.Own) (hidle : w.senders t = .idle) (call : ClientCall)
    (v : DoorView) : ∃ s₀, Touches w (w.enter t call v) t s₀ := by
  rw [ClientEngine.enter]
  split
  · refine ⟨_, hown.touches_quiet (t := t) rfl rfl (fun _ _ => rfl) rfl rfl rfl rfl rfl rfl ?_⟩
    rw [hidle]
    trivial
  · refine ⟨_, hown.touches_quiet (t := t) rfl rfl (fun t' ht' => update_of_ne ht' _ _) rfl
      rfl rfl rfl rfl rfl ?_⟩
    simp only [setPc, update_self]
    rfl

variable {T : SlotTable}

theorem Own.touches_setPc (hown : w.Own) (hlen : T.len = w.table.len)
    (hslots : T.slots = w.table.slots) (hseq : T.nextSeq = w.table.nextSeq) {pc : SenderPc}
    (hknows : w.SenderKnows t pc) : ∃ s₀, Touches w ({ w with table := T }.setPc t pc) t s₀ := by
  refine ⟨_, hown.touches_quiet (t := t) rfl rfl (fun t' ht' => update_of_ne ht' _ _) rfl rfl
    rfl hlen hslots hseq ?_⟩
  simp only [ClientEngine.setPc, update_self]
  have hslot : ∀ s, T.slot s = w.table.slot s := fun s => by
    rw [SlotTable.slot, SlotTable.slot, SlotTable.slotIndex, SlotTable.slotIndex, hlen, hslots]
  exact SenderKnows.frame hknows fun s c hc _ => ⟨hc, .inl rfl, fun _ => hslot s, Iff.rfl⟩

theorem Own.touches_reply (hown : w.Own) (hlen : T.len = w.table.len)
    (hslots : T.slots = w.table.slots) (hseq : T.nextSeq = w.table.nextSeq) (c : Claim)
    (r : Except SubmitError Unit) : ∃ s₀, Touches w ({ w with table := T }.reply t c r) t s₀ := by
  refine ⟨_, hown.touches_quiet (t := t) rfl rfl (fun t' ht' => update_of_ne ht' _ _) rfl rfl
    rfl hlen hslots hseq ?_⟩
  simp only [ClientEngine.reply, ClientEngine.setPc, update_self]
  trivial

/-- `fetch_add` of the sequence. -/
theorem Own.touches_draw (hown : w.Own) {c : Claim} (hc : c.thread = t)
    (hseq : w.table.nextSeq + 2 < 2 ^ 64) :
    Touches w (({ w with
        table := w.table.drawSeq
        claims := update w.claims w.table.nextSeq (some c) }.setLife
          w.table.nextSeq .drawn).setPc t (.drawn c w.table.nextSeq)) t w.table.nextSeq := by
  have hfresh : w.life w.table.nextSeq = .fresh := by
    by_contra hne
    exact Nat.lt_irrefl _ (hown.drawn _ hne).1
  have hnext : w.table.drawSeq.nextSeq = w.table.nextSeq + 1 := Nat.mod_eq_of_lt (by omega)
  have hnone : w.claims w.table.nextSeq = none := (hown.claims _).mpr hfresh
  have hns : w.table.nextSeq ∉ w.sent := fun hs => (hown.sent _ hs).ne_fresh hfresh
  refine ⟨rfl, rfl, rfl, ?_,
    fun t' ht' => update_of_ne ht' _ _, fun s hs => update_of_ne hs _ _,
    fun s hs => update_of_ne hs _ _, fun _ _ => Iff.rfl, fun _ _ => rfl, ?_, ?_, ?_, ?_, ?_,
    ?_, .inl ⟨rfl, ?_, ?_⟩, hns, fun hs => absurd hs hns, by simp [hnone], ?_, ?_, ?_, ?_⟩
  · exact hnext ▸ Nat.le_succ _
  · simp [hnone]
  · simp [ClientEngine.setPc, setLife, SenderKnows, hc]
  · intro _
    change w.table.nextSeq < w.table.drawSeq.nextSeq ∧ _
    omega
  · simp [ClientEngine.setPc, setLife]
  · simp [ClientEngine.setPc, setLife]
  · simp [ClientEngine.setPc, setLife]
  · simp [hfresh, Holds]
  · simp [ClientEngine.setPc, setLife, Holds]
  · exact fun hs => absurd hfresh hs.ne_fresh
  · simp [ClientEngine.setPc, setLife]
  · simp [ClientEngine.setPc, setLife, hfresh]
  · simp [ClientEngine.setPc, setLife, hfresh]

theorem Own.touches_mine (hown : w.Own) {c : Claim} {pc : SenderPc} (hc : w.claims s₀ = some c)
    (ht : c.thread = t) (hlen : T.len = w.table.len) (hseq : T.nextSeq = w.table.nextSeq)
    (hslots : ∀ i ≠ w.table.slotIndex s₀, T.slots i = w.table.slots i) (hl : l ≠ .fresh)
    (hlive : l = .live → (T.slot s₀).owner = s₀ + 1 ∧ Matches (T.slot s₀) c.body ∧
      (T.slot s₀).received = 0) (hstoring : l = .storing → (T.slot s₀).owner = ownerReserved)
    (hapart : (T.slot s₀ = w.table.slot s₀ ∧ ¬ Holds (w.life s₀) ∧ ¬ Holds l) ∨
      ((T.slot s₀).owner = ownerFree ∨ Holds l) ∧
        ∀ s ≠ s₀, Holds (w.life s) → w.table.slotIndex s ≠ w.table.slotIndex s₀)
    (hsent : s₀ ∉ w.sent) (hpast : Past (w.life s₀) → Past l ∧ (l = .live → w.life s₀ = .live))
    (hopen : w.life s₀ ≠ .won ∧ w.life s₀ ≠ .done) (hopen' : l ≠ .won ∧ l ≠ .done)
    (hknows : (({ w with table := T }.setLife s₀ l).setPc t pc).SenderKnows t pc) :
    Touches w (({ w with table := T }.setLife s₀ l).setPc t pc) t s₀ := by
  have hold : w.life s₀ ≠ .fresh := fun hf => by
    rw [(hown.claims s₀).mpr hf] at hc
    cases hc
  refine ⟨rfl, rfl, hlen, by rw [← hseq]; exact le_rfl,
    fun t' ht' => update_of_ne ht' _ _, fun s hs => update_of_ne hs _ _,
    fun _ _ => rfl, fun _ _ => Iff.rfl, hslots, ?_, ?_, ?_, ?_, ?_, ?_, ?_, hsent,
    fun hs => absurd hs hsent, fun _ => id, ?_, ?_, ?_, ?_⟩
  · intro c' hc'
    rw [hc] at hc'
    cases hc'
    exact ht
  · simpa only [ClientEngine.setPc, update_self] using hknows
  · intro _
    have hdrawn := hown.drawn s₀ hold
    refine ⟨?_, hdrawn.2⟩
    change s₀ < T.nextSeq
    rw [hseq]
    exact hdrawn.1
  · simp [ClientEngine.setPc, setLife, hc, hl]
  · intro c' hl' hc'
    simp only [ClientEngine.setPc, setLife, update_self] at hl'
    rw [show w.claims s₀ = some c' from hc', Option.some.injEq] at hc
    subst hc
    exact ⟨(hlive hl').1, (hlive hl').2.1⟩
  · intro hl'
    simp only [ClientEngine.setPc, setLife, update_self] at hl'
    exact hstoring hl'
  · simpa only [ClientEngine.setPc, setLife, update_self] using hapart
  · simpa only [ClientEngine.setPc, setLife, update_self] using hpast
  · intro hl'
    simp only [ClientEngine.setPc, setLife, update_self] at hl'
    exact .inr (hlive hl').2.2
  · simp [ClientEngine.setPc, setLife, hopen, hopen']
  · simp [ClientEngine.setPc, setLife, hopen, hopen']

theorem setLife_eq_self (h : w.life s = l) : w.setLife s l = w := by
  rw [setLife, ← h, update_eq_self]

theorem Own.apart_of_holds (hown : w.Own) (hs : Holds (w.life s₀)) (s : ℕ) (hne : s ≠ s₀)
    (hs' : Holds (w.life s)) : w.table.slotIndex s ≠ w.table.slotIndex s₀ :=
  fun hidx => hne (hown.apart hs' hs hidx)

theorem Own.not_sent (hown : w.Own) (h : ¬ Held (w.life s)) : s ∉ w.sent :=
  fun hs => h (hown.sent s hs)

theorem slots_setOwner_of_ne {o : ℕ} (hne : i ≠ T.slotIndex s) :
    (T.setOwner s o).slots i = T.slots i := by
  rw [setOwner, SlotTable.slots_setSlot, if_neg hne]

theorem Own.touches_write (hown : w.Own) {c : Claim}
    (hknows : w.SenderKnows t (.published c s)) :
    ∃ s₀, Touches w ({ w with sent := w.sent ++ [s] }.setPc t (.written c s)) t s₀ := by
  obtain ⟨ht, hc, hheld, hns⟩ := hknows
  refine ⟨s, rfl, rfl, rfl, le_rfl,
    fun t' ht' => update_of_ne ht' _ _, fun _ _ => rfl, fun _ _ => rfl,
    fun s' hs' => ?_, fun _ _ => rfl, ?_, ?_, hown.drawn s, hown.claims s, fun c' hl hc' => ?_,
    hown.storing s, ?_, hns, fun _ => hheld, fun _ => id, fun hp => ⟨hp, id⟩,
    fun hl => .inl ⟨hl, rfl⟩, Iff.rfl, Iff.rfl⟩
  · simp [ClientEngine.setPc, hs']
  · rintro c' hc'
    rw [hc] at hc'
    cases hc'
    exact ht
  · simp only [ClientEngine.setPc, update_self]
    exact ⟨ht, hc, hheld, by simp⟩
  · exact hown.live s c' hl hc'
  · by_cases hlive : w.life s = .live
    · exact .inr ⟨.inr (.inr hlive), hown.apart_of_holds (.inr hlive)⟩
    · have hnot : ¬ Holds (w.life s) := by
        rintro (h | h)
        · rw [h] at hheld
          rcases hheld with h | h | h <;> cases h
        · exact hlive h
      exact .inl ⟨rfl, hnot, hnot⟩

theorem Own.touches_senderStep (hown : w.Own) (ht : t < w.threads) (write : Except RingError Unit)
    (hseq : ∀ c, w.senders t = .counted c → w.table.nextSeq + 2 < 2 ^ 64) :
    ∃ s₀, Touches w (w.senderStep t write) t s₀ := by
  have hknows := hown.senders t ht
  rw [ClientEngine.senderStep]
  split
  · exact ⟨_, hown.touches_quiet (t := t) rfl rfl (fun _ _ => rfl) rfl rfl rfl rfl rfl rfl hknows⟩
  · rename_i c hpc
    rw [hpc] at hknows
    refine hown.touches_setPc (T := w.table.addInflight) rfl rfl rfl ?_
    split_ifs <;> exact hknows
  · exact hown.touches_reply (T := w.table.subInflight) rfl rfl rfl _ _
  · rename_i c hpc
    rw [hpc] at hknows
    exact ⟨_, hown.touches_draw hknows (hseq c hpc)⟩
  · rename_i c s hpc
    rw [hpc] at hknows
    obtain ⟨hthread, hc, hl⟩ := hknows
    have hns : s ∉ w.sent := hown.not_sent (by rw [hl]; simp [Held])
    split_ifs with hfree
    · refine ⟨_, hown.touches_mine hc hthread rfl rfl (fun i hi => slots_setOwner_of_ne hi) (by decide)
        (by simp) (by simp) (.inr ⟨.inr (.inl rfl), fun s' _ hs' hidx => ?_⟩) hns
        (by simp [hl, Past, Held]) (by simp [hl]) (by decide) ?_⟩
      · have howner := hown.owner_of_holds hs'
        have hslot : w.table.slot s' = w.table.slot s := by rw [SlotTable.slot, hidx]; rfl
        rw [hslot, hfree, ownerFree, ownerReserved] at howner
        split_ifs at howner
      · exact ⟨hthread, hc, by simp [ClientEngine.setPc, setLife], Stored.zero _ _⟩
    · exact ⟨_, hown.touches_mine hc hthread rfl rfl (fun _ _ => rfl) (by decide) (by simp) (by simp)
        (.inl ⟨rfl, by simp [hl, Holds], by simp [Holds]⟩) hns (by simp [hl, Past, Held])
        (by simp [hl]) (by decide) hthread⟩
  · exact hown.touches_reply (T := w.table.subInflight) rfl rfl rfl _ _
  · rename_i c s done hpc
    rw [hpc] at hknows
    obtain ⟨hthread, hc, hl, hst⟩ := hknows
    have hns : s ∉ w.sent := hown.not_sent (by rw [hl]; simp [Held])
    have hholds : Holds (w.life s) := .inl hl
    have hapart := hown.apart_of_holds hholds
    split_ifs with hdone
    · rw [← setLife_eq_self (s := s) (l := .storing)
        (w := { w with table := w.table.setSlot s ((w.table.slot s).store c.body done) }) hl]
      refine ⟨_, hown.touches_mine hc hthread rfl rfl (fun i hi => ?_) (by decide) (by simp) (fun _ => ?_)
        (.inr ⟨.inr (.inl rfl), hapart⟩) hns (by simp [hl, Past, Held]) (by simp [hl]) (by decide) ?_⟩
      · rw [SlotTable.slots_setSlot, if_neg hi]
      · rw [SlotTable.slot_setSlot_self, store_owner]
        exact hown.storing s hl
      · refine ⟨hthread, hc, by simp [ClientEngine.setPc, setLife], ?_⟩
        change Stored ((w.table.setSlot s _).slot s) c.body _
        rw [SlotTable.slot_setSlot_self]
        exact hst.store hdone
    · have hlt := (hown.drawn s (by rw [hl]; decide)).2
      refine ⟨_, hown.touches_mine hc hthread rfl rfl (fun i hi => slots_setOwner_of_ne hi) (by decide)
        (fun _ => ?_) (by simp) (.inr ⟨.inr (.inr rfl), hapart⟩) hns (by simp [hl, Past, Held])
        (by simp [hl]) (by decide) ?_⟩
      · rw [SlotTable.slot_setOwner_self, ownerWord_eq hlt]
        obtain ⟨hm, hzero⟩ := hst.matches hdone
        exact ⟨rfl, ⟨hm.1, hm.2, hm.3, hm.4, hm.5, hm.6⟩, hzero⟩
      · exact ⟨hthread, hc, by simp [ClientEngine.setPc, setLife, Held], hns⟩
  · rename_i c s hpc
    rw [hpc] at hknows
    split
    · exact hown.touches_write hknows
    · exact hown.touches_setPc rfl rfl rfl hknows
  · exact hown.touches_reply rfl rfl rfl _ _
  · rename_i c s e hpc
    rw [hpc] at hknows
    obtain ⟨hthread, hc, hheld, hns⟩ := hknows
    have hne := hheld.ne_fresh
    rw [ownerWord_eq (hown.drawn s hne).2]
    split_ifs with howner
    · have hlive := (hown.owner_eq_iff hne).mp howner
      refine ⟨_, hown.touches_mine hc hthread rfl rfl (fun i hi => slots_setOwner_of_ne hi) (by decide)
        (by simp) (by simp) (.inr ⟨.inl ?_, hown.apart_of_holds (.inr hlive)⟩) hns
        (by simp [hlive, Past]) (by simp [hlive]) (by decide) ?_⟩
      · rw [SlotTable.slot_setOwner_self]
      · exact ⟨hthread, hc, by simp [ClientEngine.setPc, setLife]⟩
    · exact hown.touches_reply rfl rfl rfl _ _
  · exact hown.touches_reply (T := w.table.subInflight) rfl rfl rfl _ _

/-! ## A step of the poll half -/

theorem Own.polls (hown : w.Own) (hthreads : w'.threads = w.threads)
    (hsenders : w'.senders = w.senders) (hlife : w'.life = w.life) (hclaims : w'.claims = w.claims)
    (hsent : w'.sent = w.sent) (htable : w'.table = w.table)
    (hbusy : ∀ s, ¬ Finishing s w.poll) (hknows : w.PollKnows w'.poll) : w'.Own where
  len := htable ▸ hown.len
  drawn := htable ▸ hlife ▸ hown.drawn
  claims := hclaims ▸ hlife ▸ hown.claims
  live := htable ▸ hclaims ▸ hlife ▸ hown.live
  storing := htable ▸ hlife ▸ hown.storing
  alone := htable ▸ hlife ▸ hown.alone
  owner := htable ▸ hlife ▸ hown.owner
  senders t ht := by
    rw [hsenders]
    refine (hown.senders t (hthreads ▸ ht)).frame fun s c hc _ => ?_
    rw [hclaims, hlife, htable, hsent]
    exact ⟨hc, .inl rfl, fun _ => rfl, Iff.rfl⟩
  sent := hsent ▸ hlife ▸ hown.sent
  poll := by
    refine hknows.frame (fun s hs => ?_) (fun s hs => ?_) (by rw [htable])
    · rw [hsent, hlife, hclaims]
      exact ⟨hs, rfl, rfl⟩
    · rw [hlife, hclaims]
      exact ⟨hs, rfl, id, id⟩
  won s hs := by
    rw [hlife] at hs
    exact absurd (hown.won s hs) (hbusy s)

theorem Own.slotIndex_wire (hown : w.Own) {wire : ℕ} (h : s % 2 ^ 32 = wire) :
    w.table.slotIndex wire = w.table.slotIndex s := by
  obtain ⟨k, hk, hlen⟩ := hown.len
  rw [← h, SlotTable.slotIndex_wire hk hlen]

theorem Own.slot_wire (hown : w.Own) {wire : ℕ} (h : s % 2 ^ 32 = wire) :
    w.table.slot wire = w.table.slot s := by
  rw [SlotTable.slot, hown.slotIndex_wire h]
  rfl

theorem Own.found (hown : w.Own) (htimely : w.Timely s) (hocc : (w.table.slot s).Occupied)
    (hwire : ((w.table.slot s).owner - 1) % 2 ^ 32 = s % 2 ^ 32) :
    w.life s = .live ∧ (w.table.slot s).owner = s + 1 := by
  obtain ⟨s', hidx, hlive, howner⟩ := hown.occupied (hown.slotIndex_lt s) hocc
  change (w.table.slot s).owner = s' + 1 at howner
  have hnear := htimely hocc
  rw [howner] at hwire hnear
  have heq : s' = s := by omega
  rw [heq] at hlive howner
  exact ⟨hlive, howner⟩

theorem Own.receive (hown : w.Own) (hl : w.life s = .live) (mask : ℕ) :
    { w with table := w.table.setSlot s { w.table.slot s with received := mask } }.Own := by
  have hother : ∀ s' ≠ s, Holds (w.life s') →
      (w.table.setSlot s { w.table.slot s with received := mask }).slot s' = w.table.slot s' :=
    fun s' hne hs' => SlotTable.slot_setSlot_of_ne (hown.apart_of_holds (.inr hl) s' hne hs')
  exact
    { hown with
      live := by
        intro s' c hs' hc
        by_cases hne : s' = s
        · subst hne
          dsimp only at hs' hc ⊢
          rw [SlotTable.slot_setSlot_self]
          obtain ⟨ho, hm⟩ := hown.live s' c hs' hc
          exact ⟨ho, hm.1, hm.2, hm.3, hm.4, hm.5, hm.6⟩
        · dsimp only at hs' hc ⊢
          rw [hother s' hne (.inr hs')]
          exact hown.live s' c hs' hc
      storing := by
        intro s' hs'
        have hne : s' ≠ s := by
          rintro rfl
          rw [hl] at hs'
          cases hs'
        dsimp only at hs' ⊢
        rw [hother s' hne (.inl hs')]
        exact hown.storing s' hs'
      owner := by
        intro i hi
        rw [SlotTable.slots_setSlot]
        split_ifs with hidx
        · exact .inr ⟨s, hidx.symm, .inr hl⟩
        · exact hown.owner i hi
      senders := by
        intro t ht
        refine (hown.senders t ht).frame fun s' c hc _ => ⟨hc, .inl rfl, fun hst => ?_, Iff.rfl⟩
        refine hother s' ?_ (.inl hst)
        rintro rfl
        rw [hl] at hst
        cases hst
      poll := hown.poll.frame (fun s' hs' => ⟨hs', rfl, rfl⟩) (fun s' hs' => ⟨hs', rfl, id, id⟩) rfl }

/-- The poll half takes a request on: it frees the slot of a live one, or calls
    back for one whose slot is freed. -/
theorem Own.advance (hown : w.Own) (hl : l = .won ∨ l = .done)
    (hslots : w.life s = .live ∧ w'.table.slots = (w.table.setOwner s ownerFree).slots ∨
      w.life s = .won ∧ w'.table.slots = w.table.slots) (hlen : w'.table.len = w.table.len)
    (hseq : w'.table.nextSeq = w.table.nextSeq) (hthreads : w'.threads = w.threads)
    (hsenders : w'.senders = w.senders) (hlife' : w'.life = update w.life s l)
    (hclaims : w'.claims = w.claims) (hsent : w'.sent = w.sent) (hknows : w'.PollKnows w'.poll)
    (hwon : ∀ s', w'.life s' = .won → Finishing s' w'.poll) : w'.Own := by
  have hidx : ∀ s', w'.table.slotIndex s' = w.table.slotIndex s' := fun s' => by
    rw [SlotTable.slotIndex, SlotTable.slotIndex, hlen]
  have hother : ∀ s' ≠ s, Holds (w.life s') → w'.table.slot s' = w.table.slot s' := by
    intro s' hne hs'
    rw [SlotTable.slot, hidx]
    obtain ⟨hlive, heq⟩ | ⟨-, heq⟩ := hslots
    · rw [heq]
      exact SlotTable.slot_setOwner_of_ne (hown.apart_of_holds (.inr hlive) s' hne hs')
    · rw [heq]
      rfl
  have hheld : Held (w.life s) := hslots.elim (fun h => .inl h.1) fun h => .inr (.inl h.1)
  have hheld' : Held l := hl.elim (fun h => h ▸ .inr (.inl rfl)) fun h => h ▸ .inr (.inr rfl)
  have hlife : ∀ s' ≠ s, w'.life s' = w.life s' := fun s' hne => by
    rw [hlife', update_of_ne hne]
  have hself : w'.life s = l := by rw [hlife', update_self]
  have hne_of : ∀ s', Holds (w'.life s') → s' ≠ s := by
    rintro s' hs' rfl
    rw [hself] at hs'
    rcases hl with rfl | rfl <;> rcases hs' with h | h <;> cases h
  constructor
  · exact hlen ▸ hown.len
  · intro s' hs'
    rw [hseq]
    by_cases hne : s' = s
    · subst hne
      exact hown.drawn s' hheld.ne_fresh
    · exact hown.drawn s' (hlife s' hne ▸ hs')
  · intro s'
    rw [hclaims]
    by_cases hne : s' = s
    · subst hne
      rw [hself, hown.claims]
      exact iff_of_false hheld.ne_fresh hheld'.ne_fresh
    · rw [hlife s' hne]
      exact hown.claims s'
  · intro s' c hs' hc
    have hne := hne_of s' (.inr hs')
    rw [hlife s' hne] at hs'
    rw [hother s' hne (.inr hs')]
    exact hown.live s' c hs' (hclaims ▸ hc)
  · intro s' hs'
    have hne := hne_of s' (.inl hs')
    rw [hlife s' hne] at hs'
    rw [hother s' hne (.inl hs')]
    exact hown.storing s' hs'
  · intro s' s'' hs' hs'' h
    rw [hlife s' (hne_of s' (.inl hs'))] at hs'
    rw [hlife s'' (hne_of s'' (.inl hs''))] at hs''
    rw [hidx, hidx] at h
    exact hown.alone s' s'' hs' hs'' h
  · intro i hi
    rw [hlen] at hi
    have hkeep : (w.table.slots i).owner = ownerFree ∨ ∃ s', w'.table.slotIndex s' = i ∧
        (s' ≠ s → Holds (w'.life s')) ∧ (s' = s → w.life s = .live) := by
      refine (hown.owner i hi).imp id fun ⟨s', hs', hh⟩ => ⟨s', (hidx s').trans hs', fun hne => ?_, ?_⟩
      · rwa [hlife s' hne]
      · rintro rfl
        refine hslots.elim And.left fun h => ?_
        rw [h.1] at hh
        rcases hh with h | h <;> cases h
    obtain ⟨hlive, heq⟩ | ⟨hw, heq⟩ := hslots
    · rw [heq, setOwner, SlotTable.slots_setSlot]
      split_ifs with h
      · exact .inl rfl
      · refine hkeep.imp id fun ⟨s', hs', hh, _⟩ => ⟨s', hs', hh ?_⟩
        rintro rfl
        exact h (hs'.symm.trans (hidx s'))
    · rw [heq]
      refine hkeep.imp id fun ⟨s', hs', hh, hsame⟩ => ⟨s', hs', hh fun h => ?_⟩
      rw [hsame h] at hw
      cases hw
  · intro t ht
    rw [hsenders]
    refine (hown.senders t (hthreads ▸ ht)).frame fun s' c hc _ => ?_
    rw [hclaims, hsent]
    by_cases hne : s' = s
    · subst hne
      rw [hself]
      refine ⟨hc, .inr ⟨hheld, hheld'⟩, fun hst => ?_, Iff.rfl⟩
      rw [hst] at hheld
      rcases hheld with h | h | h <;> cases h
    · rw [hlife s' hne]
      exact ⟨hc, .inl rfl, fun hst => hother s' hne (.inl hst), Iff.rfl⟩
  · intro s' hs'
    by_cases hne : s' = s
    · subst hne
      rw [hself]
      exact hheld'
    · rw [hlife s' hne]
      exact hown.sent s' (hsent ▸ hs')
  · exact hknows
  · exact hwon

theorem Finishing.unique {pc : PollPc} (h : Finishing s pc) (h' : Finishing s' pc) : s = s' := by
  cases pc with
  | resolve r q stage => cases stage <;> simp_all [Finishing]
  | scan mode i stage => cases stage <;> simp_all [Finishing]
  | _ => exact h.elim

theorem Own.win (hown : w.Own) (hl : w.life s = .live) (hbusy : ∀ s, ¬ Finishing s w.poll)
    {pc : PollPc} (hfin : Finishing s pc)
    (hknows : ({ w with table := w.table.setOwner s ownerFree, poll := pc }.setLife s .won).PollKnows
      pc) :
    ({ w with table := w.table.setOwner s ownerFree, poll := pc }.setLife s .won).Own := by
  refine hown.advance (s := s) (.inl rfl) (.inl ⟨hl, rfl⟩) rfl rfl rfl rfl rfl rfl rfl hknows
    fun s' hs' => ?_
  by_cases hne : s' = s
  · subst hne
    exact hfin
  · change update w.life s _ s' = _ at hs'
    rw [update_of_ne hne] at hs'
    exact absurd (hown.won s' hs') (hbusy s')

theorem Own.finish (hown : w.Own) (hl : w.life s = .won) (hfanin : ℕ → FanIn) (pc : PollPc)
    (cs : List Completion) (hknows : ∀ v : ClientEngine, v.PollKnows pc) :
    ({ w with
        table := w.table.subInflight, fanin := hfanin, poll := pc, completions := cs }.setLife s
          .done).Own := by
  refine hown.advance (s := s) (.inr rfl) (.inr ⟨hl, rfl⟩) rfl rfl rfl rfl rfl rfl rfl (hknows _)
    fun s' hs' => ?_
  by_cases hne : s' = s
  · subst hne
    simp [setLife] at hs'
  · change update w.life s _ s' = _ at hs'
    rw [update_of_ne hne] at hs'
    exact absurd ((hown.won s' hs').unique (hown.won s hl)) hne

theorem and_bit_eq_zero (e ring : ℕ) : e &&& 1 <<< ring = 0 ↔ e.testBit ring = false := by
  rw [Nat.one_shiftLeft, Nat.and_two_pow]
  cases e.testBit ring <;> simp

theorem Own.here (hown : w.Own) (hl : w.life s = .live) :
    (w.table.slot s).Occupied ∧ ((w.table.slot s).owner - 1) % 2 ^ 32 = s % 2 ^ 32 := by
  have hne : w.life s ≠ .fresh := by rw [hl]; decide
  have hlt := (hown.drawn s hne).2
  rw [Slot.Occupied, (hown.owner_eq_iff hne).mpr hl, ownerFree, ownerReserved]
  exact ⟨by omega, rfl⟩

theorem Own.resolveStep (hown : w.Own) {r : EgressRecord} {stage : ResolveStage}
    (hpc : w.poll = .resolve r s stage) (htimely : w.Timely s) : (w.resolveStep r s stage).Own := by
  have hpoll := hown.poll
  rw [hpc] at hpoll
  obtain ⟨hsent, hwire, hring, hknows⟩ := hpoll
  have hslot := hown.slot_wire hwire
  have hidx := hown.slotIndex_wire hwire
  -- a stage that only reads
  have goes : ∀ pc, (∀ q, ¬ Finishing q w.poll) → w.PollKnows pc → { w with poll := pc }.Own :=
    fun pc hbusy hpc' => hown.polls rfl rfl rfl rfl rfl rfl hbusy hpc'
  have idle : (∀ q, ¬ Finishing q w.poll) → { w with poll := .idle }.Own := fun hbusy =>
    goes _ hbusy trivial
  have notFinish : (∀ min o f u i, stage ≠ .finish min o f u i) → ∀ q, ¬ Finishing q w.poll := by
    intro hstage q hq
    rw [hpc] at hq
    cases stage <;> simp [Finishing] at hq
    exact hstage _ _ _ _ _ rfl
  cases stage with
  | minOwner =>
    dsimp only [ClientEngine.resolveStep]
    rw [hslot, ← hwire]
    refine goes _ (notFinish (by simp)) ⟨hsent, hwire, hring, ?_⟩
    split_ifs with hhere
    · exact (hown.found htimely hhere.1 hhere.2).1
    · exact fun c _ hl => absurd (hown.here hl) hhere
  | minValue =>
    dsimp only [ClientEngine.resolveStep]
    rw [hslot]
    refine goes _ (notFinish (by simp)) ⟨hsent, hwire, hring, fun c hc hl _ => ?_⟩
    exact (hown.live s c hl hc).2.minPosition
  | owner min =>
    dsimp only [ClientEngine.resolveStep]
    rw [hslot, ← hwire]
    split_ifs with hhere hans
    · obtain ⟨hl, ho⟩ := hown.found htimely hhere.1 hhere.2
      obtain ⟨c, hc⟩ := hown.claim (s := s) (by rw [hl]; decide)
      exact goes _ (notFinish (by simp)) ⟨hsent, hwire, hring, c, ⟨hc, hl, ho⟩, hknows c hc hl⟩
    · obtain ⟨hl, ho⟩ := hown.found htimely hhere.1 hhere.2
      obtain ⟨c, hc⟩ := hown.claim (s := s) (by rw [hl]; decide)
      refine goes _ (notFinish (by simp)) ⟨hsent, hwire, hring, c, ⟨hc, hl, ho⟩, hknows c hc hl,
        fun a ha => ?_⟩
      rw [Option.mem_def] at ha
      simp [ha] at hans
    · exact idle (notFinish (by simp))
  | kind min owner =>
    dsimp only [ClientEngine.resolveStep]
    rw [hslot]
    obtain ⟨c, ⟨hc, hl, ho⟩, hmin⟩ := hknows
    split_ifs with hkind
    · refine goes _ (notFinish (by simp)) ⟨hsent, hwire, hring, c, ⟨hc, hl, ho⟩, hmin, fun a ha => ?_⟩
      rw [Option.mem_def] at ha
      rw [ha, Option.map_some, Option.some.injEq, (hown.live s c hl hc).2.kind] at hkind
      exact hkind
    · exact idle (notFinish (by simp))
  | expected min owner =>
    dsimp only [ClientEngine.resolveStep]
    rw [hslot]
    obtain ⟨c, ⟨hc, hl, ho⟩, hmin, hkind⟩ := hknows
    rw [(hown.live s c hl hc).2.expected]
    split
    · exact goes _ (notFinish (by simp)) ⟨hsent, hwire, hring, c, ⟨hc, hl, ho⟩, hmin, hkind⟩
    · rename_i ring k payload hans
      split_ifs with hbit hone
      · exact idle (notFinish (by simp))
      · exact goes _ (notFinish (by simp)) ⟨hsent, hwire, hring, c, ⟨hc, hl, ho⟩, hmin, hkind⟩
      · refine goes _ (notFinish (by simp)) ⟨hsent, hwire, hring, c, ⟨hc, hl, ho⟩, hmin, hkind, rfl,
          ⟨_, hans, rfl⟩, ?_, hone⟩
        rw [and_bit_eq_zero] at hbit
        exact Bool.eq_true_of_not_eq_false hbit
  | received min owner expected ring =>
    dsimp only [ClientEngine.resolveStep]
    obtain ⟨c, ⟨hc, hl, ho⟩, hmin, hkind, -⟩ := hknows
    have hset : ∀ x, w.table.setSlot r.wireSeq x = w.table.setSlot s x := fun x => by
      rw [setSlot, setSlot, hidx]
    rw [hslot, hset]
    have hrecv := hown.receive hl ((w.table.slot s).received ||| 1 <<< ring)
    have hbusy := notFinish (by simp)
    split_ifs
    · exact hrecv.polls rfl rfl rfl rfl rfl rfl hbusy trivial
    · exact hrecv.polls rfl rfl rfl rfl rfl rfl hbusy trivial
    · exact hrecv.polls rfl rfl rfl rfl rfl rfl hbusy
        ⟨hsent, hwire, hring, c, ⟨hc, hl, ho⟩, hmin, hkind⟩
  | userData min owner first =>
    dsimp only [ClientEngine.resolveStep]
    rw [hslot]
    obtain ⟨c, ⟨hc, hl, ho⟩, hmin, hkind⟩ := hknows
    exact goes _ (notFinish (by simp)) ⟨hsent, hwire, hring, c, ⟨hc, hl, ho⟩, hmin, hkind,
      (hown.live s c hl hc).2.userData⟩
  | fanIn min owner first ud =>
    dsimp only [ClientEngine.resolveStep]
    rw [hslot]
    obtain ⟨c, ⟨hc, hl, ho⟩, hmin, hkind, hud⟩ := hknows
    exact goes _ (notFinish (by simp)) ⟨hsent, hwire, hring, c, ⟨hc, hl, ho⟩, hmin, hkind, hud,
      (hown.live s c hl hc).2.fanIn⟩
  | exchange min owner first ud fi =>
    dsimp only [ClientEngine.resolveStep]
    obtain ⟨c, ⟨hc, hl, rfl⟩, hmin, hkind, hud, hfi⟩ := hknows
    have hset : w.table.setOwner r.wireSeq ownerFree = w.table.setOwner s ownerFree := by
      rw [setOwner, setOwner, setSlot, setSlot, hidx, hslot]
    rw [hslot, hset, if_pos ((hown.owner_eq_iff (by rw [hl]; decide)).mpr hl)]
    refine hown.win hl (notFinish (by simp)) rfl ⟨hsent, hwire, hring, c, hc, ?_, rfl, hmin, hkind, hud,
      hfi⟩
    simp [setLife]
  | finish min owner first ud fi =>
    obtain ⟨c, hc, hl, rfl, -⟩ := hknows
    exact hown.finish hl _ _ _ fun v => trivial

theorem Own.scanStep (hown : w.Own) {mode : ScanMode} {stage : ScanStage}
    (hpc : w.poll = .scan mode i stage) : (w.scanStep mode i stage).Own := by
  have hknows := hown.poll
  rw [hpc] at hknows
  have goes : ∀ pc, (∀ q, ¬ Finishing q w.poll) → w.PollKnows pc → { w with poll := pc }.Own :=
    fun pc hbusy hpc' => hown.polls rfl rfl rfl rfl rfl rfl hbusy hpc'
  have notFinish : (∀ o u, stage ≠ .finish o u) → ∀ q, ¬ Finishing q w.poll := by
    intro hstage q hq
    rw [hpc] at hq
    cases stage <;> simp [Finishing] at hq
    exact hstage _ _ rfl
  cases stage with
  | owner =>
    dsimp only [ClientEngine.scanStep]
    by_cases hend : w.table.len ≤ i
    · rw [if_pos hend]
      refine goes _ (notFinish (by simp)) ?_
      cases mode <;> trivial
    rw [if_neg hend]
    by_cases hocc : (w.table.slots i).Occupied
    · rw [if_pos hocc]
      obtain ⟨s, hidx, hl, ho⟩ := hown.occupied (Nat.lt_of_not_le hend) hocc
      refine goes _ (notFinish (by simp)) ?_
      have hsc : i < w.table.len ∧ ∃ s, (w.table.slots i).owner = s + 1 ∧ w.table.slotIndex s = i ∧
          Past (w.life s) := ⟨Nat.lt_of_not_le hend, s, ho, hidx, .inl (.inl hl)⟩
      cases mode <;> exact hsc
    · rw [if_neg hocc]
      exact goes _ (notFinish (by simp)) trivial
  | deadline owner =>
    dsimp only [ClientEngine.scanStep]
    split
    · split_ifs
      · exact goes _ (notFinish (by simp)) trivial
      · exact goes _ (notFinish (by simp)) hknows
    · exact goes _ (notFinish (by simp)) hknows
  | userData owner =>
    obtain ⟨hi, s, ho, hidx, hp⟩ := hknows
    refine goes _ (notFinish (by simp)) ⟨hi, s, ho, hidx, hp, fun c hl hc => ?_⟩
    have hm := (hown.live s c hl hc).2.userData
    rwa [SlotTable.slot, hidx] at hm
  | exchange owner ud =>
    dsimp only [ClientEngine.scanStep]
    obtain ⟨hi, s, rfl, hidx, hp, hud⟩ := hknows
    split_ifs with howner
    · have hslot : w.table.slot s = w.table.slots i := by rw [SlotTable.slot, hidx]
      have hl : w.life s = .live := (hown.owner_eq_iff hp.ne_fresh).mp (by rw [hslot, howner])
      obtain ⟨c, hc⟩ := hown.claim hp.ne_fresh
      have hii : w.table.slotIndex i = i := Nat.mod_eq_of_lt hi
      have hset : w.table.setOwner i ownerFree = w.table.setOwner s ownerFree := by
        rw [setOwner, setOwner, setSlot, setSlot, hii, hidx,
          SlotTable.slot, SlotTable.slot, hii, hidx]
      rw [hset]
      refine hown.win hl (notFinish (by simp)) rfl ⟨s, c, rfl, ?_, hc, hud c hl hc⟩
      simp [setLife]
    · exact goes _ (notFinish (by simp)) trivial
  | finish owner ud =>
    obtain ⟨s, c, rfl, hl, -⟩ := hknows
    exact hown.finish hl _ _ _ fun v => trivial

theorem Own.deliver (hown : w.Own) (hidle : w.poll = .idle) {r : EgressRecord}
    (hgen : w.Genuine r s) : (w.deliver r s).Own := by
  have hbusy : ∀ q, ¬ Finishing q w.poll := by
    rw [hidle]
    exact fun _ => id
  rw [ClientEngine.deliver]
  by_cases hclient : r.client ≠ w.shared.clientId
  · rw [if_pos hclient]
    exact hown
  rw [if_neg hclient]
  obtain ⟨hsent, hwire, hring⟩ := hgen (not_not.mp hclient)
  split
  · rename_i ring k payload hans
    refine hown.polls rfl rfl rfl rfl rfl rfl hbusy ⟨hsent, hwire, hring, ?_⟩
    split_ifs with hk
    · trivial
    · intro c _ _ hq
      rw [hans, Option.map_some, Option.some.injEq] at hq
      exact absurd hq hk
  · rename_i hans
    split_ifs
    · refine hown.polls rfl rfl rfl rfl rfl rfl hbusy ⟨hsent, hwire, hring, ?_⟩
      intro c _ _ hq
      rw [hans] at hq
      cases hq
    · exact hown

theorem room_of_possible {write : Except RingError Unit} (h : w.Possible (.sender t write)) (c : Claim)
    (hc : w.senders t = .counted c) : w.table.nextSeq + 2 < 2 ^ 64 := by
  have hroom := h.2 t rfl
  rw [hc] at hroom
  exact hroom rfl

theorem Own.exec (hown : w.Own) (step : EngineStep) (hp : w.Possible step) :
    (w.exec step).Own := by
  have h := hp.1
  have hbusy : w.poll = .idle → ∀ q, ¬ Finishing q w.poll := by
    rintro hidle q hq
    rw [hidle] at hq
    exact hq
  cases step with
  | enter t call v =>
    obtain ⟨s₀, htouch⟩ := hown.touches_enter h.2 call v
    exact hown.touches htouch
  | sender t write =>
    obtain ⟨s₀, htouch⟩ := hown.touches_senderStep h write (room_of_possible hp)
    exact hown.touches htouch
  | deliver r s => exact hown.deliver h.1 h.2
  | maintain observed =>
    dsimp only [ClientEngine.exec]
    rw [ClientEngine.maintain]
    split_ifs
    · exact hown.polls rfl rfl rfl rfl rfl rfl (hbusy h) trivial
    · exact hown.polls rfl rfl rfl rfl rfl rfl (hbusy h) trivial
  | drainAbort => exact hown.polls rfl rfl rfl rfl rfl rfl (hbusy h) trivial
  | poll now =>
    dsimp only [ClientEngine.exec]
    rw [ClientEngine.pollStep]
    split
    · exact hown
    · rename_i r s stage hpc
      refine hown.resolveStep hpc ?_
      simpa only [Allowed, PollTimely, hpc] using h
    · rename_i hpc
      refine hown.polls rfl rfl rfl rfl rfl rfl (fun q hq => ?_) trivial
      rw [hpc] at hq
      exact hq
    · rename_i mode i stage hpc
      exact hown.scanStep hpc

theorem own_start (sh : EngineShared) {maxInflight : ℕ} (hmax : maxInflight < 2 ^ 32)
    (startSeq threads : ℕ) : (start sh maxInflight startSeq threads).Own where
  len := SlotTable.tableLen_eq_pow maxInflight hmax
  drawn s hs := absurd rfl hs
  claims s := by simp [start]
  live s c hs := by cases hs
  storing s hs := by cases hs
  alone s s' hs := by cases hs
  owner i _ := .inl rfl
  senders t _ := trivial
  sent s hs := by cases hs
  poll := trivial
  won s hs := by cases hs

end ClientEngine

end UltimaCluster
