/-
  The slots of a client's requests (`uc_client/src/slots.rs`).

  The owner word of a slot says whether it is free, being claimed, or of which
  request; a request has it from the store that publishes it to the one
  compare-exchange that frees it.  Words are natural numbers below 2^64; `inflight`
  is not bounded, being never more than the slots and the threads.
-/
import UltimaCluster.Lib.Bytes
import Mathlib.Data.Nat.Log
import Mathlib.Algebra.BigOperators.Group.Finset.Basic

namespace UltimaCluster

/-- `FREE`. -/
def ownerFree : ℕ := 0

/-- `RESERVED`, that is `u64::MAX`: mid-claim. -/
def ownerReserved : ℕ := 2 ^ 64 - 1

/-- What was asked for. -/
inductive ReqKind where
  | submit
  | query
deriving DecidableEq

/-- What a claim writes beside the owner word. -/
structure SlotMeta where
  userData : ℕ
  deadlineNs : ℕ
  kind : ReqKind
  /-- The rings that have to answer, as a mask. -/
  expected : ℕ
  /-- The rings that have answered. -/
  received : ℕ
  fanIn : Bool
  /-- The token of the query, 0 for none. -/
  minPosition : ℕ
deriving DecidableEq

/-- A slot with its owner word. -/
structure Slot extends SlotMeta where
  owner : ℕ
deriving DecidableEq

namespace Slot

def new : Slot := ⟨⟨0, 0, .submit, 0, 0, false, 0⟩, ownerFree⟩

/-- The request of the word: the sequence number that it was published with. -/
def Occupied (s : Slot) : Prop := s.owner ≠ ownerFree ∧ s.owner ≠ ownerReserved

instance (s : Slot) : Decidable s.Occupied := inferInstanceAs (Decidable (_ ∧ _))

/-- The stores of a claim, in their order. -/
def store (s : Slot) (m : SlotMeta) : ℕ → Slot
  | 0 => { s with userData := m.userData }
  | 1 => { s with deadlineNs := m.deadlineNs }
  | 2 => { s with kind := m.kind }
  | 3 => { s with expected := m.expected }
  | 4 => { s with received := 0 }
  | 5 => { s with fanIn := m.fanIn }
  | _ => { s with minPosition := m.minPosition }

end Slot

/-- The table of slots. -/
structure SlotTable where
  len : ℕ
  slots : ℕ → Slot
  nextSeq : ℕ
  inflight : ℕ
  maxInflight : ℕ

namespace SlotTable

/-- `next_power_of_two` on 32 bits gives 0 where the power does not fit. -/
def tableLen (maxInflight : ℕ) : ℕ := max (2 ^ Nat.clog 2 maxInflight % 2 ^ 32 * 2) 64

def new (maxInflight startSeq : ℕ) : SlotTable :=
  ⟨tableLen maxInflight, fun _ => .new, startSeq, 0, maxInflight⟩

/-- `slot_index`: the length is a power of two, so the mask is a remainder. -/
def slotIndex (T : SlotTable) (seq : ℕ) : ℕ := seq % T.len

/-- The slot of a sequence number. -/
def slot (T : SlotTable) (seq : ℕ) : Slot := T.slots (T.slotIndex seq)

def setSlot (T : SlotTable) (seq : ℕ) (s : Slot) : SlotTable :=
  { T with slots := Function.update T.slots (T.slotIndex seq) s }

def setOwner (T : SlotTable) (seq owner : ℕ) : SlotTable :=
  T.setSlot seq { T.slot seq with owner }

def subInflight (T : SlotTable) : SlotTable := { T with inflight := T.inflight - 1 }

/-- `fetch_add` of the counter of the window. -/
def addInflight (T : SlotTable) : SlotTable := { T with inflight := T.inflight + 1 }

/-- `fetch_add` of the sequence; it wraps. -/
def drawSeq (T : SlotTable) : SlotTable := { T with nextSeq := (T.nextSeq + 1) % 2 ^ 64 }

/-- The word that publishes a sequence number. -/
def ownerWord (seq : ℕ) : ℕ := (seq + 1) % 2 ^ 64

theorem tableLen_eq_pow (m : ℕ) (hm : m < 2 ^ 32) : ∃ k ≤ 32, tableLen m = 2 ^ k := by
  rw [tableLen]
  have hk : Nat.clog 2 m ≤ 32 := Nat.clog_le_of_le_pow (by omega)
  rcases Nat.lt_or_ge (Nat.clog 2 m) 32 with hlt | hge
  · have hmod : 2 ^ Nat.clog 2 m % 2 ^ 32 = 2 ^ Nat.clog 2 m :=
      Nat.mod_eq_of_lt (Nat.pow_lt_pow_right (by decide) hlt)
    rw [hmod, ← pow_succ]
    rcases Nat.lt_or_ge (Nat.clog 2 m + 1) 6 with h6 | h6
    · have hle : 2 ^ (Nat.clog 2 m + 1) ≤ 2 ^ 6 :=
        Nat.pow_le_pow_right (by decide) (Nat.le_of_lt h6)
      exact ⟨6, by decide, max_eq_right hle⟩
    · have hle : 2 ^ 6 ≤ 2 ^ (Nat.clog 2 m + 1) := Nat.pow_le_pow_right (by decide) h6
      exact ⟨Nat.clog 2 m + 1, by omega, max_eq_left hle⟩
  · rw [Nat.le_antisymm hk hge]
    exact ⟨6, by decide, by decide⟩

end SlotTable

end UltimaCluster
