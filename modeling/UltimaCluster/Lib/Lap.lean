/-
  A ring of cells addressed by stream positions, and what a copy of a cell is
  worth later.

  Position `q` lives in cell `q % C`.  For every cell the store records the
  position it was last written for, and for every position the value last
  written for it.  As long as no write goes to a cell that holds a later lap,
  the position that a cell holds only grows; a copy made at any time is then of
  its own lap if the cell is not a lap ahead afterwards.
-/
import Mathlib.Data.Nat.ModEq
import Mathlib.Tactic.Linarith

namespace Lap

variable {α : Type*} {C : ℕ}

/-- Of two positions of one cell that are less than a lap apart, the one that
    is below the other plus a lap is not above it. -/
theorem le_of_mod_eq {p q : ℕ} (h : p % C = q % C) (hlt : p < q + C) : p ≤ q := by
  by_contra hle
  have hdvd : C ∣ p - q := (Nat.modEq_iff_dvd' (by omega)).mp h.symm
  have := Nat.le_of_dvd (by omega) hdvd
  omega

/-- Cells that are written lap after lap. -/
structure Store (α : Type*) where
  cell : ℕ → α
  /-- The position that a cell was last written for. -/
  owner : ℕ → Option ℕ
  /-- The value last written for a position. -/
  last : ℕ → Option α

namespace Store

/-- A write at a position. -/
def write (C : ℕ) (s : Store α) (w : ℕ) (b : α) : Store α where
  cell o := if o = w % C then b else s.cell o
  owner o := if o = w % C then some w else s.owner o
  last q := if q = w then some b else s.last q

section

variable (C : ℕ) (s : Store α) (w : ℕ) (b : α)

@[simp] theorem write_owner_self : (s.write C w b).owner (w % C) = some w := if_pos rfl

@[simp] theorem write_cell_self : (s.write C w b).cell (w % C) = b := if_pos rfl

@[simp] theorem write_last_self : (s.write C w b).last w = some b := if_pos rfl

variable {C w}

theorem write_owner_ne {o : ℕ} (h : o ≠ w % C) : (s.write C w b).owner o = s.owner o := if_neg h

theorem write_cell_ne {o : ℕ} (h : o ≠ w % C) : (s.write C w b).cell o = s.cell o := if_neg h

theorem write_last_ne {q : ℕ} (h : q ≠ w) : (s.write C w b).last q = s.last q := if_neg h

end

/-- Every cell holds what was last written for its position, and a position
    that was written keeps its cell or has lost it to a later lap. -/
structure Ok (C : ℕ) (s : Store α) : Prop where
  place : ∀ o q, s.owner o = some q → q % C = o
  holds : ∀ o q, s.owner o = some q → s.last q = some (s.cell o)
  kept : ∀ q b, s.last q = some b → ∃ q', s.owner (q % C) = some q' ∧ q ≤ q'

variable {s : Store α} {w : ℕ} {b : α}

theorem Ok.owner_write (h : s.Ok C) (hw : ∀ q, s.owner (w % C) = some q → q < w + C) {o q : ℕ}
    (ho : s.owner o = some q) : ∃ q', (s.write C w b).owner o = some q' ∧ q ≤ q' := by
  by_cases he : o = w % C
  · subst he
    exact ⟨w, write_owner_self C s w b, le_of_mod_eq (h.place _ _ ho) (hw q ho)⟩
  · exact ⟨q, (write_owner_ne s b he).trans ho, le_rfl⟩

theorem Ok.write (h : s.Ok C) (hw : ∀ q, s.owner (w % C) = some q → q < w + C) :
    (s.write C w b).Ok C where
  place o q ho := by
    by_cases he : o = w % C
    · rw [he, write_owner_self] at ho
      rw [he, ← Option.some.inj ho]
    · rw [write_owner_ne s b he] at ho
      exact h.place o q ho
  holds o q ho := by
    by_cases he : o = w % C
    · rw [he, write_owner_self] at ho
      rw [he, ← Option.some.inj ho, write_last_self, write_cell_self]
    · rw [write_owner_ne s b he] at ho
      have hq : q ≠ w := fun heq => he (by rw [← heq, h.place o q ho])
      rw [write_last_ne s b hq, write_cell_ne s b he]
      exact h.holds o q ho
  kept q x hx := by
    by_cases hq : q = w
    · exact ⟨w, hq ▸ write_owner_self C s w b, hq.le⟩
    · rw [write_last_ne s b hq] at hx
      obtain ⟨q', ho, hle⟩ := h.kept q x hx
      obtain ⟨q'', ho', hle'⟩ := h.owner_write hw ho
      exact ⟨q'', ho', hle.trans hle'⟩

end Store

/-- A copy of the cell of `q`: the value, with the position that the cell held. -/
structure Copied (C : ℕ) (s : Store α) (q : ℕ) (e : α × Option ℕ) : Prop where
  place : ∀ q', e.2 = some q' → q' % C = q % C
  grown : ∀ q', e.2 = some q' → ∃ q'', s.owner (q % C) = some q'' ∧ q' ≤ q''
  value : e.2 = some q → s.last q = some e.1
  written : ∀ x, s.last q = some x → ∃ q', e.2 = some q' ∧ q ≤ q'

section

variable {s : Store α} {q w : ℕ} {b : α} {e : α × Option ℕ}

theorem Store.Ok.copied (h : s.Ok C) (q : ℕ) :
    Copied C s q (s.cell (q % C), s.owner (q % C)) where
  place _ hq' := h.place _ _ hq'
  grown q' hq' := ⟨q', hq', le_rfl⟩
  value hq := h.holds _ _ hq
  written x hx := h.kept q x hx

theorem Copied.write (h : Copied C s q e) (hs : s.Ok C)
    (hw : ∀ q, s.owner (w % C) = some q → q < w + C) (hne : w ≠ q) :
    Copied C (s.write C w b) q e where
  place := h.place
  grown q' hq' := by
    obtain ⟨q'', ho, hle⟩ := h.grown q' hq'
    obtain ⟨q3, ho', hle'⟩ := hs.owner_write hw ho
    exact ⟨q3, ho', hle.trans hle'⟩
  value hq := by
    rw [Store.write_last_ne s b hne.symm]
    exact h.value hq
  written x hx := by
    rw [Store.write_last_ne s b hne.symm] at hx
    exact h.written x hx

/-- A copy that is not a lap ahead: nothing of a later lap, and what was last
    written for the position, if anything was. -/
theorem Copied.exact (h : Copied C s q e) (hlap : ∀ q', e.2 = some q' → q' < q + C) :
    (∀ q', e.2 = some q' → q' ≤ q) ∧ ∀ x, s.last q = some x → e = (x, some q) := by
  have hle : ∀ q', e.2 = some q' → q' ≤ q := fun q' hq' =>
    le_of_mod_eq (h.place q' hq') (hlap q' hq')
  refine ⟨hle, fun x hx => ?_⟩
  obtain ⟨q', hq', hge⟩ := h.written x hx
  have hq : e.2 = some q := by rw [hq', le_antisymm (hle q' hq') hge]
  have hx' := h.value hq
  rw [hx] at hx'
  exact Prod.ext (Option.some.inj hx').symm hq

end

end Lap
