/-
  Runs of a guarded transition function, and what held at an instant of a run.
-/
import Mathlib.Data.List.Induction

section Snoc

variable {α : Type*} {l : List α} {a b : α}

theorem List.mem_snoc : a ∈ l ++ [b] ↔ a ∈ l ∨ a = b := by
  rw [List.mem_append, List.mem_singleton]

theorem List.forall_mem_snoc {P : α → Prop} (h : ∀ x ∈ l, P x) (hb : P b) : ∀ x ∈ l ++ [b], P x :=
  List.forall_mem_append.mpr ⟨h, List.forall_mem_singleton.mpr hb⟩

end Snoc

namespace Trace

variable {σ ι : Type*} {exec : σ → ι → σ} {ok : σ → ι → Prop}

/-- Every step is allowed where it is taken. -/
def Admits (exec : σ → ι → σ) (ok : σ → ι → Prop) : σ → List ι → Prop
  | _, [] => True
  | s, i :: is => ok s i ∧ Admits exec ok (exec s i) is

instance instDecidableAdmits [∀ s i, Decidable (ok s i)] :
    (s : σ) → (is : List ι) → Decidable (Admits exec ok s is)
  | _, [] => .isTrue trivial
  | s, i :: is =>
    have := instDecidableAdmits (exec s i) is
    inferInstanceAs (Decidable (_ ∧ _))

variable {s : σ}

theorem admits_append {is is' : List ι} :
    Admits exec ok s (is ++ is') ↔
      Admits exec ok s is ∧ Admits exec ok (is.foldl exec s) is' := by
  induction is generalizing s with
  | nil => simp [Admits]
  | cons i is ih => simp only [List.cons_append, Admits, List.foldl_cons, ih, and_assoc]

variable {is : List ι}

theorem admits_iff_getElem? :
    Admits exec ok s is ↔ ∀ k i, is[k]? = some i → ok ((is.take k).foldl exec s) i := by
  induction is generalizing s with
  | nil => simp [Admits]
  | cons i is ih =>
    rw [Admits, ih]
    constructor
    · rintro ⟨hok, hrest⟩ k j hj
      cases k with
      | zero =>
        rw [List.getElem?_cons_zero, Option.some.injEq] at hj
        exact hj ▸ hok
      | succ k => exact hrest k j hj
    · intro h
      exact ⟨h 0 i rfl, fun k j hj => h (k + 1) j hj⟩

theorem Admits.take (h : Admits exec ok s is) (k : ℕ) : Admits exec ok s (is.take k) := by
  rw [← List.take_append_drop k is, admits_append] at h
  exact h.1

theorem Admits.rule {P : List ι → Prop} (h0 : P [])
    (hstep : ∀ is i, P is → ok (is.foldl exec s) i → P (is ++ [i])) (h : Admits exec ok s is) :
    P is := by
  induction is using List.reverseRecOn with
  | nil => exact h0
  | append_singleton is i ih =>
    obtain ⟨hpre, hlast⟩ := admits_append.mp h
    exact hstep is i (ih hpre) hlast.1

theorem Admits.and {q : σ → ι → Prop} (h : Admits exec ok s is) (hq : ∀ i ∈ is, ∀ s, q s i) :
    Admits exec (fun s i => ok s i ∧ q s i) s is := by
  induction is generalizing s with
  | nil => trivial
  | cons i is ih =>
    exact ⟨⟨h.1, hq i List.mem_cons_self s⟩, ih h.2 fun j hj => hq j (List.mem_cons_of_mem i hj)⟩

theorem Admits.both {q : σ → ι → Prop} (h : Admits exec ok s is) (hq : Admits exec q s is) :
    Admits exec (fun s i => ok s i ∧ q s i) s is := by
  induction is generalizing s with
  | nil => trivial
  | cons i is ih => exact ⟨⟨h.1, hq.1⟩, ih h.2 hq.2⟩

theorem admits_map {κ : Type*} {f : κ → ι} {js : List κ} :
    Admits exec ok s (js.map f) ↔ Admits (fun s j => exec s (f j)) (fun s j => ok s (f j)) s js := by
  induction js generalizing s with
  | nil => exact Iff.rfl
  | cons j js ih => exact and_congr_right fun _ => ih

/-- At the `k`-th state of the run, `p` held. -/
def HeldAt (exec : σ → ι → σ) (s : σ) (is : List ι) (p : σ → Prop) (k : ℕ) : Prop :=
  k ≤ is.length ∧ p ((is.take k).foldl exec s)

theorem heldAt_length {p : σ → Prop} (h : p (is.foldl exec s)) : HeldAt exec s is p is.length :=
  ⟨Nat.le_refl _, by rwa [List.take_length]⟩

theorem HeldAt.append {p : σ → Prop} {k : ℕ} (h : HeldAt exec s is p k) (is' : List ι) :
    HeldAt exec s (is ++ is') p k := by
  obtain ⟨hk, hp⟩ := h
  refine ⟨Nat.le_trans hk (by simp), ?_⟩
  rwa [List.take_append_of_le_length hk]

end Trace
