/-
  The receiver's gap tracker (`uc_net/src/rebuild.rs`): a contiguous frontier
  and the out-of-order runs above it.

  `insert_spec` says what an insertion keeps, for any property of runs that two
  overlapping or adjacent runs share with their union.
-/
import Mathlib.Data.List.Basic
import Mathlib.Order.MinMax

namespace UltimaCluster

/-- The receive state of a log. -/
structure Rebuilt where
  contiguous : ℕ
  /-- Out-of-order runs strictly above `contiguous`, by start. -/
  ooo : List (ℕ × ℕ)
deriving DecidableEq

namespace Rebuilt

def new (start : ℕ) : Rebuilt := ⟨start, []⟩

/-- The loop that merges the runs that begin at or below a growing end. -/
def absorb (end_ : ℕ) : List (ℕ × ℕ) → ℕ × List (ℕ × ℕ)
  | [] => (end_, [])
  | (s, e) :: runs => if end_ < s then (end_, (s, e) :: runs) else absorb (max end_ e) runs

/-- The runs that begin at or below `start`, and those above it. -/
def split (start : ℕ) (runs : List (ℕ × ℕ)) : List (ℕ × ℕ) × List (ℕ × ℕ) :=
  (runs.filter (·.1 ≤ start), runs.filter (start < ·.1))

/-- Merge with the neighbour below, if it reaches `start`. -/
def mergeBelow (start end_ : ℕ) (below : List (ℕ × ℕ)) : List (ℕ × ℕ) × ℕ × ℕ :=
  match below.getLast? with
  | some (s, e) => if start ≤ e then (below.dropLast, s, max end_ e) else (below, start, end_)
  | none => (below, start, end_)

/-- Record `[start, end_)`; true iff the frontier advanced. -/
def insert (r : Rebuilt) (start end_ : ℕ) : Rebuilt × Bool :=
  if end_ ≤ r.contiguous then (r, false)
  else if start ≤ r.contiguous then
    let a := absorb end_ r.ooo
    (⟨a.1, a.2⟩, true)
  else
    let p := split start r.ooo
    let m := mergeBelow start end_ p.1
    let a := absorb m.2.2 p.2
    ({ r with ooo := m.1 ++ (m.2.1, a.1) :: a.2 }, false)

/-- The first missing range, if out-of-order data waits behind it. -/
def firstGap (r : Rebuilt) : Option (ℕ × ℕ) := r.ooo.head?.map fun run => (r.contiguous, run.1)

/-- Highest position received. -/
def highest (r : Rebuilt) : ℕ := (r.ooo.getLast?.map Prod.snd).getD r.contiguous

/-! ## What an insertion keeps -/

/-- The runs are in order, each above the frontier, and each has `W`. -/
structure Tracks (W : ℕ → ℕ → Prop) (c : ℕ) (runs : List (ℕ × ℕ)) : Prop where
  sorted : runs.Pairwise fun a b => a.1 < b.1
  above : ∀ r ∈ runs, c < r.1
  runs : ∀ r ∈ runs, W r.1 r.2

variable {W : ℕ → ℕ → Prop} {c s e : ℕ} {runs : List (ℕ × ℕ)}

/-- Two runs that meet have `W` together. -/
def Joins (W : ℕ → ℕ → Prop) : Prop :=
  ∀ s e s' e', W s e → W s' e' → s ≤ s' → s' ≤ e → W s (max e e')

theorem Tracks.nil (W : ℕ → ℕ → Prop) (c : ℕ) : Tracks W c [] :=
  ⟨List.Pairwise.nil, by simp, by simp⟩

theorem Tracks.sublist (h : Tracks W c runs) {runs' : List (ℕ × ℕ)} (hs : runs'.Sublist runs) :
    Tracks W c runs' :=
  ⟨h.sorted.sublist hs, fun r hr => h.above r (hs.subset hr), fun r hr => h.runs r (hs.subset hr)⟩

theorem Tracks.imp {W' : ℕ → ℕ → Prop} (h : Tracks W c runs)
    (hW : ∀ r ∈ runs, W r.1 r.2 → W' r.1 r.2) : Tracks W' c runs :=
  ⟨h.sorted, h.above, fun r hr => hW r hr (h.runs r hr)⟩

theorem le_absorb (end_ : ℕ) (runs : List (ℕ × ℕ)) : end_ ≤ (absorb end_ runs).1 := by
  induction runs generalizing end_ with
  | nil => exact le_rfl
  | cons r runs ih =>
    obtain ⟨s, e⟩ := r
    unfold absorb
    split
    · exact le_rfl
    · exact (le_max_left _ _).trans (ih _)

/-- Growing an end over sorted runs: the grown run has `W`, the others are
    strictly above it. -/
theorem absorb_spec (hj : Joins W) (hsorted : runs.Pairwise fun a b => a.1 < b.1)
    (hruns : ∀ r ∈ runs, W r.1 r.2 ∧ s ≤ r.1) (hW : W s e) :
    W s (absorb e runs).1 ∧ Tracks W (absorb e runs).1 (absorb e runs).2 ∧
      (absorb e runs).2.Sublist runs := by
  induction runs generalizing e with
  | nil => exact ⟨hW, Tracks.nil W _, List.Sublist.refl _⟩
  | cons r runs ih =>
    obtain ⟨s', e'⟩ := r
    obtain ⟨hhead, htail⟩ := List.pairwise_cons.mp hsorted
    unfold absorb
    split
    · rename_i hlt
      refine ⟨hW, ⟨hsorted, ?_, fun r hr => (hruns r hr).1⟩, List.Sublist.refl _⟩
      intro r hr
      rcases List.mem_cons.mp hr with rfl | hr
      · exact hlt
      · exact hlt.trans (hhead r hr)
    · rename_i hge
      obtain ⟨hW', hs'⟩ := hruns (s', e') List.mem_cons_self
      obtain ⟨h1, h2, h3⟩ := ih htail (fun r hr => hruns r (List.mem_cons_of_mem _ hr))
        (hj s e s' e' hW hW' hs' (not_lt.mp hge))
      exact ⟨h1, h2, h3.cons _⟩

theorem mem_split {start : ℕ} {r : ℕ × ℕ} :
    (r ∈ (split start runs).1 ↔ r ∈ runs ∧ r.1 ≤ start) ∧
      (r ∈ (split start runs).2 ↔ r ∈ runs ∧ start < r.1) := by
  simp [split, List.mem_filter]

/-- The merge with the neighbour below: what is left lies below the merged
    run. -/
theorem mergeBelow_spec (hj : Joins W) {below : List (ℕ × ℕ)} (hb : Tracks W c below)
    (hle : ∀ r ∈ below, r.1 ≤ s) (hend : ∀ r ∈ below, r.1 < r.2) (hc : c < s) (hW : W s e) :
    Tracks W c (mergeBelow s e below).1 ∧ W (mergeBelow s e below).2.1 (mergeBelow s e below).2.2 ∧
      c < (mergeBelow s e below).2.1 ∧ (mergeBelow s e below).2.1 ≤ s ∧
      e ≤ (mergeBelow s e below).2.2 ∧
      ∀ r ∈ (mergeBelow s e below).1, r.1 < (mergeBelow s e below).2.1 := by
  rcases List.eq_nil_or_concat below with rfl | ⟨init, last, rfl⟩
  · exact ⟨hb, hW, hc, le_rfl, le_rfl, by simp [mergeBelow]⟩
  · obtain ⟨ps, pe⟩ := last
    rw [List.concat_eq_append] at hb hle hend ⊢
    have hmem : (ps, pe) ∈ init ++ [(ps, pe)] := by simp
    have hbelow : ∀ r ∈ init, r.1 < ps := fun r hr =>
      (List.pairwise_append.mp hb.sorted).2.2 r hr (ps, pe) (by simp)
    unfold mergeBelow
    rw [List.getLast?_append, List.getLast?_singleton, Option.some_or]
    dsimp only
    split
    · rename_i hreach
      rw [List.dropLast_concat]
      refine ⟨hb.sublist (List.sublist_append_left _ _), ?_, hb.above (ps, pe) hmem, hle (ps, pe) hmem,
        le_max_left _ _, hbelow⟩
      have := hj ps pe s e (hb.runs _ hmem) hW (hle _ hmem) hreach
      rwa [max_comm] at this
    · rename_i hfar
      refine ⟨hb, hW, hc, le_rfl, le_rfl, ?_⟩
      intro r hr
      rcases List.mem_append.mp hr with hr | hr
      · exact (hbelow r hr).trans_le (hle _ hmem)
      · rw [List.mem_singleton.mp hr]
        exact (hend _ hmem).trans (not_le.mp hfar)

theorem insert_spec (hj : Joins W) {r : Rebuilt} (ht : Tracks W r.contiguous r.ooo)
    (hend : ∀ x ∈ r.ooo, x.1 < x.2) (hc : r.contiguous ≤ s) (hse : s < e) (hW : W s e) :
    Tracks W (r.insert s e).1.contiguous (r.insert s e).1.ooo ∧
      (∀ x ∈ (r.insert s e).1.ooo, x.1 < x.2) ∧
      ((r.insert s e).2 = false → (r.insert s e).1.contiguous = r.contiguous) ∧
      ((r.insert s e).2 = true → s = r.contiguous ∧ r.contiguous < (r.insert s e).1.contiguous ∧
        W r.contiguous (r.insert s e).1.contiguous) := by
  unfold insert
  rw [if_neg (by omega)]
  split
  · rename_i hle
    obtain rfl : s = r.contiguous := le_antisymm hle hc
    obtain ⟨h1, h2, h3⟩ := absorb_spec hj ht.sorted
      (fun x hx => ⟨ht.runs x hx, (ht.above x hx).le⟩) hW
    have hgrow := le_absorb e r.ooo
    refine ⟨h2, fun x hx => hend x (h3.subset hx), by simp, fun _ => ⟨rfl, ?_, h1⟩⟩
    exact hse.trans_le hgrow
  · rename_i hgt
    have hgt : r.contiguous < s := not_le.mp hgt
    have hbelow : Tracks W r.contiguous (split s r.ooo).1 := ht.sublist List.filter_sublist
    have habove : (split s r.ooo).2.Sublist r.ooo := List.filter_sublist
    obtain ⟨m1, m2, m3, m4, m5, m6⟩ := mergeBelow_spec hj hbelow
      (fun x hx => (mem_split.1.mp hx).2) (fun x hx => hend x (mem_split.1.mp hx).1) hgt hW
    obtain ⟨a1, a2, a3⟩ := absorb_spec hj (ht.sorted.sublist habove)
      (s := (mergeBelow s e (split s r.ooo).1).2.1)
      (fun x hx => ⟨ht.runs x (mem_split.2.mp hx).1, m4.trans (mem_split.2.mp hx).2.le⟩) m2
    have hgrow := le_absorb (mergeBelow s e (split s r.ooo).1).2.2 (split s r.ooo).2
    have hup : ∀ x ∈ (absorb (mergeBelow s e (split s r.ooo).1).2.2 (split s r.ooo).2).2,
        (mergeBelow s e (split s r.ooo).1).2.1 < x.1 := by
      intro x hx
      exact m4.trans_lt (mem_split.2.mp (a3.subset hx)).2
    refine ⟨⟨?_, ?_, ?_⟩, ?_, by simp, by simp⟩
    · rw [List.pairwise_append]
      refine ⟨m1.sorted, List.pairwise_cons.mpr ⟨hup, a2.sorted⟩, ?_⟩
      intro x hx y hy
      rcases List.mem_cons.mp hy with rfl | hy
      · exact m6 x hx
      · exact (m6 x hx).trans (hup y hy)
    · intro x hx
      rcases List.mem_append.mp hx with hx | hx
      · exact m1.above x hx
      · rcases List.mem_cons.mp hx with rfl | hx
        · exact m3
        · exact m3.trans (hup x hx)
    · intro x hx
      rcases List.mem_append.mp hx with hx | hx
      · exact m1.runs x hx
      · rcases List.mem_cons.mp hx with rfl | hx
        · exact a1
        · exact a2.runs x hx
    · intro x hx
      rcases List.mem_append.mp hx with hx | hx
      · refine hend x ?_
        have hsub : (mergeBelow s e (split s r.ooo).1).1.Sublist (split s r.ooo).1 := by
          unfold mergeBelow
          split
          · split
            · exact List.dropLast_sublist _
            · exact List.Sublist.refl _
          · exact List.Sublist.refl _
        exact (mem_split.1.mp (hsub.subset hx)).1
      · rcases List.mem_cons.mp hx with rfl | hx
        · omega
        · exact hend x (habove.subset (a3.subset hx))

theorem insert_frontier (r : Rebuilt) (s e : ℕ) :
    ((r.insert s e).2 = false → (r.insert s e).1.contiguous = r.contiguous) ∧
      ((r.insert s e).2 = true → s ≤ r.contiguous ∧
        r.contiguous < (r.insert s e).1.contiguous) := by
  unfold insert
  split
  · exact ⟨fun _ => rfl, by simp⟩
  · rename_i hlt
    split
    · rename_i hle
      refine ⟨by simp, fun _ => ⟨hle, ?_⟩⟩
      exact (not_le.mp hlt).trans_le (le_absorb e r.ooo)
    · exact ⟨fun _ => rfl, by simp⟩

theorem highest_eq {r : Rebuilt} (ht : Tracks W r.contiguous r.ooo) (hend : ∀ x ∈ r.ooo, x.1 < x.2)
    (h : r.highest = r.contiguous) : r.ooo = [] := by
  rcases List.eq_nil_or_concat r.ooo with hnil | ⟨init, last, hcat⟩
  · exact hnil
  · exfalso
    have hmem : last ∈ r.ooo := by rw [hcat, List.concat_eq_append]; simp
    unfold highest at h
    rw [hcat, List.concat_eq_append, List.getLast?_append, List.getLast?_singleton] at h
    have h1 := ht.above last hmem
    have h2 := hend last hmem
    simp at h
    omega

end Rebuilt

end UltimaCluster
