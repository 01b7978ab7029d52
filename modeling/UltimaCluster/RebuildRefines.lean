/-
  The receiver's gap tracker as a set of received bytes.

  The frontier is the least byte that is missing, and the runs above it are those of the
  received bytes there (`Represents`).  As such a state is determined by its set, no order
  and no repetition of the insertions matters.
-/
import Mathlib.Data.List.Induction
import Mathlib.Order.Bounds.Basic
import UltimaCluster.Lib.Runs
import UltimaCluster.Rebuild

namespace UltimaCluster.Rebuilt

open Runs Set

variable {r : Rebuilt} {S : Set ℕ} {c s e : ℕ} {runs below : List (ℕ × ℕ)}

/-- A state that stands for a set of bytes: all are there below the frontier, and above it
    those of the runs. -/
structure Represents (r : Rebuilt) (S : Set ℕ) : Prop where
  runs : Separated r.contiguous r.ooo
  bytes : S = Iio r.contiguous ∪ cover r.ooo

theorem Represents.contiguous_notMem (h : r.Represents S) : r.contiguous ∉ S := by
  rw [h.bytes]
  rintro (hlt | hin)
  · exact lt_irrefl r.contiguous hlt
  · exact lt_irrefl _ (h.runs.lt_of_mem hin)

theorem Represents.cover_eq (h : r.Represents S) : cover r.ooo = S ∩ Ici r.contiguous := by
  ext x
  rw [h.bytes]
  constructor
  · intro hx
    exact ⟨.inr hx, (h.runs.lt_of_mem hx).le⟩
  · rintro ⟨hx | hx, hge⟩
    · exact absurd (mem_Iio.mp hx) (not_lt.mpr hge)
    · exact hx

theorem Represents.unique {r' : Rebuilt} (h : r.Represents S) (h' : r'.Represents S) : r = r' := by
  have hle : ∀ {r r' : Rebuilt}, r.Represents S → r'.Represents S → r.contiguous ≤ r'.contiguous := by
    intro r r' h h'
    by_contra hlt
    refine h'.contiguous_notMem ?_
    rw [h.bytes]
    exact .inl (not_le.mp hlt)
  have hcont : r.contiguous = r'.contiguous := le_antisymm (hle h h') (hle h' h)
  have hooo : r.ooo = r'.ooo := by
    refine h.runs.unique h'.runs ?_
    rw [h.cover_eq, h'.cover_eq, hcont]
  cases r
  cases r'
  simp_all

theorem represents_new (start : ℕ) : (new start).Represents (Iio start) :=
  ⟨separated_nil, by simp [new]⟩

/-! ## An insertion -/

theorem absorb_cover (h : Separated c runs) (hc : c ≤ e) :
    Separated (absorb e runs).1 (absorb e runs).2 ∧
      Ico c (absorb e runs).1 ∪ cover (absorb e runs).2 = Ico c e ∪ cover runs := by
  induction runs generalizing e with
  | nil => exact ⟨separated_nil, rfl⟩
  | cons run runs ih =>
    obtain ⟨a, b⟩ := run
    obtain ⟨hca, hab, htail⟩ := separated_cons.mp h
    unfold absorb
    by_cases hlt : e < a
    · rw [if_pos hlt]
      exact ⟨separated_cons.mpr ⟨hlt, hab, htail⟩, rfl⟩
    · rw [if_neg hlt]
      have hsub : Separated c runs := h.sublist (List.sublist_cons_self _ _)
      obtain ⟨h1, h2⟩ := ih hsub (hc.trans (le_max_left e b))
      refine ⟨h1, h2.trans ?_⟩
      rw [cover_cons, ← union_assoc]
      congr 1
      ext x
      simp only [mem_Ico, mem_union]
      omega

theorem mergeBelow_cover (h : Separated c below) (hle : ∀ run ∈ below, run.1 ≤ s) (hc : c < s) :
    Separated c (mergeBelow s e below).1 ∧ c < (mergeBelow s e below).2.1 ∧
      (mergeBelow s e below).2.1 ≤ s ∧ e ≤ (mergeBelow s e below).2.2 ∧
      (∀ run ∈ (mergeBelow s e below).1, run.2 < (mergeBelow s e below).2.1) ∧
      cover (mergeBelow s e below).1 ∪ Ico (mergeBelow s e below).2.1 (mergeBelow s e below).2.2 =
        cover below ∪ Ico s e := by
  rcases List.eq_nil_or_concat below with rfl | ⟨init, last, rfl⟩
  · exact ⟨h, hc, le_rfl, le_rfl, by simp [mergeBelow], rfl⟩
  · obtain ⟨a, b⟩ := last
    rw [List.concat_eq_append] at h hle ⊢
    have hmem : (a, b) ∈ init ++ [(a, b)] := by simp
    have hgaps : ∀ run ∈ init, run.2 < a := fun run hrun =>
      (List.pairwise_append.mp h.gaps).2.2 run hrun (a, b) (by simp)
    have has : a ≤ s := hle _ hmem
    unfold mergeBelow
    rw [List.getLast?_append, List.getLast?_singleton, Option.some_or]
    dsimp only
    by_cases hreach : s ≤ b
    · rw [if_pos hreach, List.dropLast_concat]
      refine ⟨h.sublist (List.sublist_append_left _ _), h.above (a, b) hmem, has, le_max_left _ _, hgaps, ?_⟩
      rw [cover_append, union_assoc]
      congr 1
      ext x
      simp only [cover_cons, cover_nil, mem_union, mem_Ico, mem_empty_iff_false, or_false]
      omega
    · rw [if_neg hreach]
      refine ⟨h, hc, le_rfl, le_rfl, ?_, rfl⟩
      intro run hrun
      rcases List.mem_append.mp hrun with hrun | hrun
      · exact (hgaps run hrun).trans_le has
      · rw [List.mem_singleton.mp hrun]
        exact not_le.mp hreach

theorem cover_split : cover (split s runs).1 ∪ cover (split s runs).2 = cover runs := by
  ext x
  constructor
  · rintro (⟨run, hrun, hx⟩ | ⟨run, hrun, hx⟩)
    · exact ⟨run, (mem_split.1.mp hrun).1, hx⟩
    · exact ⟨run, (mem_split.2.mp hrun).1, hx⟩
  · rintro ⟨run, hrun, hx⟩
    rcases Nat.lt_or_ge s run.1 with hlt | hge
    · exact .inr ⟨run, mem_split.2.mpr ⟨hrun, hlt⟩, hx⟩
    · exact .inl ⟨run, mem_split.1.mpr ⟨hrun, hge⟩, hx⟩

/-- **An insertion adds its range.** -/
theorem Represents.insert (h : r.Represents S) (hse : s < e) :
    (r.insert s e).1.Represents (S ∪ Ico s e) := by
  unfold Rebuilt.insert
  by_cases hstale : e ≤ r.contiguous
  · rw [if_pos hstale]
    refine ⟨h.runs, ?_⟩
    rw [h.bytes]
    ext x
    simp only [mem_union, mem_Iio, mem_Ico]
    constructor
    · rintro ((hx | hx) | hx)
      · exact .inl hx
      · exact .inr hx
      · exact .inl (by omega)
    · rintro (hx | hx)
      · exact .inl (.inl hx)
      · exact .inl (.inr hx)
  rw [if_neg hstale]
  by_cases hle : s ≤ r.contiguous
  · -- the frontier moves to the end of the range, and over the runs that it meets
    rw [if_pos hle]
    obtain ⟨h1, h2⟩ := absorb_cover (e := e) h.runs (not_le.mp hstale).le
    have hgrow := le_absorb e r.ooo
    refine ⟨h1, ?_⟩
    have hIio : Iio (absorb e r.ooo).1 = Iio r.contiguous ∪ Ico r.contiguous (absorb e r.ooo).1 := by
      ext x
      simp only [mem_Iio, mem_union, mem_Ico]
      omega
    rw [hIio, union_assoc, h2, h.bytes]
    ext x
    have hkey : (x < r.contiguous ∨ r.contiguous ≤ x ∧ x < e) ↔ x < r.contiguous ∨ s ≤ x ∧ x < e := by
      omega
    simp only [mem_union, mem_Iio, mem_Ico]
    tauto
  · rw [if_neg hle]
    have hgt : r.contiguous < s := not_le.mp hle
    have hbelow : Separated r.contiguous (split s r.ooo).1 := h.runs.sublist List.filter_sublist
    have habove : Separated s (split s r.ooo).2 :=
      ⟨fun run hrun => (mem_split.2.mp hrun).2,
        fun run hrun => h.runs.nonempty run (mem_split.2.mp hrun).1,
        h.runs.gaps.sublist List.filter_sublist⟩
    obtain ⟨m1, m2, m3, m4, m5, m6⟩ :=
      mergeBelow_cover hbelow (fun run hrun => (mem_split.1.mp hrun).2) hgt
    dsimp only
    generalize mergeBelow s e (split s r.ooo).1 = m at m1 m2 m3 m4 m5 m6 ⊢
    obtain ⟨a1, a2⟩ := absorb_cover (e := m.2.2) habove (hse.le.trans m4)
    have hgrow := le_absorb m.2.2 (split s r.ooo).2
    refine ⟨m1.append m2 (by omega) m5 a1, ?_⟩
    rw [h.bytes, ← cover_split (s := s)]
    ext x
    have hm := Set.ext_iff.mp m6 x
    have ha := Set.ext_iff.mp a2 x
    -- the merged run: its part below the merge, and what the loop makes of it above `s`
    have hrun : (m.2.1 ≤ x ∧ x < (absorb m.2.2 (split s r.ooo).2).1) ↔ (m.2.1 ≤ x ∧ x < m.2.2) ∨
        (s ≤ x ∧ x < (absorb m.2.2 (split s r.ooo).2).1) := by
      omega
    have hsub : s ≤ x ∧ x < m.2.2 → m.2.1 ≤ x ∧ x < m.2.2 := by omega
    simp only [cover_append, cover_cons, mem_union, mem_Iio, mem_Ico] at hm ha ⊢
    rw [hrun]
    constructor
    · rintro ((hx | hx | hx) | hx)
      · exact .inl hx
      · exact (hm.mpr (.inl hx)).elim (fun hx => .inr (.inl hx)) fun hx => .inr (.inr (.inl (.inl hx)))
      · exact (ha.mpr (.inr hx)).elim (fun hx => .inr (.inr (.inl (.inr hx))))
          fun hx => .inr (.inr (.inr hx))
      · exact (hm.mpr (.inr hx)).elim (fun hx => .inr (.inl hx)) fun hx => .inr (.inr (.inl (.inl hx)))
    · have hback : m.2.1 ≤ x ∧ x < m.2.2 →
          (x < r.contiguous ∨ x ∈ cover (split s r.ooo).1 ∨ x ∈ cover (split s r.ooo).2) ∨
            s ≤ x ∧ x < e :=
        fun hx => (hm.mp (.inr hx)).elim (fun hx => .inl (.inr (.inl hx))) .inr
      rintro (hx | hx | (hx | hx) | hx)
      · exact .inl (.inl hx)
      · exact (hm.mp (.inl hx)).elim (fun hx => .inl (.inr (.inl hx))) .inr
      · exact hback hx
      · exact (ha.mp (.inl hx)).elim (fun hx => hback (hsub hx)) fun hx => .inl (.inr (.inr hx))
      · exact (ha.mp (.inr hx)).elim (fun hx => hback (hsub hx)) fun hx => .inl (.inr (.inr hx))

/-! ## What the queries answer -/

theorem highest_spec (h : r.Represents S) : r.contiguous ≤ r.highest ∧ (∀ x ∈ S, x < r.highest) ∧
    (r.contiguous < r.highest → r.highest - 1 ∈ S) := by
  unfold highest
  rcases List.eq_nil_or_concat r.ooo with hnil | ⟨init, last, hcat⟩
  · rw [hnil]
    refine ⟨le_rfl, ?_, fun hlt => absurd hlt (lt_irrefl _)⟩
    intro x hx
    rw [h.bytes, hnil] at hx
    simpa using hx
  · rw [List.concat_eq_append] at hcat
    have hruns := h.runs
    rw [hcat] at hruns
    have hmem : last ∈ init ++ [last] := by simp
    have habove := hruns.above last hmem
    have hne := hruns.nonempty last hmem
    rw [hcat, List.getLast?_append, List.getLast?_singleton]
    refine ⟨(habove.trans hne).le, ?_, ?_⟩
    · intro x hx
      rw [h.bytes, hcat] at hx
      rcases hx with hx | ⟨run, hrun, -, hlt⟩
      · exact (mem_Iio.mp hx).trans (habove.trans hne)
      · rcases List.mem_append.mp hrun with hrun | hrun
        · have hgap := (List.pairwise_append.mp hruns.gaps).2.2 run hrun last (by simp)
          exact hlt.trans (hgap.trans hne)
        · rwa [List.mem_singleton.mp hrun] at hlt
    · intro _
      rw [h.bytes, hcat]
      refine .inr ⟨last, hmem, ?_⟩
      dsimp only [Option.some_or, Option.map_some, Option.getD_some]
      omega

theorem firstGap_spec (h : r.Represents S) (a b : ℕ) :
    r.firstGap = some (a, b) ↔ a = r.contiguous ∧ IsLeast (S ∩ Ici r.contiguous) b := by
  rw [← h.cover_eq]
  have hruns := h.runs
  unfold firstGap
  cases hooo : r.ooo with
  | nil => simp [IsLeast]
  | cons run runs =>
    rw [hooo] at hruns
    obtain ⟨-, hne, htail⟩ := separated_cons.mp hruns
    have hleast : IsLeast (cover (run :: runs)) run.1 := by
      refine ⟨⟨run, by simp, le_rfl, hne⟩, ?_⟩
      intro x hx
      rw [cover_cons] at hx
      rcases hx with hx | hx
      · exact hx.1
      · exact (hne.trans (htail.lt_of_mem hx)).le
    simp only [List.head?_cons, Option.map_some, Option.some.injEq, Prod.mk.injEq]
    constructor
    · rintro ⟨rfl, rfl⟩
      exact ⟨rfl, hleast⟩
    · rintro ⟨rfl, hb⟩
      exact ⟨rfl, hleast.unique hb⟩

theorem insert_advances (r : Rebuilt) (s e : ℕ) :
    (r.insert s e).2 = true ↔ r.contiguous < (r.insert s e).1.contiguous := by
  obtain ⟨hsame, hgrow⟩ := insert_frontier r s e
  constructor
  · intro h
    exact (hgrow h).2
  · intro hlt
    by_contra hf
    exact hlt.ne' (hsame (by simpa using hf))

/-! ## Any sequence of insertions -/

/-- The ranges in turn. -/
def insertAll (start : ℕ) (rs : List (ℕ × ℕ)) : Rebuilt :=
  rs.foldl (fun r x => (r.insert x.1 x.2).1) (new start)

theorem represents_insertAll (start : ℕ) {rs : List (ℕ × ℕ)} (h : ∀ x ∈ rs, x.1 < x.2) :
    (insertAll start rs).Represents (Iio start ∪ cover rs) := by
  induction rs using List.reverseRecOn with
  | nil => simpa [insertAll] using represents_new start
  | append_singleton rs x ih =>
    have hstep := (ih fun y hy => h y (by simp [hy])).insert (h x (by simp))
    rw [union_assoc] at hstep
    simpa [insertAll] using hstep

/-- The tracker refines the set of the received bytes: the frontier, the runs above it, the
    first gap, the highest position, the reply of an insertion, and that only the set of
    the inserted ranges matters. -/
theorem insertAll_refines (start : ℕ) (rs : List (ℕ × ℕ)) (h : ∀ x ∈ rs, x.1 < x.2) :
    (start ≤ (insertAll start rs).contiguous ∧
      Ico start (insertAll start rs).contiguous ⊆ cover rs ∧
      (insertAll start rs).contiguous ∉ cover rs) ∧
    (∀ l, l = (insertAll start rs).ooo ↔ Separated (insertAll start rs).contiguous l ∧
      cover l = cover rs ∩ Ici (insertAll start rs).contiguous) ∧
    (∀ a b, (insertAll start rs).firstGap = some (a, b) ↔ a = (insertAll start rs).contiguous ∧
      IsLeast (cover rs ∩ Ici (insertAll start rs).contiguous) b) ∧
    IsGreatest {x | x = start ∨ ∃ p ∈ rs, x = p.2} (insertAll start rs).highest ∧
    (∀ s e, ((insertAll start rs).insert s e).2 = true ↔
      (insertAll start rs).contiguous < ((insertAll start rs).insert s e).1.contiguous) ∧
    ∀ rs', (∀ x, x ∈ rs' ↔ x ∈ rs) → insertAll start rs' = insertAll start rs := by
  have hrep := represents_insertAll start h
  have horder : ∀ rs', (∀ x, x ∈ rs' ↔ x ∈ rs) → insertAll start rs' = insertAll start rs := by
    intro rs' hsame
    have hrep' := represents_insertAll start fun x hx => h x ((hsame x).mp hx)
    have hcover : cover rs' = cover rs := by
      ext x
      simp only [cover, hsame, mem_ofPred_eq]
    rw [hcover] at hrep'
    exact hrep'.unique hrep
  generalize insertAll start rs = r at hrep horder ⊢
  have hstart : start ≤ r.contiguous := by
    by_contra hlt
    exact hrep.contiguous_notMem (.inl (not_le.mp hlt))
  have hout : r.contiguous ∉ cover rs := fun hx => hrep.contiguous_notMem (.inr hx)
  have habove : (Iio start ∪ cover rs) ∩ Ici r.contiguous = cover rs ∩ Ici r.contiguous := by
    ext x
    simp only [mem_inter_iff, mem_union, mem_Iio, mem_Ici]
    constructor
    · rintro ⟨hx | hx, hge⟩
      · omega
      · exact ⟨hx, hge⟩
    · rintro ⟨hx, hge⟩
      exact ⟨.inr hx, hge⟩
  refine ⟨⟨hstart, ?_, hout⟩, ?_, ?_, ?_, insert_advances r, horder⟩
  · intro x hx
    have hin : x ∈ Iio start ∪ cover rs := by
      rw [hrep.bytes]
      exact .inl hx.2
    exact hin.resolve_left (not_lt.mpr hx.1)
  · intro l
    have hcover : cover r.ooo = cover rs ∩ Ici r.contiguous := by rw [hrep.cover_eq, habove]
    constructor
    · rintro rfl
      exact ⟨hrep.runs, hcover⟩
    · rintro ⟨hl, hc⟩
      exact hl.unique hrep.runs (hc.trans hcover.symm)
  · intro a b
    rw [firstGap_spec hrep, habove]
  · obtain ⟨hle, hub, hlast⟩ := highest_spec hrep
    have hbound : ∀ p ∈ rs, p.2 ≤ r.highest := by
      intro p hp
      have hne := h p hp
      have hlt := hub (p.2 - 1) (.inr ⟨p, hp, by omega, by omega⟩)
      omega
    refine ⟨?_, ?_⟩
    · by_cases heq : r.highest = start
      · exact .inl heq
      · refine .inr ?_
        -- the byte below the highest position came with a range that ends there
        have hbyte : r.highest - 1 ∈ Iio start ∪ cover rs := by
          by_cases hgt : r.contiguous < r.highest
          · exact hlast hgt
          · rw [hrep.bytes]
            exact .inl (mem_Iio.mpr (by omega))
        rcases hbyte with hbyte | ⟨p, hp, hlow, hhigh⟩
        · rw [mem_Iio] at hbyte
          omega
        · exact ⟨p, hp, le_antisymm (by omega) (hbound p hp)⟩
    · rintro x (rfl | ⟨p, hp, rfl⟩)
      · exact hstart.trans hle
      · exact hbound p hp

theorem insertAll_refines_reordered :
    insertAll 8 [(20, 24), (0, 4), (8, 12), (20, 24)] = insertAll 8 [(8, 12), (20, 24), (0, 4)] ∧
      IsGreatest {x | x = 8 ∨ ∃ p ∈ [(8, 12), (20, 24), (0, 4)], x = p.2}
        (insertAll 8 [(8, 12), (20, 24), (0, 4)]).highest := by
  have h := insertAll_refines 8 [(8, 12), (20, 24), (0, 4)] (by decide)
  refine ⟨h.2.2.2.2.2 _ ?_, h.2.2.2.1⟩
  intro x
  simp only [List.mem_cons, List.not_mem_nil, or_false]
  tauto

/-- A range below the start moves nothing, so the highest position is the start and not
    its end. -/
theorem highest_of_stale :
    (∀ x ∈ [(0, 5)], x.1 < x.2) ∧ IsGreatest {x | ∃ p ∈ [(0, 5)], x = p.2} 5 ∧
      (insertAll 10 [(0, 5)]).highest = 10 := by
  refine ⟨by decide, ⟨⟨(0, 5), by simp, rfl⟩, ?_⟩, by decide⟩
  rintro x ⟨p, hp, rfl⟩
  rw [List.mem_singleton.mp hp]

end UltimaCluster.Rebuilt
