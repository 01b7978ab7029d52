/-
  What the verdicts of the linearizability checker mean.

  An answer of the search is right whatever the budget (`search_sound`).  With more budget
  than the search has nodes it is the answer of the search without a budget, and with as
  much as that unless there is no order (`search_follows`): the loop gives up on an empty
  budget even after its last branch.  `checkModel_exact` puts the two together.
-/
import Mathlib.Data.List.Count
import Mathlib.Order.Nat
import UltimaCluster.Lincheck

namespace UltimaCluster.Lincheck

variable {σ Op Resp : Type*} {M : SeqModel σ Op Resp} {s : σ} {o : NOp Op Resp}
  {L L' ops : List (NOp Op Resp)}

/-! ## Orders of normalized operations -/

def ReplaysOps (M : SeqModel σ Op Resp) : σ → List (NOp Op Resp) → Prop
  | _, [] => True
  | s, o :: os => (∀ r ∈ o.observed, (M.step s o.op).2 = r) ∧ ReplaysOps M (M.step s o.op).1 os

/-- The operations can be put in order from a state. -/
def LinOps (M : SeqModel σ Op Resp) (s : σ) (L : List (NOp Op Resp)) : Prop :=
  ∃ order some_ : List (NOp Op Resp), some_.Subperm (L.filter (·.observed.isNone)) ∧
    order.Perm (L.filter (·.observed.isSome) ++ some_) ∧
    order.Pairwise (fun a b => ¬ b.ret < a.invoke) ∧ ReplaysOps M s order

/-- A normalized operation of a history. -/
structure OpOk (o : NOp Op Resp) : Prop where
  inv_le : o.invoke ≤ o.ret
  inv_max : o.invoke ≤ u64Max
  indet : o.observed = none → o.ret = u64Max

theorem LinOps.perm (h : LinOps M s L) (hp : L.Perm L') : LinOps M s L' := by
  obtain ⟨order, rest, hrest, horder, hpw, hrep⟩ := h
  exact ⟨order, rest, (hp.filter _).subperm_left.mp hrest,
    horder.trans ((hp.filter _).append_right rest), hpw, hrep⟩

theorem linOps_of_done (h : L.any (·.observed.isSome) = false) : LinOps M s L := by
  have hnone : L.filter (·.observed.isSome) = [] := by
    rw [List.filter_eq_nil_iff]
    intro o ho hsome
    rw [List.any_eq_false] at h
    exact h o ho hsome
  exact ⟨[], [], List.nil_subperm, by rw [hnone]; exact .refl _, .nil, trivial⟩

theorem LinOps.linearize (h : LinOps M (M.step s o.op).1 L') (hp : L.Perm (o :: L'))
    (hfront : ∀ x ∈ L', o.invoke ≤ x.ret) (hresp : ∀ r ∈ o.observed, (M.step s o.op).2 = r) :
    LinOps M s L := by
  obtain ⟨order, rest, hrest, horder, hpw, hrep⟩ := h
  refine LinOps.perm ?_ hp.symm
  have hlate : ∀ x ∈ order, ¬ x.ret < o.invoke := by
    intro x hx
    have hmem : x ∈ L' := by
      rcases List.mem_append.mp (horder.mem_iff.mp hx) with hx | hx
      · exact List.mem_of_mem_filter hx
      · exact List.mem_of_mem_filter (hrest.subset hx)
    exact not_lt.mpr (hfront x hmem)
  have hpw' : (o :: order).Pairwise (fun a b => ¬ b.ret < a.invoke) := List.pairwise_cons.mpr ⟨hlate, hpw⟩
  cases ho : o.observed with
  | none =>
    refine ⟨o :: order, o :: rest, ?_, ?_, hpw', hresp, hrep⟩
    · rw [List.filter_cons_of_pos (by simp [ho])]
      exact (List.subperm_cons o).mpr hrest
    · rw [List.filter_cons_of_neg (by simp [ho])]
      exact (horder.cons o).trans List.perm_middle.symm
  | some r =>
    refine ⟨o :: order, rest, ?_, ?_, hpw', hresp, hrep⟩
    · rwa [List.filter_cons_of_neg (by simp [ho])]
    · rw [List.filter_cons_of_pos (by simp [ho])]
      exact horder.cons o

theorem LinOps.drop (h : LinOps M s L') (hp : L.Perm (o :: L')) (ho : o.observed = none) :
    LinOps M s L := by
  obtain ⟨order, rest, hrest, horder, hpw, hrep⟩ := h
  refine LinOps.perm ⟨order, rest, ?_, ?_, hpw, hrep⟩ hp.symm
  · rw [List.filter_cons_of_pos (by simp [ho])]
    exact hrest.trans (List.sublist_cons_self _ _).subperm
  · rwa [List.filter_cons_of_neg (by simp [ho])]

theorem LinOps.first (h : LinOps M s L) (hreq : L.any (·.observed.isSome) = true)
    (hok : ∀ x ∈ L, OpOk x) : ∃ o L', L.Perm (o :: L') ∧ (∀ x ∈ L, o.invoke ≤ x.ret) ∧
      (∀ r ∈ o.observed, (M.step s o.op).2 = r) ∧ LinOps M (M.step s o.op).1 L' := by
  obtain ⟨order, rest, hrest, horder, hpw, hrep⟩ := h
  obtain ⟨req, hreqL, hsome⟩ := List.any_eq_true.mp hreq
  have hall : ∀ x ∈ L, x.observed.isSome → x ∈ order := fun x hx hxs =>
    horder.mem_iff.mpr (List.mem_append_left _ (List.mem_filter.mpr ⟨hx, hxs⟩))
  cases order with
  | nil => cases hall req hreqL hsome
  | cons o order =>
    obtain ⟨hlate, hpw⟩ := List.pairwise_cons.mp hpw
    have homem : o ∈ L := by
      rcases List.mem_append.mp (horder.mem_iff.mp List.mem_cons_self) with ho | ho
      · exact List.mem_of_mem_filter ho
      · exact List.mem_of_mem_filter (hrest.subset ho)
    have hfront : ∀ x ∈ L, o.invoke ≤ x.ret := by
      intro x hx
      cases hxo : x.observed with
      | none => exact (hok x hx).indet hxo ▸ (hok o homem).inv_max
      | some r =>
        rcases List.mem_cons.mp (hall x hx (by simp [hxo])) with rfl | hx'
        · exact (hok x hx).inv_le
        · exact not_lt.mp (hlate x hx')
    obtain ⟨A, B, rfl⟩ := List.append_of_mem homem
    have hperm : (A ++ o :: B).Perm (o :: (A ++ B)) := List.perm_middle
    refine ⟨o, A ++ B, hperm, hfront, hrep.1, ?_⟩
    have hsomes := hperm.filter (·.observed.isSome)
    have hnones := hperm.filter (·.observed.isNone)
    cases ho : o.observed with
    | none =>
      rw [List.filter_cons_of_neg (by simp [ho])] at hsomes
      rw [List.filter_cons_of_pos (by simp [ho])] at hnones
      -- an indeterminate one is among those that were chosen
      have horest : o ∈ rest := by
        rcases List.mem_append.mp (horder.mem_iff.mp List.mem_cons_self) with hx | hx
        · have := (List.mem_filter.mp hx).2
          simp [ho] at this
        · exact hx
      obtain ⟨C, D, rfl⟩ := List.append_of_mem horest
      have hCD : (C ++ o :: D).Perm (o :: (C ++ D)) := List.perm_middle
      refine ⟨order, C ++ D, ?_, ?_, hpw, hrep.2⟩
      · have hsub := hnones.subperm_left.mp (hCD.symm.subperm.trans hrest)
        exact (List.subperm_cons o).mp hsub
      · refine List.Perm.cons_inv (a := o) (horder.trans ?_)
        exact (hsomes.append hCD).trans List.perm_middle
    | some r =>
      rw [List.filter_cons_of_pos (by simp [ho])] at hsomes
      rw [List.filter_cons_of_neg (by simp [ho])] at hnones
      refine ⟨order, rest, hnones.subperm_left.mp hrest, ?_, hpw, hrep.2⟩
      exact List.Perm.cons_inv (a := o) (horder.trans (hsomes.append_right rest))

/-! ## The operations that remain -/

variable {remaining : List Bool}

theorem remainingOps_set {i : ℕ} (hi : ops[i]? = some o) (hr : remaining.getD i false = true) :
    (remainingOps ops remaining).Perm (o :: remainingOps ops (remaining.set i false)) := by
  induction ops generalizing remaining i with
  | nil => cases hi
  | cons x ops ih =>
    cases remaining with
    | nil => simp at hr
    | cons b remaining =>
      cases i with
      | zero =>
        obtain rfl : x = o := by simpa using hi
        obtain rfl : b = true := by simpa using hr
        simp [remainingOps]
      | succ i =>
        have hrec := ih (by simpa using hi) (show remaining.getD i false = true by simpa using hr)
        unfold remainingOps at hrec ⊢
        rw [List.set_cons_succ, List.zip_cons_cons, List.zip_cons_cons]
        cases b with
        | false => simpa using hrec
        | true => simpa using (hrec.cons x).trans (.swap o x _)

theorem mem_remainingOps (h : o ∈ remainingOps ops remaining) :
    ∃ i, ops[i]? = some o ∧ remaining.getD i false = true := by
  induction ops generalizing remaining with
  | nil => simp [remainingOps] at h
  | cons x ops ih =>
    cases remaining with
    | nil => simp [remainingOps] at h
    | cons b remaining =>
      have hcases : (b = true ∧ o = x) ∨ o ∈ remainingOps ops remaining := by
        cases b <;> simpa [remainingOps] using h
      rcases hcases with ⟨rfl, rfl⟩ | h
      · exact ⟨0, rfl, rfl⟩
      · obtain ⟨i, hi, hr⟩ := ih h
        exact ⟨i + 1, by simpa using hi, by simpa using hr⟩

theorem remainingOps_replicate : remainingOps ops (List.replicate ops.length true) = ops := by
  induction ops with
  | nil => rfl
  | cons x ops ih =>
    unfold remainingOps at ih ⊢
    simpa [List.replicate_succ] using ih

theorem remainingOps_mem_ops (h : o ∈ remainingOps ops remaining) : o ∈ ops := by
  obtain ⟨i, hi, -⟩ := mem_remainingOps h
  exact List.mem_of_getElem? hi

theorem le_minRet {t : ℕ} (ht : t ≤ u64Max) : t ≤ minRet L ↔ ∀ x ∈ L, t ≤ x.ret := by
  unfold minRet
  cases h : (L.map NOp.ret).min? with
  | none =>
    rw [List.min?_eq_none_iff, List.map_eq_nil_iff] at h
    simp [h, ht]
  | some m =>
    rw [Option.getD_some, List.le_min?_iff h]
    simp

/-! ## Answers are right -/

section Search

variable [DecidableEq σ] [DecidableEq Resp] {remaining : List Bool} {i b fuel : ℕ} {visited : Visited σ}

omit [DecidableEq σ] in
theorem respOk_iff : respOk M s o = true ↔ ∀ r ∈ o.observed, (M.step s o.op).2 = r := by
  unfold respOk
  cases o.observed <;> simp

omit [DecidableEq σ] [DecidableEq Resp] in
theorem candidate_eq_some : candidate ops remaining i = some o ↔ remaining.getD i false = true ∧
    ops[i]? = some o ∧ o.invoke ≤ minRet (remainingOps ops remaining) := by
  unfold candidate
  split <;> simp_all [Option.filter_eq_some_iff]

/-- Every dead end that is kept is one. -/
def MemoOk (M : SeqModel σ Op Resp) (ops : List (NOp Op Resp)) (visited : Visited σ) : Prop :=
  ∀ x ∈ visited, ¬ LinOps M x.2 (remainingOps ops x.1)

/-- What an answer for a remaining set and a state says. -/
structure Sound (M : SeqModel σ Op Resp) (ops : List (NOp Op Resp)) (remaining : List Bool) (s : σ)
    (r : SearchResult × Visited σ × ℕ) : Prop where
  memo : MemoOk M ops r.2.1
  ok : r.1 = .ok → LinOps M s (remainingOps ops remaining)
  none_ : r.1 = .noLinearization → ¬ LinOps M s (remainingOps ops remaining)

omit [DecidableEq σ] in
/-- The loop: it succeeds with an order, and where it ends without a hit every candidate
    fails. -/
theorem tryOps_sound (hops : ∀ o ∈ ops, OpOk o) (remaining : List Bool) (s : σ)
    {child : List Bool → σ → Visited σ → ℕ → SearchResult × Visited σ × ℕ}
    (hchild : ∀ remaining s visited b, MemoOk M ops visited →
      Sound M ops remaining s (child remaining s visited b))
    (is : List ℕ) (hit : Bool) (visited : Visited σ) (b : ℕ) (hV : MemoOk M ops visited) :
    MemoOk M ops (tryOps M ops child remaining s is hit visited b).2.2.1 ∧
      ((tryOps M ops child remaining s is hit visited b).1 = some .ok →
        LinOps M s (remainingOps ops remaining)) ∧
      (tryOps M ops child remaining s is hit visited b).1 ≠ some .noLinearization ∧
      ((tryOps M ops child remaining s is hit visited b).1 = none →
        (tryOps M ops child remaining s is hit visited b).2.1 = false → hit = false ∧
          ∀ i ∈ is, ∀ o, candidate ops remaining i = some o → respOk M s o = true →
            ¬ LinOps M (M.step s o.op).1 (remainingOps ops (remaining.set i false))) := by
  induction is generalizing hit visited b with
  | nil => exact ⟨hV, by simp [tryOps], by simp [tryOps], by simp [tryOps]⟩
  | cons i is ih =>
    cases hc : candidate ops remaining i with
    | none =>
      simp only [tryOps, hc]
      obtain ⟨h1, h2, h3, h4⟩ := ih hit visited b hV
      refine ⟨h1, h2, h3, fun hn hh => ⟨(h4 hn hh).1, ?_⟩⟩
      intro j hj o ho
      rcases List.mem_cons.mp hj with rfl | hj
      · rw [hc] at ho
        cases ho
      · exact (h4 hn hh).2 j hj o ho
    | some o =>
      simp only [tryOps, hc]
      obtain ⟨hrem, hop, hfront⟩ := candidate_eq_some.mp hc
      have hperm := remainingOps_set hop hrem
      have hok : OpOk o := hops o (List.mem_of_getElem? hop)
      have hlate : ∀ x ∈ remainingOps ops (remaining.set i false), o.invoke ≤ x.ret := fun x hx =>
        (le_minRet hok.inv_max).mp hfront x (hperm.mem_iff.mpr (List.mem_cons_of_mem _ hx))
      -- the two branches, or nothing where they are not taken
      have hlin : ∀ r, r = (if respOk M s o = true then
            child (remaining.set i false) (M.step s o.op).1 visited b
          else (.noLinearization, visited, b)) →
          MemoOk M ops r.2.1 ∧ (r.1 = .ok → LinOps M s (remainingOps ops remaining)) ∧
          (r.1 = .noLinearization → respOk M s o = true →
            ¬ LinOps M (M.step s o.op).1 (remainingOps ops (remaining.set i false))) := by
        rintro r rfl
        by_cases hresp : respOk M s o = true
        · rw [if_pos hresp]
          have hs := hchild (remaining.set i false) (M.step s o.op).1 visited b hV
          exact ⟨hs.memo, fun hr => (hs.ok hr).linearize hperm hlate (respOk_iff.mp hresp),
            fun hr _ => hs.none_ hr⟩
        · rw [if_neg hresp]
          exact ⟨hV, by simp, fun _ hr => absurd hr hresp⟩
      obtain ⟨hm1, hl1, hn1⟩ := hlin _ rfl
      generalize (if respOk M s o = true then child (remaining.set i false) (M.step s o.op).1 visited b
        else (.noLinearization, visited, b)) = r at hm1 hl1 hn1 ⊢
      have hdrop : ∀ r', r' = (if o.observed.isNone = true then
            child (remaining.set i false) s r.2.1 r.2.2 else (.noLinearization, r.2)) →
          MemoOk M ops r'.2.1 ∧ (r'.1 = .ok → LinOps M s (remainingOps ops remaining)) := by
        rintro r' rfl
        by_cases hnone : o.observed.isNone = true
        · rw [if_pos hnone]
          have hs := hchild (remaining.set i false) s r.2.1 r.2.2 hm1
          exact ⟨hs.memo, fun hr => (hs.ok hr).drop hperm (by simpa using hnone)⟩
        · rw [if_neg hnone]
          exact ⟨hm1, by simp⟩
      obtain ⟨hm2, hl2⟩ := hdrop _ rfl
      generalize (if o.observed.isNone = true then child (remaining.set i false) s r.2.1 r.2.2
        else (.noLinearization, r.2)) = r' at hm2 hl2 ⊢
      by_cases hr : r.1 = .ok
      · rw [if_pos hr]
        exact ⟨hm1, fun _ => hl1 hr, by simp, by simp⟩
      rw [if_neg hr]
      by_cases hr' : r'.1 = .ok
      · rw [if_pos hr']
        exact ⟨hm2, fun _ => hl2 hr', by simp, by simp⟩
      rw [if_neg hr']
      by_cases h0 : r'.2.2 = 0
      · rw [if_pos h0]
        exact ⟨hm2, by simp, by simp, by simp⟩
      rw [if_neg h0]
      obtain ⟨h1, h2, h3, h4⟩ :=
        ih (hit || r.1 == .budgetExceeded || r'.1 == .budgetExceeded) r'.2.1 r'.2.2 hm2
      refine ⟨h1, h2, h3, fun hn hh => ?_⟩
      obtain ⟨hhit, hrest⟩ := h4 hn hh
      simp only [Bool.or_eq_false_iff, beq_eq_false_iff_ne] at hhit
      refine ⟨hhit.1.1, ?_⟩
      intro j hj o' ho' hresp
      rcases List.mem_cons.mp hj with rfl | hj
      · rw [hc] at ho'
        cases ho'
        refine hn1 ?_ hresp
        cases hcase : r.1 with
        | ok => exact absurd hcase hr
        | noLinearization => rfl
        | budgetExceeded => exact absurd hcase hhit.1.2
      · exact hrest j hj o' ho' hresp

theorem search_sound (hops : ∀ o ∈ ops, OpOk o) (fuel : ℕ) (remaining : List Bool) (s : σ)
    (visited : Visited σ) (b : ℕ) (hV : MemoOk M ops visited) :
    Sound M ops remaining s (search M ops fuel remaining s visited b) := by
  induction fuel generalizing remaining s visited b with
  | zero => exact ⟨hV, by simp [search], by simp [search]⟩
  | succ fuel ih =>
    unfold search
    by_cases h0 : b = 0
    · rw [if_pos h0]
      exact ⟨hV, by simp, by simp⟩
    rw [if_neg h0]
    by_cases hdone : (remainingOps ops remaining).any (·.observed.isSome) = true
    swap
    · rw [Bool.not_eq_true] at hdone
      rw [if_pos (by rw [hdone]; rfl)]
      exact ⟨hV, fun _ => linOps_of_done hdone, by simp⟩
    rw [if_neg (by rw [hdone]; simp)]
    by_cases hmemo : visited.contains (remaining, s) = true
    · rw [if_pos hmemo]
      exact ⟨hV, by simp, fun _ => hV _ (by simpa using hmemo)⟩
    rw [if_neg hmemo]
    obtain ⟨h1, h2, h3, h4⟩ := tryOps_sound hops remaining s ih (List.range ops.length) false visited
      (b - 1) hV
    generalize tryOps M ops (search M ops fuel) remaining s (List.range ops.length) false visited
      (b - 1) = t at h1 h2 h3 h4 ⊢
    obtain ⟨res, hit, V', b'⟩ := t
    cases res with
    | some r =>
      refine ⟨h1, fun hr => h2 (congrArg some hr), fun hr => absurd (congrArg some hr) h3⟩
    | none =>
      cases hit with
      | true => exact ⟨h1, by simp, by simp⟩
      | false =>
        obtain ⟨-, hfail⟩ := h4 rfl rfl
        -- the first operation of an order would be a candidate that leads on
        have hdead : ¬ LinOps M s (remainingOps ops remaining) := by
          intro hlin
          have hokrem : ∀ x ∈ remainingOps ops remaining, OpOk x := fun x hx =>
            hops x (remainingOps_mem_ops hx)
          obtain ⟨o, L', hperm, hfront, hresp, hnext⟩ := hlin.first hdone hokrem
          obtain ⟨i, hi, hrem⟩ := mem_remainingOps (hperm.mem_iff.mpr List.mem_cons_self)
          have hok : OpOk o := hops o (List.mem_of_getElem? hi)
          have hcand := candidate_eq_some.mpr ⟨hrem, hi, (le_minRet hok.inv_max).mpr hfront⟩
          obtain ⟨hlt, -⟩ := List.getElem?_eq_some_iff.mp hi
          refine hfail i (List.mem_range.mpr hlt) o hcand (respOk_iff.mpr hresp) (hnext.perm ?_)
          exact List.Perm.cons_inv (hperm.symm.trans (remainingOps_set hi hrem))
        refine ⟨?_, by simp, fun _ => hdead⟩
        intro x hx
        rcases List.mem_cons.mp hx with rfl | hx
        · exact hdead
        · exact h1 x hx

/-! ## Enough budget -/

/-- How an answer with a budget goes with the one without: on as many nodes as the budget a
    dead end may be reported as an exceeded budget. -/
structure Follows (b : ℕ) (r : SearchResult × Visited σ × ℕ) (x : Bool × Visited σ × ℕ) : Prop where
  found : x.1 = true → x.2.2 ≤ b → r = (.ok, x.2.1, b - x.2.2)
  dead : x.1 = false → x.2.2 < b → r = (.noLinearization, x.2.1, b - x.2.2)
  last : x.1 = false → x.2.2 = b → r.1 ≠ .ok ∧ r.2.2 = 0

omit [DecidableEq σ] in
theorem follows_skip (visited : Visited σ) (b : ℕ) :
    Follows b (.noLinearization, visited, b) (false, visited, 0) :=
  ⟨by simp, by simp, by simp +contextual⟩

omit [DecidableEq σ] in
theorem follows_ite {p : Prop} [Decidable p] {V : Visited σ} {r : SearchResult × Visited σ × ℕ}
    {x : Bool × Visited σ × ℕ} (h : p → Follows b r x ∧ 1 ≤ x.2.2) :
    Follows b (if p then r else (.noLinearization, V, b)) (if p then x else (false, V, 0)) ∧
      ((if p then x else (false, V, 0)).1 = true → 1 ≤ (if p then x else (false, V, 0)).2.2) ∧
      ((if p then x else (false, V, 0)).2.2 = 0 → ¬ p) := by
  by_cases hp : p
  · simp only [if_pos hp]
    obtain ⟨hf, hpos⟩ := h hp
    exact ⟨hf, fun _ => hpos, fun h0 => absurd (h0 ▸ hpos) (by simp)⟩
  · simp only [if_neg hp]
    exact ⟨follows_skip V b, by simp, fun _ => hp⟩

omit [DecidableEq σ] in
theorem exploreOps_of_none {child : List Bool → σ → Visited σ → Bool × Visited σ × ℕ} {is : List ℕ}
    (h : ∀ i ∈ is, candidate ops remaining i = none) :
    exploreOps M ops child remaining s is visited = (false, visited, 0) := by
  induction is with
  | nil => rfl
  | cons i is ih =>
    simp only [exploreOps, h i List.mem_cons_self]
    exact ih fun j hj => h j (List.mem_cons_of_mem _ hj)

/-- The children of a node, with and without a budget. -/
def ChildFollows (ops : List (NOp Op Resp)) (remaining : List Bool)
    (child : List Bool → σ → Visited σ → ℕ → SearchResult × Visited σ × ℕ)
    (childX : List Bool → σ → Visited σ → Bool × Visited σ × ℕ) : Prop :=
  ∀ i o, candidate ops remaining i = some o → ∀ s visited b,
    Follows b (child (remaining.set i false) s visited b) (childX (remaining.set i false) s visited) ∧
      1 ≤ (childX (remaining.set i false) s visited).2.2

omit [DecidableEq σ] in
theorem tryOps_follows {child : List Bool → σ → Visited σ → ℕ → SearchResult × Visited σ × ℕ}
    {childX : List Bool → σ → Visited σ → Bool × Visited σ × ℕ}
    (hchild : ChildFollows ops remaining child childX) (is : List ℕ) (hit : Bool)
    (visited : Visited σ) (b : ℕ) (y : Bool × Visited σ × ℕ)
    (hy : exploreOps M ops childX remaining s is visited = y) :
    (y.1 = true → 1 ≤ y.2.2 ∧ (y.2.2 ≤ b → ∃ hit',
      tryOps M ops child remaining s is hit visited b = (some .ok, hit', y.2.1, b - y.2.2))) ∧
    (y.1 = false → y.2.2 < b →
      tryOps M ops child remaining s is hit visited b = (none, hit, y.2.1, b - y.2.2)) ∧
    (y.1 = false → y.2.2 = b → (∃ i ∈ is, candidate ops remaining i ≠ none) →
      (tryOps M ops child remaining s is hit visited b).1 = some .budgetExceeded ∧
        (tryOps M ops child remaining s is hit visited b).2.2.2 = 0) := by
  induction is generalizing hit visited b y with
  | nil =>
    subst hy
    refine ⟨by simp [exploreOps], by simp [exploreOps, tryOps], ?_⟩
    rintro - - ⟨i, hi, -⟩
    cases hi
  | cons i is ih =>
    cases hc : candidate ops remaining i with
    | none =>
      simp only [exploreOps, hc] at hy
      simp only [tryOps, hc]
      obtain ⟨h1, h2, h3⟩ := ih hit visited b y hy
      refine ⟨h1, h2, fun hf hb hex => h3 hf hb ?_⟩
      obtain ⟨j, hj, hcand⟩ := hex
      rcases List.mem_cons.mp hj with rfl | hj
      · exact absurd hc hcand
      · exact ⟨j, hj, hcand⟩
    | some o =>
      simp only [exploreOps, hc] at hy
      simp only [tryOps, hc]
      obtain ⟨hfr, hxpos, -⟩ := follows_ite (p := respOk M s o = true) (V := visited) (b := b)
        fun _ => hchild i o hc (M.step s o.op).1 visited b
      generalize (if respOk M s o = true then child (remaining.set i false) (M.step s o.op).1 visited b
        else (.noLinearization, visited, b)) = r at hfr ⊢
      generalize (if respOk M s o = true then childX (remaining.set i false) (M.step s o.op).1 visited
        else (false, visited, 0)) = x at hfr hxpos hy
      obtain ⟨xf, xV, xn⟩ := x
      cases xf with
      | true =>
        subst hy
        refine ⟨fun _ => ⟨hxpos rfl, fun hb => ⟨hit, ?_⟩⟩, by simp, by simp⟩
        rw [hfr.found rfl hb]
        simp
      | false =>
        simp only [Bool.false_eq_true, if_false] at hy
        obtain ⟨hfd, hdpos, hdskip⟩ := follows_ite (p := o.observed.isNone = true) (V := xV) (b := b - xn)
          fun _ => hchild i o hc s xV (b - xn)
        have hrest := fun hit b' V' => ih hit V' b' _ rfl
        rcases Nat.lt_or_ge xn b with hlt | hge
        · -- the first branch leaves some budget
          obtain rfl := hfr.dead rfl hlt
          rw [if_neg (by simp)]
          generalize (if o.observed.isNone = true then child (remaining.set i false) s xV (b - xn)
            else (.noLinearization, xV, b - xn)) = r' at hfd ⊢
          generalize (if o.observed.isNone = true then childX (remaining.set i false) s xV
            else (false, xV, 0)) = x' at hfd hdpos hy
          obtain ⟨xf', xV', xn'⟩ := x'
          cases xf' with
          | true =>
            simp only [if_pos] at hy
            subst hy
            refine ⟨fun _ => ⟨(hdpos rfl).trans (Nat.le_add_left _ _), fun hb => ⟨hit, ?_⟩⟩, by simp, by simp⟩
            dsimp only at hb ⊢
            rw [hfd.found rfl (by dsimp only; omega)]
            simp [Nat.sub_sub]
          | false =>
            simp only [Bool.false_eq_true, if_false] at hy
            subst hy
            dsimp only
            rcases Nat.lt_or_ge xn' (b - xn) with hlt' | hge'
            · obtain rfl := hfd.dead rfl hlt'
              obtain ⟨h1, h2, h3⟩ := hrest hit (b - xn - xn') xV'
              rw [if_neg (by simp), if_neg (by dsimp only; omega)]
              simp only [beq_eq_false_iff_ne.mpr (show SearchResult.noLinearization ≠ .budgetExceeded by simp),
                Bool.or_false]
              generalize hz : exploreOps M ops childX remaining s is xV' = z at h1 h2 h3 ⊢
              refine ⟨fun hz1 => ⟨by have := (h1 hz1).1; omega, fun hb => ?_⟩, fun hz1 hb => ?_,
                fun hz1 hb _ => ?_⟩
              · obtain ⟨hit', heq⟩ := (h1 hz1).2 (by omega)
                exact ⟨hit', by rw [heq]; congr 3; omega⟩
              · rw [h2 hz1 (by omega)]
                congr 3
                omega
              · refine h3 hz1 (by omega) ?_
                -- nodes are left, so there is a candidate
                by_contra hno
                push Not at hno
                rw [exploreOps_of_none hno] at hz
                subst hz
                dsimp only at hb
                omega
            · have hpos := (hrest hit b xV').1
              generalize exploreOps M ops childX remaining s is xV' = z at hpos ⊢
              refine ⟨fun hz => ⟨?_, fun hb => ?_⟩, fun _ hb => ?_, fun _ hb _ => ?_⟩
              · have := (hpos hz).1
                omega
              · have := (hpos hz).1
                omega
              · omega
              · obtain ⟨hne, h0⟩ := hfd.last rfl (show xn' = b - xn by omega)
                rw [if_neg hne, if_pos h0]
                exact ⟨rfl, h0⟩
        · -- it leaves none, and a second branch would need some
          generalize (if o.observed.isNone = true then childX (remaining.set i false) s xV
            else (false, xV, 0)) = x' at hdpos hdskip hy
          have hpos := (hrest hit b x'.2.1).1
          generalize exploreOps M ops childX remaining s is x'.2.1 = z at hpos hy
          have hover : y.1 = true → b < y.2.2 := by
            subst hy
            by_cases hx' : x'.1 = true
            · rw [if_pos hx']
              have := hdpos hx'
              intro _
              dsimp only
              omega
            · rw [if_neg hx']
              intro hz
              have := (hpos hz).1
              dsimp only
              omega
          have hnone : y.1 = false → xn ≤ y.2.2 ∧ (y.2.2 = b → xn = b ∧ x'.2.2 = 0) := by
            subst hy
            by_cases hx' : x'.1 = true
            · rw [if_pos hx']
              intro hf
              cases hf
            · rw [if_neg hx']
              intro _
              dsimp only
              omega
          refine ⟨fun ht => ⟨by have := hover ht; omega, fun hb => ?_⟩, fun hf hb => ?_, fun hf hb _ => ?_⟩
          · have := hover ht
            omega
          · have := (hnone hf).1
            omega
          · obtain ⟨hxb, h0⟩ := (hnone hf).2 hb
            obtain ⟨hne, hb0⟩ := hfr.last rfl hxb
            rw [if_neg hne, if_neg (hdskip h0), if_neg (by simp), if_pos hb0]
            exact ⟨rfl, hb0⟩

omit [DecidableEq σ] [DecidableEq Resp] in
theorem exists_candidate (hops : ∀ o ∈ ops, OpOk o)
    (hreq : (remainingOps ops remaining).any (·.observed.isSome) = true) :
    ∃ i ∈ List.range ops.length, candidate ops remaining i ≠ none := by
  obtain ⟨o, ho, -⟩ := List.any_eq_true.mp hreq
  have hne : (remainingOps ops remaining).map NOp.ret ≠ [] := by
    simp only [ne_eq, List.map_eq_nil_iff]
    exact List.ne_nil_of_mem ho
  obtain ⟨m, hm⟩ := Option.ne_none_iff_exists'.mp (mt List.min?_eq_none_iff.mp hne)
  obtain ⟨first, hfirst, hret⟩ := List.mem_map.mp (List.min?_mem hm)
  obtain ⟨i, hi, hrem⟩ := mem_remainingOps hfirst
  obtain ⟨hlt, -⟩ := List.getElem?_eq_some_iff.mp hi
  have hmin : first.invoke ≤ minRet (remainingOps ops remaining) := by
    unfold minRet
    rw [hm, Option.getD_some, ← hret]
    exact (hops first (List.mem_of_getElem? hi)).inv_le
  refine ⟨i, List.mem_range.mpr hlt, ?_⟩
  rw [candidate_eq_some.mpr ⟨hrem, hi, hmin⟩]
  simp

theorem count_set_lt (h : remaining.getD i false = true) :
    (remaining.set i false).count true < remaining.count true := by
  induction remaining generalizing i with
  | nil => simp at h
  | cons x remaining ih =>
    cases i with
    | zero =>
      obtain rfl : x = true := by simpa using h
      simp
    | succ i =>
      have hrec := ih (i := i) (by simpa using h)
      rw [List.set_cons_succ, List.count_cons, List.count_cons]
      omega

theorem search_eq_loop (h0 : b ≠ 0)
    (hdone : (remainingOps ops remaining).any (·.observed.isSome) = true)
    (hmemo : ¬ visited.contains (remaining, s) = true) :
    search M ops (fuel + 1) remaining s visited b =
      match tryOps M ops (search M ops fuel) remaining s (List.range ops.length) false visited (b - 1) with
      | (some r, _, rest) => (r, rest)
      | (none, true, rest) => (.budgetExceeded, rest)
      | (none, false, visited, budget) => (.noLinearization, (remaining, s) :: visited, budget) := by
  simp only [search, if_neg h0, hdone, Bool.not_true, Bool.false_eq_true, if_false, if_neg hmemo]
  try rfl

theorem explore_eq_loop (hdone : (remainingOps ops remaining).any (·.observed.isSome) = true)
    (hmemo : ¬ visited.contains (remaining, s) = true) {y : Bool × Visited σ × ℕ}
    (hy : exploreOps M ops (explore M ops fuel) remaining s (List.range ops.length) visited = y) :
    explore M ops (fuel + 1) remaining s visited =
      (y.1, if y.1 then y.2.1 else (remaining, s) :: y.2.1, y.2.2 + 1) := by
  simp only [explore, hdone, Bool.not_true, Bool.false_eq_true, if_false, if_neg hmemo, hy]

theorem search_follows (hops : ∀ o ∈ ops, OpOk o) (fuel : ℕ) (remaining : List Bool) (s : σ)
    (visited : Visited σ) (b : ℕ) (hfuel : remaining.count true < fuel) :
    Follows b (search M ops fuel remaining s visited b) (explore M ops fuel remaining s visited) ∧
      1 ≤ (explore M ops fuel remaining s visited).2.2 ∧
      ((remaining, s) ∉ visited → (explore M ops fuel remaining s visited).1 = false →
        (explore M ops fuel remaining s visited).2.2 = b →
        (search M ops fuel remaining s visited b).1 = .budgetExceeded) := by
  induction fuel generalizing remaining s visited b with
  | zero => cases hfuel
  | succ fuel ih =>
    by_cases hdone : (remainingOps ops remaining).any (·.observed.isSome) = true
    swap
    · rw [Bool.not_eq_true] at hdone
      simp only [search, explore, hdone, Bool.not_false, if_true]
      refine ⟨⟨fun _ hb => ?_, by simp, by simp⟩, le_rfl, by simp⟩
      rw [if_neg (by dsimp only at hb; omega)]
    by_cases hmemo : visited.contains (remaining, s) = true
    · simp only [search, explore, hdone, Bool.not_true, Bool.false_eq_true, if_false, if_pos hmemo]
      refine ⟨⟨by simp, fun _ hb => ?_, fun _ hb => ?_⟩, le_rfl, fun hnot => ?_⟩
      · rw [if_neg (by dsimp only at hb; omega)]
      · dsimp only at hb
        subst hb
        simp
      · exact absurd (by simpa using hmemo) hnot
    have hchild : ChildFollows ops remaining (search M ops fuel) (explore M ops fuel) := by
      intro i o hc s' visited' b'
      obtain ⟨hrem, -, -⟩ := candidate_eq_some.mp hc
      have hlt := count_set_lt hrem
      obtain ⟨hf, hpos, -⟩ := ih (remaining.set i false) s' visited' b' (by omega)
      exact ⟨hf, hpos⟩
    obtain ⟨h1, h2, h3⟩ := tryOps_follows (M := M) (s := s) hchild (List.range ops.length) false visited
      (b - 1) _ rfl
    rw [explore_eq_loop hdone hmemo rfl]
    generalize exploreOps M ops (explore M ops fuel) remaining s (List.range ops.length) visited = y
      at h1 h2 h3 ⊢
    obtain ⟨yf, yV, yn⟩ := y
    -- the loop gives up on the empty budget
    have hlast : yf = false → yn + 1 = b →
        (search M ops (fuel + 1) remaining s visited b).1 = .budgetExceeded ∧
        (search M ops (fuel + 1) remaining s visited b).2.2 = 0 := by
      intro hf hb
      rw [search_eq_loop (by omega) hdone hmemo]
      obtain ⟨hres, hzero⟩ := h3 hf (by dsimp only; omega) (exists_candidate hops hdone)
      generalize tryOps M ops (search M ops fuel) remaining s (List.range ops.length) false visited
        (b - 1) = t at hres hzero ⊢
      obtain ⟨res, hit, V', b'⟩ := t
      subst hres
      exact ⟨rfl, hzero⟩
    refine ⟨⟨fun ht hb => ?_, fun hf hb => ?_, fun hf hb => ?_⟩, Nat.le_add_left _ _, fun _ hf hb =>
      (hlast hf hb).1⟩
    · dsimp only at ht hb ⊢
      subst ht
      obtain ⟨hit', heq⟩ := (h1 rfl).2 (by dsimp only; omega)
      rw [search_eq_loop (by omega) hdone hmemo, heq]
      simp only [if_true]
      rw [Nat.sub_sub, Nat.add_comm 1]
    · dsimp only at hf hb ⊢
      subst hf
      rw [search_eq_loop (by omega) hdone hmemo, h2 rfl (by dsimp only; omega)]
      simp only [Bool.false_eq_true, if_false]
      rw [Nat.sub_sub, Nat.add_comm 1]
    · obtain ⟨hres, hzero⟩ := hlast hf hb
      exact ⟨by rw [hres]; simp, hzero⟩

end Search

/-! ## Normalization -/

section Normalize

variable {entries order : List (GenEntry Op Resp)}

def GenEntry.norm (e : GenEntry Op Resp) : NOp Op Resp :=
  ⟨e.op, e.outcome, e.invoke, if e.outcome.isSome then e.ret else u64Max⟩

/-- Everything but an indeterminate read is kept. -/
def GenEntry.kept (M : SeqModel σ Op Resp) (e : GenEntry Op Resp) : Bool :=
  e.outcome.isSome || !M.isRead e.op

theorem normalize_eq : normalize M entries = (entries.filter (GenEntry.kept M)).map GenEntry.norm := by
  unfold normalize
  induction entries with
  | nil => rfl
  | cons e entries ih =>
    obtain ⟨op, invoke, ret, outcome⟩ := e
    rw [List.filterMap_cons, List.filter_cons, ih]
    cases outcome with
    | none => cases h : M.isRead op <;> simp [GenEntry.kept, GenEntry.norm, h]
    | some r => simp [GenEntry.kept, GenEntry.norm]

theorem normalize_ok (h : ∀ e ∈ entries, e.invoke ≤ e.ret ∧ e.ret ≤ u64Max) :
    ∀ o ∈ normalize M entries, OpOk o := by
  intro o ho
  rw [normalize_eq] at ho
  obtain ⟨e, he, rfl⟩ := List.mem_map.mp ho
  obtain ⟨hle, hmax⟩ := h e (List.mem_of_mem_filter he)
  refine ⟨?_, hle.trans hmax, fun hnone => ?_⟩
  · dsimp only [GenEntry.norm]
    split
    · exact hle
    · exact hle.trans hmax
  · dsimp only [GenEntry.norm] at hnone ⊢
    rw [hnone]
    rfl

theorem replaysOps_map : ReplaysOps M s (order.map GenEntry.norm) ↔ Replays M s order := by
  induction order generalizing s with
  | nil => rfl
  | cons e order ih => exact and_congr Iff.rfl ih

theorem Replays.filter (h : Replays M s order) : Replays M s (order.filter (GenEntry.kept M)) := by
  induction order generalizing s with
  | nil => exact h
  | cons e order ih =>
    by_cases hk : e.kept M = true
    · rw [List.filter_cons_of_pos hk]
      exact ⟨h.1, ih h.2⟩
    · rw [List.filter_cons_of_neg hk]
      simp only [GenEntry.kept, Bool.or_eq_true, Bool.not_eq_true', not_or, Bool.not_eq_false] at hk
      have hnext := ih h.2
      rwa [M.step_of_isRead s e.op hk.2] at hnext

theorem filter_isSome_kept : (entries.filter (GenEntry.kept M)).filter (·.outcome.isSome) =
    entries.filter (·.outcome.isSome) := by
  rw [List.filter_filter]
  refine List.filter_congr fun e _ => ?_
  cases h : e.outcome.isSome <;> simp [GenEntry.kept, h]

theorem linearizable_iff (h : ∀ e ∈ entries, e.invoke ≤ e.ret ∧ e.ret ≤ u64Max) :
    Linearizable M entries ↔ LinOps M M.init (normalize M entries) := by
  have hsome : (normalize M entries).filter (·.observed.isSome) =
      (entries.filter (·.outcome.isSome)).map GenEntry.norm := by
    rw [normalize_eq, List.filter_map, ← filter_isSome_kept (M := M)]
    rfl
  have hnone : (normalize M entries).filter (·.observed.isNone) =
      ((entries.filter (GenEntry.kept M)).filter (·.outcome.isNone)).map GenEntry.norm := by
    rw [normalize_eq, List.filter_map]
    rfl
  unfold LinOps
  rw [hsome, hnone]
  constructor
  · rintro ⟨order, rest, hrest, horder, hpw, hrep⟩
    have hmem : ∀ e ∈ order, e ∈ entries := by
      intro e he
      rcases List.mem_append.mp (horder.mem_iff.mp he) with he | he
      · exact List.mem_of_mem_filter he
      · exact List.mem_of_mem_filter (hrest.subset he)
    refine ⟨(order.filter (GenEntry.kept M)).map GenEntry.norm,
      (rest.filter (GenEntry.kept M)).map GenEntry.norm, ?_, ?_, ?_, replaysOps_map.mpr hrep.filter⟩
    · obtain ⟨l, hl, hsub⟩ := hrest.filter (GenEntry.kept M)
      rw [List.filter_comm] at hsub
      exact ⟨l.map GenEntry.norm, hl.map _, hsub.map _⟩
    · have hp := (horder.filter (GenEntry.kept M)).map GenEntry.norm
      rwa [List.filter_append, List.map_append, List.filter_comm, filter_isSome_kept] at hp
    · rw [List.pairwise_map]
      refine (hpw.filter _).imp_of_mem ?_
      intro a b ha _ hab hlt
      obtain ⟨hle, hmax⟩ := h a (hmem a (List.mem_of_mem_filter ha))
      dsimp only [GenEntry.norm] at hlt
      split at hlt
      · exact hab ⟨‹_›, hlt⟩
      · omega
  · rintro ⟨order, rest, ⟨l, hl, hsub⟩, horder, hpw, hrep⟩
    obtain ⟨l, hkept, rfl⟩ := List.sublist_map_iff.mp hsub
    -- an order of the normalized operations is one of operations that were kept
    have hp : order.Perm ((entries.filter (·.outcome.isSome) ++ l).map GenEntry.norm) := by
      rw [List.map_append]
      exact horder.trans (hl.symm.append_left _)
    have hcomp := congrFun (congrFun (List.eq_map_comp_perm GenEntry.norm) order)
      (entries.filter (·.outcome.isSome) ++ l)
    obtain ⟨order, rfl, hback⟩ := hcomp.mpr hp
    refine ⟨order, l, ?_, hback, ?_, replaysOps_map.mp hrep⟩
    · rw [List.filter_comm] at hkept
      exact (hkept.trans List.filter_sublist).subperm
    · rw [List.pairwise_map] at hpw
      refine hpw.imp ?_
      rintro a b hab ⟨hb, hlt⟩
      refine hab ?_
      dsimp only [GenEntry.norm]
      rwa [if_pos hb]

theorem explore_iff [DecidableEq σ] [DecidableEq Resp]
    (h : ∀ e ∈ entries, e.invoke ≤ e.ret ∧ e.ret ≤ u64Max) :
    (explore M (normalize M entries) ((normalize M entries).length + 1)
      (List.replicate (normalize M entries).length true) M.init []).1 = true ↔
      Linearizable M entries := by
  have hops := normalize_ok (M := M) h
  rw [linearizable_iff h]
  generalize normalize M entries = ops at hops ⊢
  have hfuel : (List.replicate ops.length true).count true < ops.length + 1 := by simp
  generalize hx : explore M ops (ops.length + 1) (List.replicate ops.length true) M.init [] = x
  obtain ⟨hf, -, -⟩ := search_follows (M := M) hops (ops.length + 1) (List.replicate ops.length true)
    M.init [] (x.2.2 + 1) hfuel
  have hs := search_sound (M := M) hops (ops.length + 1) (List.replicate ops.length true) M.init []
    (x.2.2 + 1) (by simp [MemoOk])
  rw [hx] at hf
  have hall : remainingOps ops (List.replicate ops.length true) = ops := remainingOps_replicate
  constructor
  · intro ht
    have hok := hs.ok (by rw [hf.found ht (Nat.le_succ _)])
    rwa [hall] at hok
  · intro hlin
    by_contra hno
    rw [Bool.not_eq_true] at hno
    have hdead := hs.none_ (by rw [hf.dead hno (Nat.lt_succ_self _)])
    rw [hall] at hdead
    exact hdead hlin

/-- The verdicts are right on every budget, and there is one on every budget that the search
    fits in, except that a violation is not seen on exactly that budget. -/
theorem checkModel_exact [DecidableEq σ] [DecidableEq Resp] (M : SeqModel σ Op Resp)
    (entries : List (GenEntry Op Resp)) (budget : ℕ)
    (h : ∀ e ∈ entries, e.invoke ≤ e.ret ∧ e.ret ≤ u64Max) :
    (((checkModel M entries budget).1 = .linearizable → Linearizable M entries) ∧
      ((checkModel M entries budget).1 = .violation → ¬ Linearizable M entries) ∧
      (searchNodes M entries ≤ budget → (checkModel M entries budget).1 ≠ .inconclusive)) ↔
    (budget = searchNodes M entries → Linearizable M entries) := by
  have hops := normalize_ok (M := M) h
  have hexp := explore_iff (M := M) h
  have hlin := linearizable_iff (M := M) h
  simp only [checkModel, searchNodes]
  generalize normalize M entries = ops at hops hexp hlin ⊢
  have hfuel : (List.replicate ops.length true).count true < ops.length + 1 := by simp
  obtain ⟨hf, -, hbug⟩ := search_follows (M := M) hops (ops.length + 1)
    (List.replicate ops.length true) M.init [] budget hfuel
  obtain ⟨-, hok, hnone⟩ := search_sound (M := M) hops (ops.length + 1)
    (List.replicate ops.length true) M.init [] budget (by simp [MemoOk])
  rw [remainingOps_replicate, ← hlin] at hok hnone
  generalize explore M ops (ops.length + 1) (List.replicate ops.length true) M.init [] = x
    at hf hbug hexp ⊢
  generalize search M ops (ops.length + 1) (List.replicate ops.length true) M.init [] budget = r
    at hf hbug hok hnone ⊢
  constructor
  · rintro ⟨-, -, hdecided⟩ heq
    by_contra hno
    have hfalse : x.1 = false := Bool.not_eq_true _ ▸ mt hexp.mp hno
    have hres := hbug (by simp) hfalse heq.symm
    exact hdecided heq.ge (by rw [hres])
  · intro hcond
    refine ⟨fun hv => hok ?_, fun hv => hnone ?_, fun hb hv => ?_⟩
    · cases hr : r.1 <;> simp_all
    · cases hr : r.1 <;> simp_all
    · have hexceeded : r.1 = .budgetExceeded := by
        cases hr : r.1 <;> simp_all
      cases hx : x.1 with
      | true =>
        rw [hf.found hx hb] at hexceeded
        cases hexceeded
      | false =>
        have hne : x.2.2 ≠ budget := by
          intro heq
          have := hexp.mpr (hcond heq.symm)
          rw [hx] at this
          cases this
        rw [hf.dead hx (lt_of_le_of_ne hb hne)] at hexceeded
        cases hexceeded

/-- A read that misses a write before it. -/
def staleRead : List (GenEntry RegOp RegResp) :=
  [⟨.write 1, 0, 1, some .ack⟩, ⟨.read, 2, 3, some (.value none)⟩]

theorem checkModel_exact_staleRead : (∀ e ∈ staleRead, e.invoke ≤ e.ret ∧ e.ret ≤ u64Max) ∧
    (checkModel registerModel staleRead 3).1 ≠ .inconclusive := by
  have hbound : ∀ e ∈ staleRead, e.invoke ≤ e.ret ∧ e.ret ≤ u64Max := by decide
  have hne : ¬ 3 = searchNodes registerModel staleRead := by decide +kernel
  have hiff := checkModel_exact registerModel staleRead 3 hbound
  exact ⟨hbound, (hiff.mpr fun heq => absurd heq hne).2.2 (by decide +kernel)⟩

/-- Two nodes and a budget of two, and no verdict. -/
theorem checkModel_gives_up : (∀ e ∈ staleRead, e.invoke ≤ e.ret ∧ e.ret ≤ u64Max) ∧
    searchNodes registerModel staleRead ≤ 2 ∧
    (checkModel registerModel staleRead 2).1 = .inconclusive := by
  refine ⟨by decide, by decide +kernel, by decide +kernel⟩

end Normalize

end UltimaCluster.Lincheck
