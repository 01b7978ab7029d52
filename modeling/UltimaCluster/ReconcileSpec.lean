/-
  What reconciliation answers, in terms of the two logs' attributions.

  The walk compares entries, not bytes: it is exact from the window's base on,
  for maps whose entries each cover some byte.  Below the window it knows only
  the follower's own map, where it cuts at the first entry that claims a term
  of the window.
-/
import UltimaCluster.Attribution

namespace UltimaCluster

open Timeline (exists_mem_of_valueAt valueAt_append_cons valueAt_append_of_lt valueAt_cons_of_lt)

open TermMap

/-! ## The common run -/

theorem commonRun_spec (own leader : TermMap) :
    ∃ common rest rest', own = common ++ rest ∧ leader = common ++ rest' ∧
      common.length = commonRun own leader ∧
      ∀ e l, rest.head? = some e → rest'.head? = some l → e ≠ l := by
  induction own generalizing leader with
  | nil => exact ⟨[], [], leader, rfl, rfl, by simp [commonRun], by simp⟩
  | cons e own ih =>
    cases leader with
    | nil => exact ⟨[], e :: own, [], rfl, rfl, by simp [commonRun], by simp⟩
    | cons l leader =>
      by_cases h : e = l
      · obtain ⟨common, rest, rest', h1, h2, h3, h4⟩ := ih leader
        refine ⟨e :: common, rest, rest', by rw [h1]; rfl, by rw [h, h2]; rfl, ?_, h4⟩
        simp [commonRun, h, h3]
      · refine ⟨[], e :: own, l :: leader, rfl, rfl, by simp [commonRun, h], ?_⟩
        rintro e' l' ⟨⟩ ⟨⟩
        exact h

/-- The aligned walk: `common` is the run, `rest` and `rest'` what follows it
    in our map and in the window. -/
structure AlignedWalk (own : TermMap) (d : ℕ) (leader : TermMap) (j : ℕ)
    (common rest rest' : TermMap) : Prop where
  drop_eq : own.drop j = common ++ rest
  leader_eq : leader = common ++ rest'
  differ : ∀ e l, rest.head? = some e → rest'.head? = some l → e ≠ l
  le : (reconcileAligned own d leader j).validUpTo ≤ d
  le_rest : ∀ e ∈ rest, (reconcileAligned own d leader j).validUpTo ≤ e.2
  le_rest' : ∀ e ∈ rest', (reconcileAligned own d leader j).validUpTo ≤ e.2
  /-- A cut is at the head of one of the two rests. -/
  cut : (reconcileAligned own d leader j).validUpTo < d →
    (∃ e, rest.head? = some e ∧ (reconcileAligned own d leader j).validUpTo = e.2) ∨
    (∃ e, rest'.head? = some e ∧ (reconcileAligned own d leader j).validUpTo = e.2)
  newMap : (reconcileAligned own d leader j).newMap = own.take j ++ common

theorem head_le_of_mem {m : TermMap} (h : m.Pairwise fun a b => a.2 < b.2) {e x : ℕ × ℕ}
    (he : m.head? = some e) (hx : x ∈ m) : e.2 ≤ x.2 := by
  cases m with
  | nil => cases hx
  | cons a m =>
    cases he
    rcases List.mem_cons.mp hx with rfl | hx
    · exact le_rfl
    · exact ((List.pairwise_cons.mp h).1 x hx).le

/-- The clamp at the heads of the two rests. -/
def alignedCut (d : ℕ) (rest rest' : TermMap) : ℕ :=
  let v := match rest.head? with
    | some (_, base) => min d base
    | none => d
  match rest'.head? with
    | some (_, base) => if base < d then min v base else v
    | none => v

variable {common rest rest' : TermMap} {own leader window : TermMap}

theorem reconcileAligned_eq (d j : ℕ) (hown : own.drop j = common ++ rest)
    (hlead : leader = common ++ rest') (hlen : common.length = commonRun (own.drop j) leader) :
    reconcileAligned own d leader j =
      { validUpTo := alignedCut d rest rest'
        newMap := own.take j ++ common ++
          rest.filter fun e => e.2 < alignedCut d rest rest' } := by
  have hget : own[j + common.length]? = rest.head? := by
    rw [← List.getElem?_drop, hown, List.getElem?_append_right le_rfl, Nat.sub_self,
      List.head?_eq_getElem?]
  have hget' : leader[common.length]? = rest'.head? := by
    rw [hlead, List.getElem?_append_right le_rfl, Nat.sub_self, List.head?_eq_getElem?]
  have htake : own.take (j + common.length) = own.take j ++ common := by
    rw [List.take_add, hown, List.take_left]
  have hdrop : own.drop (j + common.length) = rest := by
    rw [← List.drop_drop, hown, List.drop_left]
  unfold reconcileAligned
  rw [← hlen]
  simp only [hget, hget', htake, hdrop]
  rfl

theorem alignedCut_spec (d : ℕ) (hr : rest.Pairwise fun a b => a.2 < b.2)
    (hr' : rest'.Pairwise fun a b => a.2 < b.2) :
    alignedCut d rest rest' ≤ d ∧ (∀ e ∈ rest, alignedCut d rest rest' ≤ e.2) ∧
      (∀ e ∈ rest', alignedCut d rest rest' ≤ e.2) ∧
      (alignedCut d rest rest' < d →
        (∃ e, rest.head? = some e ∧ alignedCut d rest rest' = e.2) ∨
        (∃ e, rest'.head? = some e ∧ alignedCut d rest rest' = e.2)) := by
  -- each rest either is empty or bounds the cut by its head
  have hhead : ∀ m : TermMap, m.head? = none → ∀ e ∈ m, alignedCut d rest rest' ≤ e.2 := by
    intro m hm e he
    rw [List.head?_eq_none_iff.mp hm] at he
    cases he
  cases h : rest.head? with
  | none =>
    cases h' : rest'.head? with
    | none =>
      have hv : alignedCut d rest rest' = d := by simp [alignedCut, h, h']
      exact ⟨hv.le, hhead _ h, hhead _ h', fun hlt => absurd hv hlt.ne⟩
    | some e' =>
      have hv : alignedCut d rest rest' = if e'.2 < d then e'.2 else d := by
        simp only [alignedCut, h, h']
        split <;> omega
      refine ⟨by rw [hv]; split <;> omega, hhead _ h, ?_, ?_⟩
      · intro e he
        have := head_le_of_mem hr' h' he
        rw [hv]
        split <;> omega
      · intro hlt
        refine .inr ⟨e', rfl, ?_⟩
        rw [hv] at hlt ⊢
        split at hlt
        · rw [if_pos ‹_›]
        · omega
  | some e₀ =>
    cases h' : rest'.head? with
    | none =>
      have hv : alignedCut d rest rest' = min d e₀.2 := by simp [alignedCut, h, h']
      refine ⟨by omega, ?_, hhead _ h', ?_⟩
      · intro e he
        have := head_le_of_mem hr h he
        omega
      · intro hlt
        exact .inl ⟨e₀, rfl, by omega⟩
    | some e' =>
      have hv : alignedCut d rest rest' =
          if e'.2 < d then min (min d e₀.2) e'.2 else min d e₀.2 := by
        simp [alignedCut, h, h']
      refine ⟨by rw [hv]; split <;> omega, ?_, ?_, ?_⟩
      · intro e he
        have := head_le_of_mem hr h he
        rw [hv]
        split <;> omega
      · intro e he
        have := head_le_of_mem hr' h' he
        rw [hv]
        split <;> omega
      · intro hlt
        rw [hv] at hlt ⊢
        by_cases hd : e'.2 < d
        · rw [if_pos hd] at hlt ⊢
          rcases le_total e₀.2 e'.2 with hle | hle
          · exact .inl ⟨e₀, rfl, by omega⟩
          · exact .inr ⟨e', rfl, by omega⟩
        · rw [if_neg hd] at hlt ⊢
          exact .inl ⟨e₀, rfl, by omega⟩

theorem reconcileAligned_walk (hown : own.Strict) (hlead : leader.Strict) (d j : ℕ) :
    ∃ common rest rest', AlignedWalk own d leader j common rest rest' ∧
      common.length = commonRun (own.drop j) leader := by
  obtain ⟨common, rest, rest', h1, h2, h3, h4⟩ := commonRun_spec (own.drop j) leader
  have hsub : rest.Sublist own := by
    refine (List.sublist_append_right common rest).trans ?_
    rw [← h1]
    exact List.drop_sublist j own
  have hsub' : rest'.Sublist leader := by
    rw [h2]
    exact List.sublist_append_right common rest'
  have heq := reconcileAligned_eq d j h1 h2 h3
  obtain ⟨hle, hrest, hrest', hcut⟩ := alignedCut_spec d (hown.sublist hsub).bases
    (hlead.sublist hsub').bases
  refine ⟨common, rest, rest', ⟨?_, h2, h4, ?_, ?_, ?_, ?_, ?_⟩, h3⟩
  · exact h1
  · rw [heq]; exact hle
  · rw [heq]; exact hrest
  · rw [heq]; exact hrest'
  · rw [heq]; exact hcut
  · rw [heq]
    have hnil : rest.filter (fun e => e.2 < alignedCut d rest rest') = [] := by
      rw [List.filter_eq_nil_iff]
      intro e he
      have := hrest e he
      simpa using this
    simp [hnil]

/-! ## Attributions along the walk -/

theorem attr_differ (hr : TermMap.Strict (common ++ rest)) (hr' : TermMap.Strict (common ++ rest'))
    {e : ℕ × ℕ} (he : rest.head? = some e) (hle : ∀ x ∈ rest', e.2 ≤ x.2)
    (hdiff : ∀ l, rest'.head? = some l → e ≠ l) :
    attr (common ++ rest) e.2 ≠ attr (common ++ rest') e.2 := by
  cases rest with
  | nil => cases he
  | cons a rest =>
    cases he
    have hlater : ∀ x ∈ rest, e.2 < x.2 :=
      (List.pairwise_cons.mp (List.pairwise_append.mp hr.bases).2.1).1
    have hown : attr (common ++ e :: rest) e.2 = some e.1 := by
      unfold attr
      rw [valueAt_append_cons le_rfl, valueAt_cons_of_lt le_rfl hlater]
    -- an entry of the common run has a smaller term than `e`
    have hcommon : attr common e.2 ≠ some e.1 := by
      intro h
      obtain ⟨b, hmem, -⟩ := exists_mem_of_valueAt h
      have := (List.pairwise_append.mp hr.terms).2.2 _ hmem e List.mem_cons_self
      exact lt_irrefl _ this
    rw [hown]
    intro hsome
    cases rest' with
    | nil =>
      rw [List.append_nil] at hsome
      exact hcommon hsome.symm
    | cons l rest' =>
      have hl := hle l List.mem_cons_self
      have hlater' : ∀ x ∈ rest', l.2 < x.2 :=
        (List.pairwise_cons.mp (List.pairwise_append.mp hr'.bases).2.1).1
      rcases hl.eq_or_lt with heq | hlt
      · have hlead : attr (common ++ l :: rest') e.2 = some l.1 := by
          unfold attr
          rw [heq, valueAt_append_cons le_rfl, valueAt_cons_of_lt le_rfl hlater']
        rw [hlead] at hsome
        exact hdiff l rfl (Prod.ext (Option.some.inj hsome) heq)
      · have hlead : attr (common ++ l :: rest') e.2 = attr common e.2 := by
          refine valueAt_append_of_lt ?_
          intro x hx
          rcases List.mem_cons.mp hx with rfl | hx
          · exact hlt
          · exact hlt.trans (hlater' x hx)
        rw [hlead] at hsome
        exact hcommon hsome.symm

theorem commonRun_append (common rest : TermMap) :
    commonRun common (common ++ rest) = common.length := by
  induction common with
  | nil => simp [commonRun]
  | cons e common ih => simp [commonRun, ih]

variable {d j : ℕ} {first : ℕ × ℕ}

theorem drop_of_findIdx? {own : TermMap} (hj : own.findIdx? (fun e => e = first) = some j) :
    j < own.length ∧ own.drop j = first :: own.drop (j + 1) ∧ first ∉ own.take j := by
  obtain ⟨hlt, heq, hbefore⟩ := List.findIdx?_eq_some_iff_getElem.mp hj
  have hfirst : own[j] = first := by simpa using heq
  refine ⟨hlt, ?_, ?_⟩
  · rw [List.drop_eq_getElem_cons hlt, hfirst]
  · intro hmem
    obtain ⟨i, hi, hget⟩ := List.getElem_of_mem hmem
    rw [List.length_take] at hi
    rw [List.getElem_take] at hget
    have := hbefore i (by omega)
    simp [hget] at this

theorem AlignedWalk.common_cons (hw : AlignedWalk own d (first :: window) j common rest rest')
    (hj : own.findIdx? (fun e => e = first) = some j)
    (hlen : common.length = commonRun (own.drop j) (first :: window)) :
    ∃ tail, common = first :: tail := by
  rw [(drop_of_findIdx? hj).2.1] at hlen
  cases common with
  | nil => simp [commonRun] at hlen
  | cons a tail =>
    have := hw.leader_eq
    rw [List.cons_append] at this
    exact ⟨tail, by rw [(List.cons.inj this).1]⟩

/-- The window's first entry is in our map: exact from the window's base on,
    and clean when asked again. -/
theorem aligned_exact {own leader hidden : TermMap} (hown : own.Strict) (hlead : leader.Strict)
    (hsplit : leader = hidden ++ first :: window) (hj : own.findIdx? (fun e => e = first) = some j) :
    ∃ v newMap, reconcileAligned own d (first :: window) j = ⟨v, newMap⟩ ∧ v ≤ d ∧
      (∀ p, first.2 ≤ p → p < v → own.attr p = leader.attr p) ∧
      (v < d → first.2 ≤ v ∧ own.attr v ≠ leader.attr v) ∧
      newMap <+: own ∧ (∀ p < v, attr newMap p = own.attr p) ∧
      reconcile newMap v (first :: window) = .ok ⟨v, newMap⟩ := by
  have hwindow : TermMap.Strict (first :: window) := by
    refine hlead.sublist ?_
    rw [hsplit]
    exact List.sublist_append_right _ _
  obtain ⟨common, rest, rest', hw, hlen⟩ := reconcileAligned_walk hown hwindow d j
  obtain ⟨tail, htail⟩ := hw.common_cons hj hlen
  obtain ⟨hjlt, hdrop, hbefore⟩ := drop_of_findIdx? hj
  obtain ⟨hdropeq, h2, h4, hle, hrest, hrest', hcut, hnew⟩ := hw
  set v := (reconcileAligned own d (first :: window) j).validUpTo with hv
  obtain ⟨front, hfront⟩ : ∃ front, front = own.take j := ⟨_, rfl⟩
  have h1 : own = front ++ (common ++ rest) := by
    rw [hfront, ← hdropeq, List.take_append_drop]
  have hlenfront : front.length = j := by
    rw [hfront, List.length_take]
    omega
  rw [← hfront] at hnew hbefore
  -- from the window's base on, both maps read as the run and its rest
  have hown' : ∀ p, first.2 ≤ p → own.attr p = attr (common ++ rest) p := by
    intro p hp
    rw [h1, htail]
    exact valueAt_append_cons hp
  have hlead' : ∀ p, first.2 ≤ p → leader.attr p = attr (common ++ rest') p := by
    intro p hp
    rw [hsplit, ← h2]
    exact valueAt_append_cons hp
  have hcommon : ∀ p < v, attr (common ++ rest) p = attr common p ∧
      attr (common ++ rest') p = attr common p := by
    intro p hp
    exact ⟨valueAt_append_of_lt fun e he => hp.trans_le (hrest e he),
      valueAt_append_of_lt fun e he => hp.trans_le (hrest' e he)⟩
  have hstrict : TermMap.Strict (common ++ rest) := by
    rw [← hdropeq]
    exact hown.sublist (List.drop_sublist _ _)
  have hstrict' : TermMap.Strict (common ++ rest') := by
    rw [← h2]
    exact hwindow
  refine ⟨v, front ++ common, ?_, hle, ?_, ?_, ?_, ?_, ?_⟩
  · rw [← hnew]
  · intro p hp hpv
    rw [hown' p hp, hlead' p hp, (hcommon p hpv).1, (hcommon p hpv).2]
  · intro hlt
    have hpast : ∀ x ∈ rest, first.2 ≤ x.2 := fun x hx =>
      ((List.pairwise_append.mp hstrict.bases).2.2 first (by simp [htail]) x hx).le
    have hpast' : ∀ x ∈ rest', first.2 ≤ x.2 := fun x hx =>
      ((List.pairwise_append.mp hstrict'.bases).2.2 first (by simp [htail]) x hx).le
    rcases hcut hlt with ⟨e, he, hve⟩ | ⟨e, he, hve⟩
    · have hfirst : first.2 ≤ v := hve ▸ hpast e (List.mem_of_head? he)
      refine ⟨hfirst, ?_⟩
      rw [hown' v hfirst, hlead' v hfirst, hve]
      refine attr_differ hstrict hstrict' he (fun x hx => hve ▸ hrest' x hx) ?_
      exact fun l hl => h4 e l he hl
    · have hfirst : first.2 ≤ v := hve ▸ hpast' e (List.mem_of_head? he)
      refine ⟨hfirst, ?_⟩
      rw [hown' v hfirst, hlead' v hfirst, hve]
      refine (attr_differ hstrict' hstrict he (fun x hx => hve ▸ hrest x hx) ?_).symm
      exact fun l hl => (h4 l e hl he).symm
  · rw [h1, ← List.append_assoc]
    exact List.prefix_append _ _
  · intro p hp
    rw [h1, ← List.append_assoc]
    exact (valueAt_append_of_lt fun e he => hp.trans_le (hrest e he)).symm
  · -- asked again, the walk finds the same run and nothing after it
    have hidx : (front ++ common).findIdx? (fun e => e = first) = some j := by
      rw [List.findIdx?_append, htail]
      have hnone : front.findIdx? (fun e => decide (e = first)) = none := by
        rw [List.findIdx?_eq_none_iff]
        intro x hx
        simp only [decide_eq_false_iff_not]
        rintro rfl
        exact hbefore hx
      simp [hnone, hlenfront, List.findIdx?_cons]
    have hdrop' : (front ++ common).drop j = common ++ [] := by
      rw [List.append_nil, ← hlenfront, List.drop_left]
    have htake' : (front ++ common).take j = front := by
      rw [← hlenfront, List.take_left]
    have hrun : common.length = commonRun ((front ++ common).drop j) (first :: window) := by
      rw [hdrop', h2, List.append_nil, commonRun_append]
    have hkeep : alignedCut v [] rest' = v := by
      cases hh : rest'.head? with
      | none => simp [alignedCut, hh]
      | some e =>
        have := hrest' e (List.mem_of_head? hh)
        simp [alignedCut, hh, this]
    simp only [reconcile, hidx]
    rw [reconcileAligned_eq v j hdrop' h2 hrun, htake', hkeep]
    simp

/-! ## The window's first entry is not in our map -/

/-- Where the follower's map stops vouching for itself: the window's base, or
    our first entry that claims a term of the window. -/
def clampBase (own : TermMap) (first : ℕ × ℕ) : ℕ :=
  match own.find? fun e => first.1 ≤ e.1 with
  | some (_, base) => min first.2 base
  | none => first.2

theorem clampBase_le (own : TermMap) (first : ℕ × ℕ) : clampBase own first ≤ first.2 := by
  unfold clampBase
  split
  · exact min_le_left _ _
  · exact le_rfl

theorem lt_of_lt_clampBase {own : TermMap} (hown : own.Strict) {first e : ℕ × ℕ} (he : e ∈ own)
    (hlt : e.2 < clampBase own first) : e.1 < first.1 := by
  by_contra hle
  unfold clampBase at hlt
  cases hf : own.find? (fun e => first.1 ≤ e.1) with
  | none =>
    rw [List.find?_eq_none] at hf
    exact hf e he (decide_eq_true (not_lt.mp hle))
  | some x =>
    rw [hf] at hlt
    obtain ⟨-, front, back, rfl, hbefore⟩ := List.find?_eq_some_iff_append.mp hf
    dsimp only at hlt
    have hx : e.2 < x.2 := hlt.trans_le (min_le_right _ _)
    rcases List.mem_append.mp he with he | he
    · have := hbefore e he
      simp only [Bool.not_eq_true', decide_eq_false_iff_not] at this
      exact hle (not_le.mp this)
    · rcases List.mem_cons.mp he with rfl | he
      · exact lt_irrefl _ hx
      · have := (List.pairwise_cons.mp (List.pairwise_append.mp hown.bases).2.1).1 e he
        omega

theorem attr_clampBase_ne {own leader hidden window : TermMap} (hown : own.Strict)
    (hlead : leader.Strict) (hsplit : leader = hidden ++ first :: window) (hnot : first ∉ own) :
    own.attr (clampBase own first) ≠ leader.attr (clampBase own first) := by
  have hlater : ∀ x ∈ window, first.2 < x.2 := by
    rw [hsplit] at hlead
    exact (List.pairwise_cons.mp (List.pairwise_append.mp hlead.bases).2.1).1
  have hhidden : ∀ x ∈ hidden, x.1 < first.1 := by
    rw [hsplit] at hlead
    exact fun x hx => (List.pairwise_append.mp hlead.terms).2.2 x hx first List.mem_cons_self
  rcases (clampBase_le own first).eq_or_lt with heq | hlt
  · -- at the window's base the leader's byte is of the window's first term
    have hl : leader.attr first.2 = some first.1 := by
      rw [hsplit]
      unfold attr
      rw [valueAt_append_cons le_rfl, valueAt_cons_of_lt le_rfl hlater]
    rw [heq, hl]
    intro ho
    obtain ⟨b, hmem, hb⟩ := exists_mem_of_valueAt ho
    rcases hb.eq_or_lt with rfl | hb
    · exact hnot hmem
    · have := lt_of_lt_clampBase hown hmem (by rw [heq]; exact hb)
      exact lt_irrefl _ this
  · -- below it, our own entry claims a term which the leader has not reached
    obtain ⟨x, hf, hx⟩ : ∃ x, own.find? (fun e => first.1 ≤ e.1) = some x ∧
        clampBase own first = x.2 := by
      unfold clampBase at hlt ⊢
      cases hf : own.find? (fun e => first.1 ≤ e.1) with
      | none => simp [hf] at hlt
      | some x =>
        rw [hf] at hlt
        dsimp only at hlt ⊢
        exact ⟨x, rfl, by omega⟩
    obtain ⟨hterm, front, back, rfl, -⟩ := List.find?_eq_some_iff_append.mp hf
    have hback : ∀ y ∈ back, x.2 < y.2 :=
      (List.pairwise_cons.mp (List.pairwise_append.mp hown.bases).2.1).1
    have ho : attr (front ++ x :: back) x.2 = some x.1 := by
      unfold attr
      rw [valueAt_append_cons le_rfl, valueAt_cons_of_lt le_rfl hback]
    rw [hx] at hlt ⊢
    rw [ho]
    intro hl
    have habove : ∀ y ∈ first :: window, x.2 < y.2 := by
      intro y hy
      rcases List.mem_cons.mp hy with rfl | hy
      · exact hlt
      · exact hlt.trans (hlater y hy)
    rw [hsplit] at hl
    unfold attr at hl
    rw [valueAt_append_of_lt habove] at hl
    obtain ⟨b, hmem, -⟩ := exists_mem_of_valueAt hl.symm
    have := hhidden _ hmem
    have hle : first.1 ≤ x.1 := by simpa using hterm
    dsimp only at this
    omega

theorem reconcileUnaligned_eq {own : TermMap} (hne : own ≠ []) (hd : first.2 ≤ d) :
    reconcileUnaligned own d first =
      .ok ⟨clampBase own first, own.filter fun e => e.2 < clampBase own first⟩ := by
  unfold reconcileUnaligned
  rw [if_neg (by simp [hne]; omega), if_neg hne, min_eq_right hd]
  rfl

/-- Asked again after such a cut: clean, unless the cut fell below the window. -/
theorem reconcileUnaligned_again {own : TermMap} (hown : own.Strict)
    (hbase : first.2 ≤ clampBase own first ∨
      own.filter (fun e => e.2 < clampBase own first) = []) :
    reconcileUnaligned (own.filter fun e => e.2 < clampBase own first) (clampBase own first)
      first = .ok ⟨clampBase own first, own.filter fun e => e.2 < clampBase own first⟩ := by
  by_cases hnil : own.filter (fun e => e.2 < clampBase own first) = []
  · rw [hnil]
    simp [reconcileUnaligned]
  · have heq : clampBase own first = first.2 :=
      le_antisymm (clampBase_le own first) (hbase.resolve_right hnil)
    have hclamp : clampBase (own.filter fun e => e.2 < clampBase own first) first =
        clampBase own first := by
      have hnone : (own.filter fun e => e.2 < clampBase own first).find?
          (fun e => first.1 ≤ e.1) = none := by
        rw [List.find?_eq_none]
        intro e he
        obtain ⟨he, hlt⟩ := List.mem_filter.mp he
        have := lt_of_lt_clampBase hown he (by simpa using hlt)
        simp only [decide_eq_true_eq]
        omega
      conv_lhs => rw [clampBase, hnone]
      exact heq.symm
    rw [reconcileUnaligned_eq hnil heq.ge, hclamp, List.filter_filter]
    simp

theorem clampBase_of_mem {own : TermMap} (hown : own.Strict) (h : first ∈ own) :
    clampBase own first = first.2 := by
  refine le_antisymm (clampBase_le own first) ?_
  by_contra hlt
  unfold clampBase at hlt
  cases hf : own.find? (fun e => first.1 ≤ e.1) with
  | none => simp [hf] at hlt
  | some x =>
    rw [hf] at hlt
    obtain ⟨hterm, front, back, rfl, hbefore⟩ := List.find?_eq_some_iff_append.mp hf
    dsimp only at hlt
    have hx : x.2 < first.2 := by omega
    rcases List.mem_append.mp h with h | h
    · have := hbefore first h
      simp at this
    · rcases List.mem_cons.mp h with rfl | h
      · exact lt_irrefl _ hx
      · have hlt' := (List.pairwise_cons.mp (List.pairwise_append.mp hown.terms).2.1).1 first h
        have hle : first.1 ≤ x.1 := by simpa using hterm
        omega

/-! ## The answer -/

theorem reconcile_of_mem {own : TermMap} (h : first ∈ own) (d : ℕ) (window : TermMap) :
    ∃ j, own.findIdx? (fun e => e = first) = some j ∧
      reconcile own d (first :: window) = .ok (reconcileAligned own d (first :: window) j) := by
  cases hj : own.findIdx? (fun e => e = first) with
  | none =>
    rw [List.findIdx?_eq_none_iff] at hj
    have := hj first h
    simp at this
  | some j => exact ⟨j, rfl, by simp only [reconcile, hj]⟩

theorem reconcile_of_not_mem {own : TermMap} (h : first ∉ own) :
    reconcile own d (first :: window) = reconcileUnaligned own d first := by
  have hidx : own.findIdx? (fun e => decide (e = first)) = none := by
    rw [List.findIdx?_eq_none_iff]
    intro x hx
    simp only [decide_eq_false_iff_not]
    rintro rfl
    exact h hx
  simp only [reconcile, hidx]

/-- Equal entries of two maps imply agreement below. -/
def LogMatching (own leader : TermMap) : Prop :=
  ∀ e ∈ own, e ∈ leader → ∀ p < e.2, own.attr p = leader.attr p

/-- What an answered reconciliation says of the two logs; `first` is the first
    entry of the leader's window. -/
structure Exact (own leader : TermMap) (d : ℕ) (first : ℕ × ℕ) (o : Outcome) : Prop where
  le : o.validUpTo ≤ d
  /-- `validUpTo` is the first position from the clamp on at which the
      attributions differ, or our durable. -/
  agree : ∀ p, clampBase own first ≤ p → p < o.validUpTo → own.attr p = leader.attr p
  differ : o.validUpTo < d → clampBase own first ≤ o.validUpTo ∧
    own.attr o.validUpTo ≠ leader.attr o.validUpTo
  /-- Below a window that we hold, the logs match. -/
  below : LogMatching own leader → first ∈ own → ∀ p < o.validUpTo, own.attr p = leader.attr p
  strict : TermMap.Strict o.newMap
  restricts : o.newMap <+: own
  keeps : ∀ p < o.validUpTo, attr o.newMap p = own.attr p
  /-- Asked again, the answer is clean, unless the cut fell below the window. -/
  again : first ∈ own ∨ first.2 ≤ o.validUpTo ∨ o.newMap = [] →
    reconcile o.newMap o.validUpTo leader.wireTail = .ok o

theorem exact_of_aligned (hown : own.Strict) (hlead : leader.Strict)
    (hw : leader.wireTail = first :: window) (hj : own.findIdx? (fun e => e = first) = some j) :
    Exact own leader d first (reconcileAligned own d (first :: window) j) := by
  obtain ⟨hidden, hsplit⟩ := leader.exists_wireTail
  rw [hw] at hsplit
  have hmem : first ∈ own := by
    have hdrop := (drop_of_findIdx? hj).2.1
    exact (List.drop_sublist j own).mem (by rw [hdrop]; exact List.mem_cons_self)
  have hmem' : first ∈ leader := by
    rw [hsplit]
    simp
  obtain ⟨v, newMap, heq, h1, h2, h3, h4, h5, h6⟩ := aligned_exact (d := d) hown hlead hsplit hj
  rw [heq]
  refine ⟨h1, ?_, ?_, ?_, hown.sublist h4.sublist, h4, h5, fun _ => by rw [hw]; exact h6⟩
  · rw [clampBase_of_mem hown hmem]
    exact h2
  · rw [clampBase_of_mem hown hmem]
    exact h3
  · intro hlm _ p hp
    rcases lt_or_ge p first.2 with hlt | hge
    · exact hlm first hmem hmem' p hlt
    · exact h2 p hge hp

theorem exact_of_unaligned (hown : own.Strict) (hlead : leader.Strict)
    (hw : leader.wireTail = first :: window) (hnot : first ∉ own) (hd : first.2 ≤ d) :
    Exact own leader d first
      ⟨clampBase own first, own.filter fun e => e.2 < clampBase own first⟩ := by
  obtain ⟨hidden, hsplit⟩ := leader.exists_wireTail
  rw [hw] at hsplit
  refine ⟨(clampBase_le own first).trans hd, ?_, ?_, fun _ h => absurd h hnot, ?_, ?_, ?_, ?_⟩
  · intro p h1 h2
    exact absurd h1 (not_le.mpr h2)
  · intro _
    exact ⟨le_rfl, attr_clampBase_ne hown hlead hsplit hnot⟩
  · exact hown.sublist List.filter_sublist
  · exact ⟨_, (Timeline.filter_lt_append hown.wf.bases _).symm⟩
  · intro p hp
    exact Timeline.valueAt_filter_lt hown.wf.bases hp
  · intro h
    rw [hw, reconcile_of_not_mem fun hx => hnot (List.mem_filter.mp hx).1]
    exact reconcileUnaligned_again hown (h.resolve_left hnot)

/-- **Reconciliation through the wire window**, for maps whose entries each
    cover some byte and a follower whose durable bytes are attributed. -/
theorem reconcile_exact {own leader window : TermMap} {first : ℕ × ℕ} {d : ℕ} (hown : own.Strict)
    (hlead : leader.Strict) (hw : leader.wireTail = first :: window) (hd : own = [] → d = 0) :
    (∀ o, reconcile own d leader.wireTail = .ok o → Exact own leader d first o) ∧
    (reconcile own d leader.wireTail = .noCommonPrefix ↔
      own ≠ [] ∧ first ∉ own ∧ d < first.2) ∧
    ((∀ p < d, own.attr p = leader.attr p) → first ∈ own ∨ first.2 ≤ d →
      ∃ newMap, reconcile own d leader.wireTail = .ok ⟨d, newMap⟩) := by
  have hok : ∀ o, reconcile own d leader.wireTail = .ok o → Exact own leader d first o := by
    intro o ho
    by_cases hmem : first ∈ own
    · obtain ⟨j, hj, hrec⟩ := reconcile_of_mem hmem d window
      rw [hw, hrec] at ho
      cases ho
      exact exact_of_aligned hown hlead hw hj
    · rw [hw, reconcile_of_not_mem hmem] at ho
      by_cases hne : own = []
      · obtain rfl := hd hne
        subst hne
        cases ho
        refine ⟨le_rfl, by simp, by simp, by simp, hown, List.prefix_rfl, by simp, ?_⟩
        intro _
        rw [hw, reconcile_of_not_mem hmem]
        simp [reconcileUnaligned]
      · by_cases hle : first.2 ≤ d
        · rw [reconcileUnaligned_eq hne hle] at ho
          cases ho
          exact exact_of_unaligned hown hlead hw hmem hle
        · simp [reconcileUnaligned, hne, not_le.mp hle] at ho
  have hno : reconcile own d leader.wireTail = .noCommonPrefix ↔
      own ≠ [] ∧ first ∉ own ∧ d < first.2 := by
    by_cases hmem : first ∈ own
    · obtain ⟨j, hj, hrec⟩ := reconcile_of_mem hmem d window
      rw [hw, hrec]
      simp [hmem]
    · rw [hw, reconcile_of_not_mem hmem]
      by_cases hne : own = []
      · simp [reconcileUnaligned, hne]
      · by_cases hle : first.2 ≤ d
        · rw [reconcileUnaligned_eq hne hle]
          simp [not_lt.mpr hle]
        · simp [reconcileUnaligned, hne, hmem, not_le.mp hle]
  refine ⟨hok, hno, ?_⟩
  intro hagree hwin
  cases hrec : reconcile own d leader.wireTail with
  | noCommonPrefix =>
    obtain ⟨-, hnot, hlt⟩ := hno.mp hrec
    rcases hwin with h | h
    · exact absurd h hnot
    · exact absurd hlt (not_lt.mpr h)
  | ok o =>
    have hex := hok o hrec
    have hfull : o.validUpTo = d := by
      rcases hex.le.eq_or_lt with h | h
      · exact h
      · exact absurd (hagree _ h) (hex.differ h).2
    exact ⟨o.newMap, by rw [← hfull]⟩

/-- A follower at 50 of a leader at 100: one term more, nothing to cut. -/
theorem reconcile_exact_lagging :
    ∃ newMap, reconcile [(1, 0), (2, 20)] 50 (wireTail [(1, 0), (2, 20), (4, 60)]) =
      .ok ⟨50, newMap⟩ := by
  have hown : TermMap.Strict [(1, 0), (2, 20)] := ⟨by decide, by decide⟩
  have hlead : TermMap.Strict [(1, 0), (2, 20), (4, 60)] := ⟨by decide, by decide⟩
  exact (reconcile_exact hown hlead rfl (by simp)).2.2 (by decide) (.inl (by decide))

/-- A leader's map of 66 terms, 20 bytes each. -/
def longMap : TermMap := (List.range 66).map fun i => (i + 1, 20 * i)

/-- A follower that holds the first 10 bytes of such a leader's log is asked to
    wipe them: the window begins at 40. -/
theorem lagging_follower_not_kept :
    ¬ ∀ (own leader : TermMap) (d : ℕ), own.WF → leader.WF → LogMatching own leader →
      (∀ p < d, own.attr p = leader.attr p) →
      ∃ newMap, reconcile own d leader.wireTail = .ok ⟨d, newMap⟩ := by
  intro h
  have hwf : longMap.WF :=
    ⟨List.pairwise_map.mpr (List.pairwise_lt_range.imp fun h => by dsimp only; omega),
      List.pairwise_map.mpr (List.pairwise_lt_range.imp fun h => by dsimp only; omega)⟩
  obtain ⟨newMap, hrec⟩ := h [(1, 0)] longMap 10 ⟨by decide, by decide⟩ hwf
    (by intro e he _ p hp; simp at he; subst he; simp at hp) (by decide)
  have hno : reconcile [(1, 0)] 10 longMap.wireTail = .noCommonPrefix := by decide
  rw [hno] at hrec
  cases hrec

/-- A zero-length entry is a divergence to the walk, not to the attribution. -/
example : reconcile [(1, 0), (3, 50)] 100 [(1, 0), (2, 50), (3, 50)] = .ok ⟨50, [(1, 0)]⟩ := by
  decide

end UltimaCluster
