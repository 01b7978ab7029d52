/-
  The chains of the backup tier (`uc_node/src/tier/chain.rs`, `uc_node/src/tier/retention.rs`):
  how far the chunks reach from a set, which chunks a read takes, and what retention
  leaves of both.
-/
import Mathlib.Algebra.GroupWithZero.Nat
import Mathlib.Algebra.Order.BigOperators.Group.List
import Mathlib.Algebra.Order.Group.Nat
import Mathlib.Data.List.MinMax

namespace UltimaCluster

namespace Tier

open List (mem_cons_self mem_filter mem_map mem_map_of_mem mem_of_mem_filter)

/-- The bytes from a position up to another. -/
abbrev Chunk := ℕ × ℕ

/-- Which set, and of when. -/
structure SetLabel where
  position : ℕ
  timeNs : ℕ

/-- What a tier holds. -/
structure TierListing where
  sets : List SetLabel
  chunks : List Chunk

/-- `max_by_key` keeps the last of several. -/
def step (chunks : List Chunk) (c : ℕ) : Option Chunk :=
  (chunks.filter fun ch => ch.1 ≤ c ∧ c < ch.2).reverse.argmax Prod.snd

/-- Some chunk holds the byte. -/
def Covered (chunks : List Chunk) (p : ℕ) : Prop := ∃ ch ∈ chunks, ch.1 ≤ p ∧ p < ch.2

variable {chunks : List Chunk} {c p r : ℕ} {ch : Chunk}

theorem step_spec (h : step chunks c = some ch) :
    ch ∈ chunks ∧ ch.1 ≤ c ∧ c < ch.2 ∧ ∀ x ∈ chunks, x.1 ≤ c → c < x.2 → x.2 ≤ ch.2 := by
  have hmem := List.argmax_mem h
  rw [List.mem_reverse, mem_filter, decide_eq_true_eq] at hmem
  refine ⟨hmem.1, hmem.2.1, hmem.2.2, ?_⟩
  intro x hx hle hlt
  exact List.le_of_mem_argmax (by simp [hx, hle, hlt]) h

theorem step_none (h : step chunks c = none) : ¬ Covered chunks c := by
  rintro ⟨x, hx, hle, hlt⟩
  have hnil := List.argmax_eq_none.mp h
  rw [List.reverse_eq_nil_iff, List.filter_eq_nil_iff] at hnil
  exact hnil x hx (by simp [hle, hlt])

theorem step_ahead (h : step chunks c = some ch) :
    (chunks.map Prod.snd).sum - ch.2 < (chunks.map Prod.snd).sum - c := by
  obtain ⟨hmem, -, hlt, -⟩ := step_spec h
  have := List.le_sum_of_mem (mem_map_of_mem (f := Prod.snd) hmem)
  omega

/-- How far the chunks join up. -/
def reachFrom (chunks : List Chunk) (c : ℕ) : ℕ :=
  match _h : step chunks c with
  | some ch => reachFrom chunks ch.2
  | none => c
termination_by (chunks.map Prod.snd).sum - c
decreasing_by exact step_ahead _h

def gapAt (start stop c : ℕ) : String :=
  s!"tier chain has a gap at position {c} (wanted [{start}, {stop}))"

/-- `plan_chain`, from its cursor on. -/
def planLoop (chunks : List Chunk) (start stop c : ℕ) : Except String (List Chunk) :=
  if c < stop then
    match _h : step chunks c with
    | some ch => (ch :: ·) <$> planLoop chunks start stop ch.2
    | none => .error (gapAt start stop c)
  else .ok []
termination_by (chunks.map Prod.snd).sum - c
decreasing_by exact step_ahead _h

/-- The chunks of a read. -/
def planChain (chunks : List Chunk) (start stop : ℕ) : Except String (List Chunk) :=
  planLoop chunks start stop start

def reaches (l : TierListing) : List (ℕ × ℕ) :=
  l.sets.map fun s => (s.position, reachFrom l.chunks s.position)

/-- What the tier reports. -/
def watermarkOf (l : TierListing) : Option (ℕ × ℕ × ℕ) := do
  let through ← ((reaches l).map Prod.snd).max?
  let oldest ← (reaches l).find? (·.2 = through)
  let newest ← (((reaches l).map Prod.fst).filter (· ≤ through)).max?
  some (oldest.1, newest, through)

/-! ## Reach -/

theorem reachFrom_some (h : step chunks c = some ch) : reachFrom chunks c = reachFrom chunks ch.2 := by
  rw [reachFrom]
  split <;> simp_all

theorem reachFrom_none (h : step chunks c = none) : reachFrom chunks c = c := by
  rw [reachFrom]
  split <;> simp_all

/-- The first position, from `c` on, that no chunk holds. -/
def FirstGap (chunks : List Chunk) (c r : ℕ) : Prop :=
  c ≤ r ∧ (∀ p, c ≤ p → p < r → Covered chunks p) ∧ ¬ Covered chunks r

theorem reachFrom_firstGap (chunks : List Chunk) (c : ℕ) : FirstGap chunks c (reachFrom chunks c) := by
  fun_induction reachFrom chunks c with
  | case1 c ch h ih =>
    obtain ⟨hmem, hle, hlt, -⟩ := step_spec h
    refine ⟨hlt.le.trans ih.1, fun p hp hpr => ?_, ih.2.2⟩
    by_cases hin : p < ch.2
    · exact ⟨ch, hmem, hle.trans hp, hin⟩
    · exact ih.2.1 p (Nat.le_of_not_lt hin) hpr
  | case2 c h => exact ⟨le_rfl, fun p hp hpc => absurd hp (Nat.not_le_of_lt hpc), step_none h⟩

theorem FirstGap.eq {r' : ℕ} (h : FirstGap chunks c r) (h' : FirstGap chunks c r') : r = r' := by
  rcases lt_trichotomy r r' with hlt | heq | hlt
  · exact absurd (h'.2.1 r h.1 hlt) h.2.2
  · exact heq
  · exact absurd (h.2.1 r' h'.1 hlt) h'.2.2

theorem reachFrom_eq_of_le (hle : c ≤ p) (hp : p ≤ reachFrom chunks c) :
    reachFrom chunks p = reachFrom chunks c := by
  obtain ⟨-, hcov, hgap⟩ := reachFrom_firstGap chunks c
  exact (reachFrom_firstGap chunks p).eq ⟨hp, fun q hq => hcov q (hle.trans hq), hgap⟩

theorem reachFrom_mono (hle : c ≤ p) : reachFrom chunks c ≤ reachFrom chunks p := by
  by_cases hp : p ≤ reachFrom chunks c
  · exact (reachFrom_eq_of_le hle hp).ge
  · exact (Nat.le_of_not_le hp).trans (reachFrom_firstGap chunks p).1

/-! ## Plans -/

variable {start stop : ℕ} {plan : List Chunk}

/-- Each chunk is the step from the end of the one before. -/
def Follows (chunks : List Chunk) : ℕ → List Chunk → Prop
  | _, [] => True
  | c, ch :: rest => step chunks c = some ch ∧ Follows chunks ch.2 rest

theorem planLoop_cases (chunks : List Chunk) (start stop c : ℕ) :
    (stop ≤ reachFrom chunks c ∧ ∃ plan, planLoop chunks start stop c = .ok plan ∧ Follows chunks c plan ∧
        ∀ p, c ≤ p → p < stop → Covered plan p) ∨
      reachFrom chunks c < stop ∧
        planLoop chunks start stop c = .error (gapAt start stop (reachFrom chunks c)) := by
  fun_induction planLoop chunks start stop c with
  | case1 c hlt ch h ih =>
    rw [reachFrom_some h]
    obtain ⟨hreach, plan, hplan, hfol, hcov⟩ | ⟨hreach, hplan⟩ := ih
    · refine .inl ⟨hreach, ch :: plan, by rw [hplan]; rfl, ⟨h, hfol⟩, fun p hp hstop => ?_⟩
      obtain ⟨-, hle, -, -⟩ := step_spec h
      by_cases hin : p < ch.2
      · exact ⟨ch, mem_cons_self, hle.trans hp, hin⟩
      · obtain ⟨x, hx, hxp⟩ := hcov p (Nat.le_of_not_lt hin) hstop
        exact ⟨x, List.mem_cons_of_mem _ hx, hxp⟩
    · exact .inr ⟨hreach, by rw [hplan]; rfl⟩
  | case2 c hlt h =>
    rw [reachFrom_none h]
    exact .inr ⟨hlt, rfl⟩
  | case3 c hge =>
    have hle := Nat.le_of_not_lt hge
    refine .inl ⟨hle.trans (reachFrom_firstGap chunks c).1, [], rfl, trivial, fun p hp hstop => ?_⟩
    omega

theorem Follows.lt (h : Follows chunks c plan) : ∀ z ∈ plan, z ∈ chunks ∧ c < z.2 := by
  induction plan generalizing c with
  | nil => simp
  | cons x plan ih =>
    obtain ⟨hx, hrest⟩ := h
    obtain ⟨hmem, -, hlt, -⟩ := step_spec hx
    refine List.forall_mem_cons.mpr ⟨⟨hmem, hlt⟩, fun z hz => ?_⟩
    exact ⟨(ih hrest z hz).1, hlt.trans (ih hrest z hz).2⟩

/-- What follows a step begins above its cursor: the step took the longest chunk. -/
theorem Follows.above (h : Follows chunks c (ch :: plan)) : ∀ z ∈ plan, c < z.1 := by
  obtain ⟨hstep, hrest⟩ := h
  obtain ⟨-, -, hlt, hmax⟩ := step_spec hstep
  intro z hz
  obtain ⟨hmem, hz⟩ := hrest.lt z hz
  by_contra hle
  exact absurd (hmax z hmem (Nat.le_of_not_lt hle) (hlt.trans hz)) (Nat.not_le_of_lt hz)

theorem Follows.apart {x y : Chunk} {pre post : List Chunk} (h : Follows chunks c (pre ++ x :: y :: post)) :
    ∀ z ∈ post, x.2 < z.1 := by
  induction pre generalizing c with
  | nil => exact h.2.above
  | cons w pre ih => exact ih h.2

/-- A range of the log has a plan exactly when it ends at or below the first byte, from its
    start on, that no chunk holds, and else the answer names that byte.  The plan holds
    every byte, and only chunks that are next to each other overlap. -/
theorem plan_exact (chunks : List Chunk) (start stop : ℕ) :
    FirstGap chunks start (reachFrom chunks start) ∧
      (reachFrom chunks start < stop →
        planChain chunks start stop = .error (gapAt start stop (reachFrom chunks start))) ∧
      (stop ≤ reachFrom chunks start → ∃ plan, planChain chunks start stop = .ok plan ∧
        (∀ ch ∈ plan, ch ∈ chunks) ∧ (∀ p, start ≤ p → p < stop → Covered plan p) ∧
        ∀ pre x y post, plan = pre ++ x :: y :: post → ∀ z ∈ post, x.2 < z.1) := by
  refine ⟨reachFrom_firstGap chunks start, ?_⟩
  obtain ⟨hreach, plan, hplan, hfol, hcov⟩ | ⟨hreach, herr⟩ := planLoop_cases chunks start stop start
  · refine ⟨fun hlt => absurd hreach (Nat.not_le_of_lt hlt), fun _ => ⟨plan, hplan, ?_, hcov, ?_⟩⟩
    · exact fun ch hch => (hfol.lt ch hch).1
    · rintro pre x y post rfl
      exact hfol.apart
  · exact ⟨fun _ => herr, fun hle => absurd hreach (Nat.not_lt_of_le hle)⟩

/-! ## The watermark -/

variable {l : TierListing} {s : SetLabel}

theorem mem_reaches {e : ℕ × ℕ} :
    e ∈ reaches l ↔ ∃ x ∈ l.sets, (x.position, reachFrom l.chunks x.position) = e := mem_map

theorem watermarkOf_eq (hs : s ∈ l.sets) (hmax : ∀ x ∈ l.sets, x.position ≤ s.position) :
    ∃ oldest ∈ l.sets, reachFrom l.chunks oldest.position = reachFrom l.chunks s.position ∧
      watermarkOf l = some (oldest.position, s.position, reachFrom l.chunks s.position) := by
  have hin := mem_reaches.mpr ⟨s, hs, rfl⟩
  have hthrough : ((reaches l).map Prod.snd).max? = some (reachFrom l.chunks s.position) := by
    refine List.max?_eq_some_iff.mpr ⟨mem_map_of_mem hin, fun r hr => ?_⟩
    obtain ⟨e, he, rfl⟩ := mem_map.mp hr
    obtain ⟨x, hx, rfl⟩ := mem_reaches.mp he
    exact reachFrom_mono (hmax x hx)
  have hnewest : (((reaches l).map Prod.fst).filter (· ≤ reachFrom l.chunks s.position)).max? =
      some s.position := by
    refine List.max?_eq_some_iff.mpr ⟨?_, fun q hq => ?_⟩
    · exact mem_filter.mpr
        ⟨mem_map_of_mem hin, decide_eq_true (reachFrom_firstGap _ s.position).1⟩
    · obtain ⟨e, he, rfl⟩ := mem_map.mp (mem_of_mem_filter hq)
      obtain ⟨x, hx, rfl⟩ := mem_reaches.mp he
      exact hmax x hx
  have hfind : ((reaches l).find? (·.2 = reachFrom l.chunks s.position)).isSome :=
    List.find?_isSome.mpr ⟨_, hin, by simp⟩
  obtain ⟨e, he⟩ := Option.isSome_iff_exists.mp hfind
  obtain ⟨x, hx, rfl⟩ := mem_reaches.mp (List.mem_of_find?_eq_some he)
  refine ⟨x, hx, by simpa using List.find?_some he, ?_⟩
  simp only [watermarkOf, hthrough, Option.bind_eq_bind, Option.bind_some, he, hnewest]

/-! ## Retention -/

/-- How much a tier keeps. -/
structure RetentionPolicy where
  keepSets : ℕ
  keepAgeSecs : ℕ

def RetentionPolicy.keepsAll (p : RetentionPolicy) : Bool := p.keepSets == 0 && p.keepAgeSecs == 0

/-- What an incomplete pin protects. -/
structure Protection where
  sets : List ℕ
  spans : List Chunk

/-- The sets beyond both limits that nothing protects. -/
def deletableSets (sets : List SetLabel) (p : RetentionPolicy) (prot : Protection) : List ℕ :=
  let sorted := sets.mergeSort fun a b => a.position ≤ b.position
  let n := sorted.length
  let maxAgeNs := min (p.keepAgeSecs * 1000000000) (2 ^ 64 - 1)
  match sorted.getLast? with
  | none => []
  | some newest =>
    if p.keepsAll then []
    else
      (sorted.dropLast.zipIdx.filter fun e =>
        let outsideCount := p.keepSets == 0 || e.2 < n - p.keepSets
        let outsideAge := p.keepAgeSecs == 0 || maxAgeNs < newest.timeNs - e.1.timeNs
        outsideCount && outsideAge && !prot.sets.contains e.1.position).map (·.1.position)

/-- Chunks below what is kept. -/
def deletableChunks (chunks : List Chunk) (oldestKept : ℕ) (prot : Protection) : List Chunk :=
  chunks.filter fun ch => ch.2 ≤ oldestKept && !prot.spans.any fun sp => ch.1 < sp.2 && sp.1 < ch.2

/-- `plan_verified`; `plan` is the case that every set counts. -/
def planVerified (l : TierListing) (verified : ℕ → Bool) (p : RetentionPolicy) (prot : Protection) :
    List ℕ × List Chunk :=
  if p.keepsAll then ([], [])
  else
    let del := deletableSets (l.sets.filter fun s => verified s.position) p prot
    match ((l.sets.map (·.position)).filter fun q => !del.contains q).min? with
    | some oldest => (del, deletableChunks l.chunks oldest prot)
    | none => (del, [])

/-- The tier after the first `k` deletions of a pass: sets, then chunks. -/
def applyCounted (l : TierListing) (sets : List ℕ) (chunks : List Chunk) (k : ℕ) : TierListing :=
  ⟨l.sets.filter (·.position ∉ sets.take k), l.chunks.filter (· ∉ chunks.take (k - sets.length))⟩

variable {sets : List SetLabel} {policy : RetentionPolicy} {prot : Protection} {verified : ℕ → Bool}

theorem mem_deletableSets {q : ℕ} (hnodup : (sets.map (·.position)).Nodup)
    (hq : q ∈ deletableSets sets policy prot) : q ∉ prot.sets ∧ ∃ s ∈ sets, q < s.position := by
  have hperm := List.mergeSort_perm sets fun a b => a.position ≤ b.position
  have hsorted := @List.pairwise_mergeSort _ (fun a b : SetLabel => a.position ≤ b.position)
    (by simpa using fun a b c => Nat.le_trans) (by simpa using fun a b => Nat.le_total _ _) sets
  have hne := (hperm.map _).nodup_iff.mpr hnodup
  unfold deletableSets at hq
  simp only at hq
  split at hq
  · simp at hq
  · rename_i newest hlast
    rw [← List.dropLast_append_getLast? newest hlast, List.pairwise_append] at hsorted
    rw [← List.dropLast_append_getLast? newest hlast, List.map_append, List.nodup_append] at hne
    split at hq
    · simp at hq
    · obtain ⟨⟨s, i⟩, hs, rfl⟩ := mem_map.mp hq
      obtain ⟨hs, hout⟩ := mem_filter.mp hs
      have hin := List.fst_mem_of_mem_zipIdx hs
      have hle := hsorted.2.2 s hin newest mem_cons_self
      have hlt := hne.2.2 _ (mem_map_of_mem hin) _ mem_cons_self
      refine ⟨?_, newest, hperm.subset (List.mem_of_getLast? hlast), ?_⟩
      · simp only [Bool.and_eq_true, Bool.not_eq_true', List.contains_eq_mem, decide_eq_false_iff_not] at hout
        exact hout.2
      · exact lt_of_le_of_ne (of_decide_eq_true hle) hlt

/-- A chunk that goes ends at or below every set that stays. -/
theorem mem_planVerified {ch : Chunk} (hch : ch ∈ (planVerified l verified policy prot).2) (hs : s ∈ l.sets)
    (hkept : s.position ∉ (planVerified l verified policy prot).1) : ch.2 ≤ s.position := by
  unfold planVerified at hch hkept
  simp only at hch hkept
  split at hch
  · simp at hch
  · rename_i hpolicy
    rw [if_neg hpolicy] at hkept
    split at hch
    · rename_i oldest hmin
      rw [hmin] at hkept
      simp only [deletableChunks, mem_filter, Bool.and_eq_true, decide_eq_true_eq] at hch
      refine hch.2.1.trans ((List.min?_eq_some_iff.mp hmin).2 _ ?_)
      exact mem_filter.mpr ⟨mem_map_of_mem hs, by simpa using hkept⟩
    · simp at hch

theorem reachFrom_congr {chunks' : List Chunk} (h : ∀ q, c ≤ q → (Covered chunks' q ↔ Covered chunks q)) :
    reachFrom chunks' c = reachFrom chunks c := by
  obtain ⟨hle, hcov, hgap⟩ := reachFrom_firstGap chunks c
  refine (reachFrom_firstGap chunks' c).eq ⟨hle, fun q hq hlt => (h q hq).mpr (hcov q hq hlt), ?_⟩
  exact fun hin => hgap ((h _ hle).mp hin)

/-- A pass takes no protected set and none without a newer one.  Stopped after any of its
    deletions, the sets that it keeps are there, every set still there reaches as far as
    before, and so does the tier. -/
theorem retention_keeps_reach (l : TierListing) (verified : ℕ → Bool) (policy : RetentionPolicy)
    (prot : Protection) (hnodup : (l.sets.map (·.position)).Nodup) (k : ℕ) :
    let gone := planVerified l verified policy prot
    let l' := applyCounted l gone.1 gone.2 k
    (∀ q ∈ gone.1, q ∉ prot.sets ∧ ∃ s ∈ l.sets, verified s.position ∧ q < s.position) ∧
      (∀ s ∈ l.sets, s.position ∉ gone.1 → s ∈ l'.sets) ∧
      (∀ s ∈ l'.sets, reachFrom l'.chunks s.position = reachFrom l.chunks s.position) ∧
      (watermarkOf l').map (·.2) = (watermarkOf l).map (·.2) := by
  intro gone l'
  have hgone : ∀ q ∈ gone.1, q ∉ prot.sets ∧ ∃ s ∈ l.sets, verified s.position ∧ q < s.position := by
    intro q hq
    have hdel : q ∈ deletableSets (l.sets.filter fun s => verified s.position) policy prot := by
      unfold gone planVerified at hq
      simp only at hq
      split at hq
      · simp at hq
      · split at hq <;> exact hq
    obtain ⟨hprot, s, hs, hlt⟩ := mem_deletableSets (hnodup.sublist (List.filter_sublist.map _)) hdel
    obtain ⟨hs, hver⟩ := mem_filter.mp hs
    exact ⟨hprot, s, hs, hver, hlt⟩
  have hkeep : ∀ s ∈ l.sets, s.position ∉ gone.1 → s ∈ l'.sets := fun s hs hnot =>
    mem_filter.mpr ⟨hs, decide_eq_true fun hin => hnot (List.mem_of_mem_take hin)⟩
  have hreach : ∀ s ∈ l'.sets, reachFrom l'.chunks s.position = reachFrom l.chunks s.position := by
    intro s hs
    obtain ⟨hs, hnot⟩ := mem_filter.mp hs
    refine reachFrom_congr fun q hq => ⟨?_, ?_⟩ <;> rintro ⟨ch, hch, hin⟩
    · exact ⟨ch, mem_of_mem_filter hch, hin⟩
    refine ⟨ch, mem_filter.mpr ⟨hch, decide_eq_true fun htake => ?_⟩, hin⟩
    -- chunks go when every set of the pass is gone
    by_cases hk : k ≤ gone.1.length
    · rw [Nat.sub_eq_zero_of_le hk] at htake
      simp at htake
    · rw [List.take_of_length_le (Nat.le_of_not_le hk)] at hnot
      have := mem_planVerified (List.mem_of_mem_take htake) hs (of_decide_eq_true hnot)
      omega
  refine ⟨hgone, hkeep, hreach, ?_⟩
  cases hmax : l.sets.argmax (·.position) with
  | none =>
    have hnil : l.sets = [] := List.argmax_eq_none.mp hmax
    simp [watermarkOf, reaches, l', applyCounted, hnil]
  | some s =>
    have hs := List.argmax_mem hmax
    have hle : ∀ x ∈ l.sets, x.position ≤ s.position := fun x hx => List.le_of_mem_argmax hx hmax
    have hs' : s ∈ l'.sets := hkeep s hs fun hin => by
      obtain ⟨-, x, hx, -, hlt⟩ := hgone _ hin
      exact absurd (hle x hx) (Nat.not_le_of_lt hlt)
    obtain ⟨o, -, -, heq⟩ := watermarkOf_eq hs hle
    obtain ⟨o', -, -, heq'⟩ := watermarkOf_eq hs' fun x hx => hle x (mem_of_mem_filter hx)
    rw [heq, heq', hreach s hs']
    rfl

/-- The older of two sets and its chunk go. -/
theorem retention_keeps_reach_newest :
    let l : TierListing := ⟨[⟨0, 5⟩, ⟨64, 9⟩], [(0, 64), (64, 128)]⟩
    let gone := planVerified l (fun _ => true) ⟨1, 0⟩ ⟨[], []⟩
    (watermarkOf (applyCounted l gone.1 gone.2 2)).map (·.2) = (watermarkOf l).map (·.2) := by
  intro l gone
  exact (retention_keeps_reach l _ _ _ (by decide) 2).2.2.2

end Tier

end UltimaCluster
