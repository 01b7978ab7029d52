/-
  What a producer of the ring of many producers does to the others and to the
  consumer: it stores into its own claim only.
-/
import UltimaCluster.MpscInv
import Mathlib.Data.List.Basic

namespace UltimaCluster

open Function (update update_of_ne update_self)
open List (append_nil getElem?_set mem_append mem_append_left mem_of_getElem?)
open MpscShape (bytesToTail entryAt free needed)

namespace MpscRing

variable {crc : Bytes → UInt32} {shape : MpscShape} {s s' : MpscRing} {stage stage' : ℕ → SlotStage}
  {p p' : MpscProducer} {c : PendingClaim} {i : ℕ}

theorem Producing.frame (h : Producing crc shape stage s p) (hclaims : s.claims ⊆ s'.claims)
    (hcons : s.consumerPosition ≤ s'.consumerPosition) (hskip : s.skipped ⊆ s'.skipped)
    (hpassed : ∀ pos, Passed stage s pos → Passed stage' s' pos)
    (hlive : ∀ c ∈ p.pc.claim?, c ∈ s.claims → s.consumerPosition ≤ c.pos →
      stage c.pos = p.pc.stage crc → s'.consumerPosition ≤ c.pos ∧ stage' c.pos = stage c.pos ∨
        p.pc.finished = true ∧ c.pos ∈ s'.skipped ∧ Passed stage' s' c.pos) :
    Producing crc shape stage' s' p where
  cached := h.cached.trans hcons
  own := h.own
  claim c hc := by
    obtain ⟨hmem, hstage⟩ := h.claim c hc
    refine ⟨hclaims hmem, ?_⟩
    rcases hstage with ⟨hle, heq⟩ | ⟨hfin, hskipped, hpass⟩
    · rcases hlive c hc hmem hle heq with ⟨hle', heq'⟩ | hmarked
      · exact .inl ⟨hle', heq'.trans heq⟩
      · exact .inr hmarked
    · exact .inr ⟨hfin, hskip hskipped, hpassed _ hpass⟩

/-- An answer that is not `Ok`. -/
def Refusal (s : MpscRing) (a : RingRecord × WriteAnswer) : Prop :=
  a.2.okPos = none ∧ ∀ pos, a.2 = .skipped pos → pos ∈ s.skipped

variable {r : RingRecord}

theorem mem_append_refusal {l extra : List (RingRecord × WriteAnswer)}
    (hextra : ∀ a ∈ extra, s.Refusal a) {pos : ℕ} :
    (r, .ok pos) ∈ l ++ extra ↔ (r, .ok pos) ∈ l := by
  rw [mem_append, or_iff_left]
  intro hmem
  have hnone := (hextra _ hmem).1
  cases hnone

theorem take?_congr (hcons : s'.consumerPosition = s.consumerPosition)
    (hans : ∀ r pos, pos < s.consumerPosition → ((r, .ok pos) ∈ s'.answers ↔ (r, .ok pos) ∈ s.answers)) :
    s'.take? c = s.take? c := by
  unfold take?
  rw [hcons]
  cases c.entry with
  | padding len => rfl
  | record r =>
    by_cases hlt : c.pos < s.consumerPosition
    · simp only [hlt, hans r c.pos hlt]
    · simp [hlt]

theorem taken_congr (hclaims : s'.claims = s.claims) (hcons : s'.consumerPosition = s.consumerPosition)
    (hans : ∀ r pos, pos < s.consumerPosition → ((r, .ok pos) ∈ s'.answers ↔ (r, .ok pos) ∈ s.answers)) :
    s'.taken = s.taken := by
  unfold taken
  rw [hclaims]
  exact List.filterMap_congr fun c _ => take?_congr hcons hans

theorem Unique.set {ps : List MpscProducer} (h : Unique ps) (hp : ps[i]? = some p)
    (hclaim : ∀ c ∈ p'.pc.claim?, c ∈ p.pc.claim?) : Unique (ps.set i p') := by
  have hold : ∀ (j : ℕ) (q : MpscProducer), (ps.set i p')[j]? = some q →
      ∃ q', ps[j]? = some q' ∧ ∀ c ∈ q.pc.claim?, c ∈ q'.pc.claim? := by
    intro j q hq
    rw [getElem?_set] at hq
    split_ifs at hq with hij hlt
    · subst hij
      cases hq
      exact ⟨p, hp, hclaim⟩
    · exact ⟨q, hq, fun c hc => hc⟩
  intro j k q q' hq hq' c hc d hd heq
  obtain ⟨r, hr, hcr⟩ := hold j q hq
  obtain ⟨r', hr', hdr⟩ := hold k q' hq'
  exact h j k r r' hr hr' c (hcr c hc) d (hdr d hd) heq

theorem Inv.local (h : Inv crc shape stage s) {ps : List MpscProducer}
    {extra : List (RingRecord × WriteAnswer)} (hextra : ∀ a ∈ extra, s.Refusal a)
    (hprod : ∀ q ∈ ps, Producing crc shape stage s q) (huniq : Unique ps)
    (honly : s.OnlyCommits → ∀ q ∈ ps, ∀ c ∈ q.pc.claim?, c.pos = s.consumerPosition →
      q.pc.finished = true) :
    Inv crc shape stage { s with producers := ps, answers := s.answers ++ extra } where
  layout := ⟨h.layout.ok, h.layout.below, h.layout.ordered, h.layout.next, h.layout.head,
    h.layout.room, h.layout.aligned⟩
  memory := ⟨h.memory.live, h.memory.blank⟩
  producing q hq := ⟨(hprod q hq).cached, (hprod q hq).own, (hprod q hq).claim⟩
  unique := huniq
  consuming := by
    have hcons := h.consuming
    cases hpc : s.consumer with
    | idle | load | empty => trivial
    | claimed word advance =>
      rw [hpc] at hcons
      exact hcons
    | frontier word advance | mark word advance =>
      rw [hpc] at hcons
      exact ⟨honly hcons.1, hcons.2⟩
    | read length out =>
      rw [hpc] at hcons
      exact hcons
    | release advance k got =>
      rw [hpc] at hcons
      obtain ⟨c, hc, hpos, hadv, hst, h4, hk, hzero, hsome, hnone⟩ := hcons
      refine ⟨c, hc, hpos, hadv, hst, h4, hk, hzero, fun r hr => ?_, fun hr r => ?_⟩
      · exact ⟨(hsome r hr).1, (mem_append_refusal hextra).mpr (hsome r hr).2⟩
      · exact fun hmem => hnone hr r ((mem_append_refusal hextra).mp hmem)
  leaving := h.leaving
  answered := {
    claimed := fun r pos hmem => h.answered.claimed r pos ((mem_append_refusal hextra).mp hmem)
    committed := fun c hc hle hst r hr =>
      (mem_append_refusal hextra).mpr (h.answered.committed c hc hle hst r hr)
    pending := fun c hc hle hst r hmem =>
      h.answered.pending c hc hle hst r ((mem_append_refusal hextra).mp hmem)
    nodup := by
      have hnil : extra.filterMap (fun a => a.2.okPos) = [] :=
        List.filterMap_eq_nil_iff.mpr fun a ha => (hextra a ha).1
      show ((s.answers ++ extra).filterMap fun a => a.2.okPos).Nodup
      rw [List.filterMap_append, hnil, append_nil]
      exact h.answered.nodup
    skipped := fun pos hpos =>
      ⟨fun r hmem => (h.answered.skipped pos hpos).1 r ((mem_append_refusal hextra).mp hmem),
        (h.answered.skipped pos hpos).2⟩
    refused := fun r pos hmem => by
      rcases List.mem_append.mp hmem with hmem | hmem
      · exact h.answered.refused r pos hmem
      · exact (hextra _ hmem).2 pos rfl
    delivered := by
      refine h.answered.delivered.trans (Eq.symm ?_)
      exact taken_congr rfl rfl fun r pos _ => mem_append_refusal hextra
    reads := h.answered.reads }

theorem Inv.set (h : Inv crc shape stage s) (hp : s.producers[i]? = some p)
    (extra : List (RingRecord × WriteAnswer)) (hextra : ∀ a ∈ extra, s.Refusal a)
    (hown : Producing crc shape stage s p')
    (hclaim : ∀ c ∈ p'.pc.claim?, c ∈ p.pc.claim? ∧ p.pc.finished = false) :
    Inv crc shape stage
      { s with producers := s.producers.set i p', answers := s.answers ++ extra } := by
  refine h.local hextra (fun q hq => ?_) (h.unique.set hp fun c hc => (hclaim c hc).1) ?_
  · rcases List.mem_or_eq_of_mem_set hq with hq | rfl
    · exact h.producing q hq
    · exact hown
  · intro honly q hq c hc hpos
    rcases List.mem_or_eq_of_mem_set hq with hq | rfl
    · exact honly q hq c hc hpos
    · obtain ⟨hold, hfin⟩ := hclaim c hc
      have := honly p (mem_of_getElem? hp) c hold hpos
      rw [hfin] at this
      cases this

theorem Inv.setProducer (h : Inv crc shape stage s) (hp : s.producers[i]? = some p)
    (hown : Producing crc shape stage s p')
    (hclaim : ∀ c ∈ p'.pc.claim?, c ∈ p.pc.claim? ∧ p.pc.finished = false) :
    Inv crc shape stage (s.setProducer i p') := by
  have hset := h.set hp [] (by simp) hown hclaim
  rwa [append_nil] at hset

theorem Inv.live (h : Inv crc shape stage s) (hp : s.producers[i]? = some p) (hc : c ∈ p.pc.claim?)
    (hfin : p.pc.finished = false) :
    c ∈ s.claims ∧ s.consumerPosition ≤ c.pos ∧ stage c.pos = p.pc.stage crc := by
  obtain ⟨hmem, ⟨hle, hst⟩ | ⟨hfin', -, -⟩⟩ := (h.producing p (mem_of_getElem? hp)).claim c hc
  · exact ⟨hmem, hle, hst⟩
  · rw [hfin] at hfin'
    cases hfin'

theorem stage_busy (pc : MpscWritePc) : (pc.stage crc).busy = true := by
  cases pc <;> rfl

theorem Inv.other (h : Inv crc shape stage s) (hp : s.producers[i]? = some p) (hc : c ∈ p.pc.claim?)
    {q : MpscProducer} (hq : q ∈ s.producers.set i p') :
    q = p' ∨ q ∈ s.producers ∧ ∀ d ∈ q.pc.claim?, d.pos ≠ c.pos := by
  obtain ⟨j, hj⟩ := List.mem_iff_getElem?.mp hq
  rw [getElem?_set] at hj
  split_ifs at hj with hij hlt
  · exact .inl (Option.some.inj hj).symm
  · refine .inr ⟨mem_of_getElem? hj, fun d hd heq => hij ?_⟩
    exact h.unique i j p q hp hj c hc d hd heq.symm

/-! ### A claim that is still with its producer changes its stage -/

section Update

variable {st : SlotStage} (hbusy : (stage c.pos).busy = true)

include hbusy

theorem ne_of_not_busy {pos : ℕ} (h : (stage pos).busy = false) : pos ≠ c.pos := by
  rintro rfl
  rw [hbusy] at h
  cases h

theorem Passed.update {pos : ℕ} (h : Passed stage s pos) :
    Passed (update stage c.pos st) s pos := by
  rcases h with hlt | ⟨heq, hlt, k, hk⟩
  · exact .inl hlt
  · refine .inr ⟨heq, hlt, k, ?_⟩
    rw [update_of_ne (ne_of_not_busy hbusy (by rw [hk]; rfl)), hk]

theorem Passed.ne {pos : ℕ} (h : Passed stage s pos) (hle : s.consumerPosition ≤ c.pos) :
    pos ≠ c.pos := by
  rcases h with hlt | ⟨-, -, k, hk⟩
  · omega
  · exact ne_of_not_busy hbusy (by rw [hk]; rfl)

theorem Consuming.update {pc : MpscReadPc} (h : Consuming crc shape stage s pc) (hl : Layout shape s)
    (hmem : c ∈ s.claims) (hle : s.consumerPosition ≤ c.pos) (hclaims : s'.claims = s.claims)
    (hcons : s'.consumerPosition = s.consumerPosition) (honly : s.OnlyCommits → s'.OnlyCommits)
    (hcells : ∀ x, ¬ c.Covers shape x → s'.cells x = s.cells x)
    (hans : ∀ r pos, pos ≠ c.pos → ((r, .ok pos) ∈ s'.answers ↔ (r, .ok pos) ∈ s.answers)) :
    Consuming crc shape (update stage c.pos st) s' pc := by
  cases pc with
  | idle | load | empty => trivial
  | claimed word advance =>
    obtain ⟨d, hd, hpos, hrest⟩ := h
    exact ⟨d, hclaims ▸ hd, hcons ▸ hpos, hrest⟩
  | frontier word advance | mark word advance =>
    obtain ⟨honly', d, hd, hpos, hrest⟩ := h
    exact ⟨honly honly', d, hclaims ▸ hd, hcons ▸ hpos, hrest⟩
  | read length out =>
    obtain ⟨d, hd, hpos, hstd, hrest⟩ := h
    refine ⟨d, hclaims ▸ hd, hcons ▸ hpos, ?_, hrest⟩
    rw [update_of_ne (ne_of_not_busy hbusy (by rw [hstd]; rfl)), hstd]
  | release advance k got =>
    obtain ⟨d, hd, hpos, hadv, hstd, h4, hk, hzero, hsome, hnone⟩ := h
    have hne : d.pos ≠ c.pos := ne_of_not_busy hbusy (by rw [hstd]; rfl)
    refine ⟨d, hclaims ▸ hd, hcons ▸ hpos, hadv, ?_, h4, hk, fun hkeq j hj => ?_, fun r hr => ?_,
      fun hr r => ?_⟩
    · rw [update_of_ne hne, hstd]
    · have h4d := (hl.ok d hd).four_le
      rw [hcells _ fun hcov => hl.not_covers hmem hd hle hpos.ge hne hcov ⟨by omega, by omega⟩]
      exact hzero hkeq j hj
    · exact ⟨(hsome r hr).1, (hans r _ hne).mpr (hsome r hr).2⟩
    · exact fun hmem' => hnone hr r ((hans r _ hne).mp hmem')

end Update

theorem Inv.store (h : Inv crc shape stage s) (hp : s.producers[i]? = some p)
    (hc : p.pc.claim? = some c) (hfin : p.pc.finished = false) (pc : MpscWritePc)
    (hc' : pc.claim? = some c) (hown : pc.Local crc shape p.cachedConsumerPos) {cells : ℕ → UInt8}
    (hcells : ∀ x, ¬ c.Covers shape x → cells x = s.cells x)
    (hholds : Holds crc shape
      { s with cells := cells, producers := s.producers.set i { p with pc := pc } } c (pc.stage crc)) :
    Inv crc shape (update stage c.pos (pc.stage crc))
      { s with cells := cells, producers := s.producers.set i { p with pc := pc } } := by
  obtain ⟨hmem, hle, hst⟩ := h.live hp hc hfin
  have hbusy : (stage c.pos).busy = true := hst ▸ stage_busy p.pc
  have hback : ∀ pos, (update stage c.pos (pc.stage crc) pos).busy = false →
      update stage c.pos (pc.stage crc) pos = stage pos := by
    intro pos hpos
    refine update_of_ne ?_ _ _
    rintro rfl
    rw [update_self, stage_busy] at hpos
    cases hpos
  exact {
    layout := ⟨h.layout.ok, h.layout.below, h.layout.ordered, h.layout.next, h.layout.head,
      h.layout.room, h.layout.aligned⟩
    memory := h.memory.write h.layout hmem hle rfl rfl rfl hcells hholds
    producing := fun q hq => by
      rcases h.other hp hc hq with rfl | ⟨hq, hne⟩
      · refine ⟨(h.producing p (mem_of_getElem? hp)).cached, hown, fun d hd => ?_⟩
        obtain rfl : c = d := Option.some.inj (hc'.symm.trans hd)
        exact ⟨hmem, .inl ⟨hle, update_self ..⟩⟩
      · refine (h.producing q hq).frame (fun _ hd => hd) le_rfl (fun _ hd => hd)
          (fun _ hpass => hpass.update hbusy) ?_
        intro d hd _ hled _
        exact .inl ⟨hled, update_of_ne (hne d hd) _ _⟩
    unique := h.unique.set hp fun d hd => hc.trans (hc'.symm.trans hd)
    consuming := by
      refine h.consuming.update hbusy h.layout hmem hle rfl rfl ?_ hcells fun _ _ _ => Iff.rfl
      intro honly q hq d hd hpos
      rcases h.other hp hc hq with rfl | ⟨hq, -⟩
      · have hfin' := honly p (mem_of_getElem? hp) d (hc.trans (hc'.symm.trans hd)) hpos
        rw [hfin] at hfin'
        cases hfin'
      · exact honly q hq d hd hpos
    leaving := fun d hd hled k hk =>
      h.leaving d hd hled k (hback d.pos (by rw [hk]; rfl) ▸ hk)
    answered := { h.answered with
      committed := fun d hd hled hstd =>
        h.answered.committed d hd hled (hback d.pos (by rw [hstd]; rfl) ▸ hstd)
      pending := fun d hd hled hstd r hr => by
        by_cases hpos : d.pos = c.pos
        · rw [hpos] at hr
          exact h.answered.pending c hmem hle hbusy r hr
        · rw [update_of_ne hpos] at hstd
          exact h.answered.pending d hd hled hstd r hr
      skipped := fun pos hpos =>
        ⟨(h.answered.skipped pos hpos).1, (h.answered.skipped pos hpos).2.update hbusy⟩
      reads := h.answered.reads } }

/-- The answer to the commit of a claim. -/
def commitAnswer (c : PendingClaim) : List (RingRecord × WriteAnswer) :=
  match c.entry with
  | .record r => [(r, .ok c.pos)]
  | .padding _ => []

theorem mem_commitAnswer {a : WriteAnswer} :
    (r, a) ∈ commitAnswer c ↔ c.entry = .record r ∧ a = .ok c.pos := by
  unfold commitAnswer
  cases c.entry with
  | record r' =>
    rw [List.mem_singleton, Prod.mk.injEq, RingEntry.record.injEq, eq_comm (a := r)]
  | padding len => simp

theorem Inv.commit (h : Inv crc shape stage s) (hp : s.producers[i]? = some p)
    (hc : p.pc.claim? = some c) (hmem : c ∈ s.claims) (hle : s.consumerPosition ≤ c.pos)
    (hst : stage c.pos = .written (c.entry.stored crc).length) (pc : MpscWritePc)
    (hc' : pc.claim? = none) (hown : pc.Local crc shape p.cachedConsumerPos) :
    Inv crc shape (update stage c.pos .committed) { s with
        cells := (s.storeWord (c.offset shape) (c.commitWord shape)).cells
        producers := s.producers.set i { p with pc := pc }
        answers := s.answers ++ commitAnswer c } := by
  have hbusy : (stage c.pos).busy = true := by rw [hst]; rfl
  have hok := h.layout.ok c hmem
  have hcells : ∀ x, ¬ c.Covers shape x →
      (s.storeWord (c.offset shape) (c.commitWord shape)).cells x = s.cells x := by
    intro x hx
    have h4 := hok.four_le
    refine s.storeWord_cells_of_outside ?_
    unfold PendingClaim.Covers at hx
    omega
  have hans : ∀ r pos, pos ≠ c.pos →
      ((r, .ok pos) ∈ s.answers ++ commitAnswer c ↔ (r, .ok pos) ∈ s.answers) := by
    intro r pos hne
    rw [mem_append, or_iff_left]
    intro hnew
    exact hne (WriteAnswer.ok.inj (mem_commitAnswer.mp hnew).2)
  have hno := h.answered.pending c hmem hle hbusy
  exact {
    layout := ⟨h.layout.ok, h.layout.below, h.layout.ordered, h.layout.next, h.layout.head,
      h.layout.room, h.layout.aligned⟩
    memory := by
      refine h.memory.write h.layout hmem hle rfl rfl rfl hcells ?_
      have hholds := h.memory.live c hmem hle
      rw [hst] at hholds
      exact hholds.commit
    producing := fun q hq => by
      rcases h.other hp hc hq with rfl | ⟨hq, hne⟩
      · refine ⟨(h.producing p (mem_of_getElem? hp)).cached, hown, fun d hd => ?_⟩
        cases hc'.symm.trans hd
      · refine (h.producing q hq).frame (fun _ hd => hd) le_rfl (fun _ hd => hd)
          (fun _ hpass => hpass.update hbusy) ?_
        intro d hd _ hled _
        exact .inl ⟨hled, update_of_ne (hne d hd) _ _⟩
    unique := h.unique.set hp fun d hd => by cases hc'.symm.trans hd
    consuming := by
      refine h.consuming.update hbusy h.layout hmem hle rfl rfl ?_ hcells hans
      intro honly q hq d hd hpos
      rcases h.other hp hc hq with rfl | ⟨hq, -⟩
      · cases hc'.symm.trans hd
      · exact honly q hq d hd hpos
    leaving := fun d hd hled k hk => by
      refine h.leaving d hd hled k ?_
      by_cases hpos : d.pos = c.pos
      · rw [hpos, update_self] at hk
        cases hk
      · rwa [update_of_ne hpos] at hk
    answered := {
      claimed := fun r pos hr => by
        rcases List.mem_append.mp hr with hr | hr
        · exact h.answered.claimed r pos hr
        · obtain ⟨hentry, hpos⟩ := mem_commitAnswer.mp hr
          rw [WriteAnswer.ok.inj hpos, ← hentry]
          exact hmem
      committed := fun d hd hled hstd r hr => by
        by_cases hpos : d.pos = c.pos
        · have heq : d = c := h.layout.pos_inj hd hmem hpos
          subst heq
          exact List.mem_append_right _ (mem_commitAnswer.mpr ⟨hr, rfl⟩)
        · rw [update_of_ne hpos] at hstd
          exact mem_append_left _ (h.answered.committed d hd hled hstd r hr)
      pending := fun d hd hled hstd r => by
        by_cases hpos : d.pos = c.pos
        · rw [hpos, update_self] at hstd
          cases hstd
        · rw [update_of_ne hpos] at hstd
          rw [hans r _ hpos]
          exact h.answered.pending d hd hled hstd r
      nodup := by
        show ((s.answers ++ commitAnswer c).filterMap fun a => a.2.okPos).Nodup
        rw [List.filterMap_append, List.nodup_append]
        refine ⟨h.answered.nodup, ?_, ?_⟩
        · unfold commitAnswer
          cases c.entry with
          | record r => exact List.pairwise_singleton _ c.pos
          | padding len => exact List.Pairwise.nil
        · rintro pos hpos pos' hpos' rfl
          obtain ⟨⟨r, a⟩, hr, hra⟩ := List.mem_filterMap.mp hpos
          obtain ⟨⟨r', a'⟩, hr', hra'⟩ := List.mem_filterMap.mp hpos'
          rw [(mem_commitAnswer.mp hr').2] at hra'
          cases hra'
          cases a <;> cases hra
          exact hno r hr
      skipped := fun pos hpos => by
        obtain ⟨hnever, hpass⟩ := h.answered.skipped pos hpos
        refine ⟨fun r => ?_, hpass.update hbusy⟩
        rw [hans r pos (hpass.ne hbusy hle)]
        exact hnever r
      refused := fun r pos hr => by
        rcases List.mem_append.mp hr with hr | hr
        · exact h.answered.refused r pos hr
        · cases (mem_commitAnswer.mp hr).2
      delivered := by
        refine h.answered.delivered.trans (Eq.symm ?_)
        exact taken_congr rfl rfl fun r pos hlt => hans r pos (by omega)
      reads := h.answered.reads } }

/-! ### Claims -/

theorem alignRecordSize_mono {m n : ℕ} (h : m ≤ n) : alignRecordSize m ≤ alignRecordSize n := by
  exact Nat.mul_le_mul_right _ (Nat.div_le_div_right (by omega))

theorem ok_entryAt (hr : Writes shape r) {pos : ℕ} (hpos : recordAlign ∣ pos) :
    (⟨pos, shape.entryAt pos r⟩ : PendingClaim).Ok shape := by
  obtain ⟨hextra, htype, hmax⟩ := hr
  have hcap := shape.capacity_pos
  have hword := shape.word
  have hspan : alignRecordSize r.total ≤ shape.maxRecord := by
    have hmono := alignRecordSize_mono hmax
    exact le_min hmono (hmono.trans shape.fits)
  have hlt := Nat.mod_lt pos hcap
  have hdvd : recordAlign ∣ shape.bytesToTail pos :=
    Nat.dvd_sub shape.align_dvd ((Nat.dvd_mod_iff shape.align_dvd).mpr hpos)
  have htail : 0 < shape.bytesToTail pos := by
    unfold bytesToTail
    omega
  have hmaxlt := shape.maxRecord_lt
  have htail_eq : pos % shape.capacity + shape.bytesToTail pos = shape.capacity := by
    unfold bytesToTail
    omega
  unfold entryAt
  split
  · refine ⟨⟨Nat.le_of_dvd htail hdvd, by omega, hdvd⟩, ?_, htail_eq.le, ?_⟩
    · show shape.bytesToTail pos ≤ shape.maxRecord
      omega
    · rintro len heq
      exact (RingEntry.padding.inj heq).symm
  · refine ⟨⟨hextra, by omega, htype⟩, hspan, ?_, ?_⟩
    · show pos % shape.capacity + alignRecordSize r.total ≤ shape.capacity
      omega
    · rintro len heq
      cases heq

theorem span_entryAt_le (pos : ℕ) (r : RingRecord) :
    (shape.entryAt pos r).span ≤ shape.needed pos r := by
  unfold entryAt needed
  split
  · exact Nat.le_add_right _ _
  · exact le_rfl

theorem room_of_free {pos cached : ℕ} (h : ¬ shape.free pos cached < shape.needed pos r) :
    pos + shape.needed pos r ≤ cached + shape.capacity := by
  have hneeded : 0 < shape.needed pos r := by
    have hle := le_alignRecordSize r.total
    have htotal : 0 < r.total := by
      unfold RingRecord.total recordHeaderLen
      omega
    unfold needed
    split <;> omega
  unfold free at h
  omega

theorem entryAt_cases (pos : ℕ) (r : RingRecord) :
    shape.entryAt pos r = .record r ∨ ∃ len, shape.entryAt pos r = .padding len := by
  unfold entryAt
  split
  · exact .inr ⟨_, rfl⟩
  · exact .inl rfl

/-- The compare-exchange of `claim_position` succeeds. -/
theorem Inv.claim (h : Inv crc shape stage s) (hp : s.producers[i]? = some p)
    (hpc : p.pc = .claim r s.claimPosition)
    (hc : c = ⟨s.claimPosition, shape.entryAt s.claimPosition r⟩) :
    Inv crc shape (update stage c.pos .bare) { s with
        producers := s.producers.set i { p with pc := .stamp r c }
        claimPosition := c.pos + c.entry.span
        claims := s.claims ++ [c] } := by
  have hprod := h.producing p (mem_of_getElem? hp)
  have hlocal := hprod.own
  rw [hpc] at hlocal
  obtain ⟨hr, hneeded⟩ := hlocal
  have hpos : c.pos = s.claimPosition := by rw [hc]
  have hok : c.Ok shape := hc ▸ ok_entryAt hr h.layout.aligned
  have hroom : c.pos + c.entry.span ≤ s.consumerPosition + shape.capacity := by
    have hspan := @span_entryAt_le shape s.claimPosition r
    have hcached := hprod.cached
    have hentry : c.entry = shape.entryAt s.claimPosition r := by rw [hc]
    rw [hpos, hentry]
    omega
  have hcons_le : s.consumerPosition ≤ s.claimPosition := by
    rcases h.layout.head with heq | ⟨d, hd, hdpos⟩
    · exact heq.le
    · have := h.layout.below d hd
      omega
  have hold : ∀ d ∈ s.claims, d.pos ≠ c.pos := by
    intro d hd
    have hb := h.layout.below d hd
    have h4 := (h.layout.ok d hd).four_le
    omega
  have hstage : ∀ d ∈ s.claims, update stage c.pos .bare d.pos = stage d.pos :=
    fun d hd => update_of_ne (hold d hd) _ _
  have hnew : c ∈ s.claims ++ [c] := List.mem_append_right _ (List.mem_singleton_self c)
  have hpassed : ∀ (s' : MpscRing), s'.consumerPosition = s.consumerPosition →
      s'.claimPosition = c.pos + c.entry.span → ∀ pos, Passed stage s pos →
      Passed (update stage c.pos .bare) s' pos := by
    rintro s' hcons hclaim pos (hlt | ⟨heq, hlt, k, hk⟩)
    · exact .inl (hcons ▸ hlt)
    · refine .inr ⟨hcons ▸ heq, by omega, k, ?_⟩
      rw [update_of_ne (by omega), hk]
  have hmem : ∀ d ∈ s.claims ++ [c], d ∈ s.claims ∨ d = c := by
    intro d hd
    rwa [mem_append, List.mem_singleton] at hd
  exact {
    layout := h.layout.claim hok hpos hroom rfl rfl rfl
    memory := h.memory.claim h.layout hok hpos hroom rfl rfl rfl rfl
    producing := fun q hq => by
      rcases List.mem_or_eq_of_mem_set hq with hq | rfl
      · refine (h.producing q hq).frame (List.subset_append_left _ _) le_rfl (fun _ hd => hd)
          (hpassed _ rfl rfl) ?_
        intro d _ hd hled _
        exact .inl ⟨hled, hstage d hd⟩
      · refine ⟨hprod.cached, ⟨hr, hc ▸ entryAt_cases _ r⟩, ?_⟩
        rintro d hd
        cases hd
        exact ⟨hnew, .inl ⟨hpos ▸ hcons_le, update_self ..⟩⟩
    unique := by
      -- the new position is above all claims
      have hold' : ∀ (j : ℕ) (q : MpscProducer),
          (s.producers.set i { p with pc := .stamp r c })[j]? = some q → ∀ d ∈ q.pc.claim?,
          d.pos = c.pos ∧ j = i ∨ d.pos ≠ c.pos ∧ s.producers[j]? = some q := by
        intro j q hq d hd
        rw [getElem?_set] at hq
        split_ifs at hq with hij hlt
        · cases hq
          cases hd
          exact .inl ⟨rfl, hij.symm⟩
        · exact .inr ⟨hold d ((h.producing q (mem_of_getElem? hq)).claim d hd).1, hq⟩
      intro j k q q' hq hq' d hd d' hd' heq
      rcases hold' j q hq d hd with ⟨hdpos, hj⟩ | ⟨hdpos, hq⟩ <;>
        rcases hold' k q' hq' d' hd' with ⟨hdpos', hk⟩ | ⟨hdpos', hq'⟩
      · omega
      · omega
      · omega
      · exact h.unique j k q q' hq hq' d hd d' hd' heq
    consuming := by
      have hcons := h.consuming
      have honly : ∀ d ∈ s.claims, d.pos = s.consumerPosition → s.OnlyCommits →
          ∀ q ∈ s.producers.set i { p with pc := .stamp r c }, ∀ e ∈ q.pc.claim?,
            e.pos = s.consumerPosition → q.pc.finished = true := by
        intro d hd hdpos honly q hq e he hepos
        rcases List.mem_or_eq_of_mem_set hq with hq | rfl
        · exact honly q hq e he hepos
        · cases he
          exact absurd (hdpos.trans hepos.symm) (hold d hd)
      cases hpc : s.consumer with
      | idle | load | empty => trivial
      | claimed word advance =>
        rw [hpc] at hcons
        obtain ⟨d, hd, hrest⟩ := hcons
        exact ⟨d, mem_append_left _ hd, hrest⟩
      | frontier word advance | mark word advance =>
        rw [hpc] at hcons
        obtain ⟨honly', d, hd, hdpos, hrest⟩ := hcons
        exact ⟨honly d hd hdpos honly', d, mem_append_left _ hd, hdpos, hrest⟩
      | read length out =>
        rw [hpc] at hcons
        obtain ⟨d, hd, hdpos, hstd, hrest⟩ := hcons
        exact ⟨d, mem_append_left _ hd, hdpos, (hstage d hd).trans hstd, hrest⟩
      | release advance k got =>
        rw [hpc] at hcons
        obtain ⟨d, hd, hdpos, hadv, hstd, hrest⟩ := hcons
        exact ⟨d, mem_append_left _ hd, hdpos, hadv, (hstage d hd).trans hstd, hrest⟩
    leaving := fun d hd hled k hk => by
      rcases hmem d hd with hd | rfl
      · exact h.leaving d hd hled k (hstage d hd ▸ hk)
      · rw [update_self] at hk
        cases hk
    answered := { h.answered with
      claimed := fun r' pos hr' => mem_append_left _ (h.answered.claimed r' pos hr')
      committed := fun d hd hled hstd r' hr' => by
        rcases hmem d hd with hd | rfl
        · exact h.answered.committed d hd hled (hstage d hd ▸ hstd) r' hr'
        · rw [update_self] at hstd
          cases hstd
      pending := fun d hd hled hstd r' hr' => by
        rcases hmem d hd with hd | rfl
        · exact h.answered.pending d hd hled (hstage d hd ▸ hstd) r' hr'
        · exact hold _ (h.answered.claimed r' _ hr') rfl
      skipped := fun pos hpos => by
        obtain ⟨hnever, hpass⟩ := h.answered.skipped pos hpos
        refine ⟨hnever, ?_⟩
        apply hpassed <;> first | rfl | exact hpass
      delivered := by
        refine h.answered.delivered.trans ?_
        unfold taken
        rw [List.filterMap_append]
        refine (append_nil _).symm.trans ?_
        congr 1
        refine (List.filterMap_eq_nil_iff.mpr fun d hd => ?_).symm
        rw [List.mem_singleton.mp hd]
        refine take?_of_le ?_
        show s.consumerPosition ≤ c.pos
        omega
      reads := h.answered.reads } }

/-! ### The accesses of a `try_write` -/

theorem Inv.set_unclaimed (h : Inv crc shape stage s) (hp : s.producers[i]? = some p)
    (extra : List (RingRecord × WriteAnswer)) (hextra : ∀ a ∈ extra, s.Refusal a)
    (hcached : p'.cachedConsumerPos ≤ s.consumerPosition)
    (hown : p'.pc.Local crc shape p'.cachedConsumerPos) (hnone : p'.pc.claim? = none) :
    Inv crc shape stage
      { s with producers := s.producers.set i p', answers := s.answers ++ extra } := by
  have hclaim : ∀ c, c ∉ p'.pc.claim? := by
    intro c hc
    rw [hnone] at hc
    cases hc
  exact h.set hp extra hextra ⟨hcached, hown, fun c hc => absurd hc (hclaim c)⟩
    fun c hc => absurd hc (hclaim c)

theorem Inv.setProducer_unclaimed (h : Inv crc shape stage s) (hp : s.producers[i]? = some p)
    (hcached : p'.cachedConsumerPos ≤ s.consumerPosition)
    (hown : p'.pc.Local crc shape p'.cachedConsumerPos) (hnone : p'.pc.claim? = none) :
    Inv crc shape stage (s.setProducer i p') := by
  have hset := h.set_unclaimed hp [] (by simp) hcached hown hnone
  rwa [append_nil] at hset

theorem Inv.setProducer_claimed (h : Inv crc shape stage s) (hp : s.producers[i]? = some p)
    (hc : p.pc.claim? = some c) (hfin : p.pc.finished = false) {pc : MpscWritePc}
    (hown : pc.Local crc shape p.cachedConsumerPos) (hc' : pc.claim? = some c)
    (hst : pc.stage crc = p.pc.stage crc) :
    Inv crc shape stage (s.setProducer i { p with pc := pc }) := by
  obtain ⟨hmem, hle, heq⟩ := h.live hp hc hfin
  refine h.setProducer hp ⟨?_, hown, fun d hd => ?_⟩ fun d hd => ⟨?_, hfin⟩
  · exact (h.producing p (mem_of_getElem? hp)).cached
  · obtain rfl : c = d := Option.some.inj (hc'.symm.trans hd)
    exact ⟨hmem, .inl ⟨hle, heq.trans hst.symm⟩⟩
  · exact hc.trans (hc'.symm.trans hd)

theorem covers_word {x : ℕ} (hok : c.Ok shape) (hx : ¬ c.Covers shape x) :
    x < c.offset shape ∨ c.offset shape + 4 ≤ x := by
  have h4 := hok.four_le
  unfold PendingClaim.Covers at hx
  omega

theorem Inv.storeByte (h : Inv crc shape stage s) (hp : s.producers[i]? = some p)
    (hc : p.pc.claim? = some c) (hfin : p.pc.finished = false) {k : ℕ} {b : UInt8}
    (hst : p.pc.stage crc = .written k) (hb : (c.entry.stored crc)[k]? = some b) (pc : MpscWritePc)
    (hown : pc.Local crc shape p.cachedConsumerPos) (hc' : pc.claim? = some c)
    (hst' : pc.stage crc = .written (k + 1)) {o : ℕ} (ho : o = c.offset shape + 4 + k) :
    ∃ stage', Inv crc shape stage' ((s.storeByte o b).setProducer i { p with pc := pc }) := by
  obtain ⟨hmem, hle, heq⟩ := h.live hp hc hfin
  have hok := h.layout.ok c hmem
  have hlen := c.entry.length_stored crc hok.entry
  have hk := lt_length_of_some hb
  have hholds := h.memory.live c hmem hle
  rw [heq, hst] at hholds
  subst ho
  refine ⟨_, h.store hp hc hfin pc hc' hown (fun x hx => s.storeByte_cells_ne b ?_) ?_⟩
  · rintro rfl
    exact hx ⟨by omega, by omega⟩
  · rw [hst']
    exact hholds.write hb

theorem stored_getElem?_fields (e : RingEntry) {k : ℕ} {b : UInt8} (h : e.fields[k]? = some b) :
    (e.stored crc)[k]? = some b := by
  cases e with
  | padding len => exact h
  | record r =>
    rw [RingEntry.stored_record]
    exact (List.getElem?_append_left (lt_length_of_some h)).trans h

theorem Inv.commit_cases (h : Inv crc shape stage s) (hp : s.producers[i]? = some p)
    (hpc : p.pc = .commit r c) :
    c ∈ s.claims ∧ (s.consumerPosition ≤ c.pos ∧ stage c.pos = .written (c.entry.stored crc).length ∧
        s.wordAt (c.offset shape) = c.claimWord shape ∨ c.entry = .record r ∧ c.pos ∈ s.skipped ∧
        (s.consumerPosition ≤ c.pos → s.wordAt (c.offset shape) ≠ c.claimWord shape)) := by
  have hprod := h.producing p (mem_of_getElem? hp)
  obtain ⟨hmem, hcase⟩ := hprod.claim c (by rw [hpc]; rfl)
  refine ⟨hmem, ?_⟩
  rcases hcase with ⟨hle, hst⟩ | ⟨hfin, hskip, hpass⟩
  · rw [hpc] at hst
    have hholds := h.memory.live c hmem hle
    rw [hst] at hholds
    exact .inl ⟨hle, hst, hholds.1⟩
  · have hown := hprod.own
    rw [hpc] at hown hfin
    refine .inr ⟨?_, hskip, fun hle => ?_⟩
    · rcases hown.2 with hrec | ⟨len, hpad⟩
      · exact hrec
      · obtain ⟨pos, entry⟩ := c
        cases hpad
        cases hfin
    · rcases hpass with hlt | ⟨-, -, k, hk⟩
      · omega
      · have hholds := h.memory.live c hmem hle
        rw [hk] at hholds
        exact hholds.1

theorem Inv.produce_commit (h : Inv crc shape stage s) (hp : s.producers[i]? = some p)
    (hpc : p.pc = .commit r c) {weak : Bool} (hgen : s.Genuine shape (.produce i weak)) :
    ∃ stage', Inv crc shape stage' (s.commit shape i p r c) := by
  have hprod := h.producing p (mem_of_getElem? hp)
  have hc : p.pc.claim? = some c := by rw [hpc]; rfl
  have hr : Writes shape r := by
    have hown := hprod.own
    rw [hpc] at hown
    exact hown.1
  obtain ⟨hmem, hcase⟩ := h.commit_cases hp hpc
  unfold MpscRing.commit
  cases hentry : c.entry with
  | padding len =>
    dsimp only
    rcases hcase with ⟨hle, hst, hword⟩ | ⟨hrec, -⟩
    · have hcommit := h.commit hp hc hmem hle hst (.load r) rfl hr
      have hans : commitAnswer c = [] := by
        unfold commitAnswer
        rw [hentry]
      rw [hans, append_nil] at hcommit
      have hword' : (s.setProducer i { p with pc := .load r }).wordAt (c.pos % shape.capacity) =
          c.claimWord shape := hword
      rw [if_pos hword']
      exact ⟨_, hcommit⟩
    · rw [hentry] at hrec
      cases hrec
  | record r' =>
    dsimp only
    rcases hcase with ⟨hle, hst, hword⟩ | ⟨hrec, hskip, hne⟩
    · have hcommit := h.commit hp hc hmem hle hst .idle rfl trivial
      have hown := hprod.own
      rw [hpc] at hown
      have hrr : r' = r := by
        rcases hown.2 with heq | ⟨len, heq⟩ <;> rw [hentry] at heq
        · exact RingEntry.record.inj heq
        · cases heq
      have hans : commitAnswer c = [(r, .ok c.pos)] := by
        unfold commitAnswer
        rw [hentry, hrr]
      rw [hans] at hcommit
      have hword' : s.wordAt (c.pos % shape.capacity) = c.claimWord shape := hword
      rw [if_pos hword']
      exact ⟨_, hcommit⟩
    · have hword : s.wordAt (c.pos % shape.capacity) ≠ c.claimWord shape := by
        intro hword
        have hfin : p.pc.finished = true := by
          obtain ⟨pos, entry⟩ := c
          cases hentry
          rw [hpc]
          rfl
        exact hne (hgen p hp c hc hfin hword) hword
      refine ⟨stage, ?_⟩
      rw [if_neg hword]
      refine h.set_unclaimed hp [(r, .skipped c.pos)] ?_ hprod.cached trivial rfl
      intro a ha
      rw [List.mem_singleton.mp ha]
      refine ⟨rfl, fun pos hpos => ?_⟩
      cases hpos
      exact hskip

theorem Inv.produce (h : Inv crc shape stage s) {weak : Bool}
    (hgen : s.Genuine shape (.produce i weak)) :
    ∃ stage', Inv crc shape stage' (s.produce crc shape i weak) := by
  dsimp only [MpscRing.produce]
  cases hp : s.producers[i]? with
  | none => exact ⟨stage, h⟩
  | some p =>
    have hprod := h.producing p (mem_of_getElem? hp)
    have hown := hprod.own
    have hcached := hprod.cached
    dsimp only
    cases hpc : p.pc with
    | idle => exact ⟨stage, h⟩
    | dead => exact ⟨stage, h⟩
    | load r =>
      rw [hpc] at hown
      refine ⟨stage, ?_⟩
      dsimp only
      split
      · exact h.setProducer_unclaimed hp hcached hown rfl
      · rename_i hfree
        exact h.setProducer_unclaimed hp hcached ⟨hown, room_of_free hfree⟩ rfl
    | reload r claimPos =>
      rw [hpc] at hown
      refine ⟨stage, ?_⟩
      dsimp only
      split
      · refine h.set_unclaimed hp [(r, .full)] ?_ le_rfl trivial rfl
        intro a ha
        rw [List.mem_singleton.mp ha]
        exact ⟨rfl, fun pos hpos => by cases hpos⟩
      · rename_i hfree
        exact h.setProducer_unclaimed hp le_rfl ⟨hown, room_of_free hfree⟩ rfl
    | claim r claimPos =>
      rw [hpc] at hown
      dsimp only
      split
      · exact ⟨stage, h.setProducer_unclaimed hp hcached hown.1 rfl⟩
      · rename_i hnot
        obtain ⟨-, heq⟩ := not_or.mp hnot
        obtain rfl : s.claimPosition = claimPos := not_not.mp heq
        exact ⟨_, h.claim hp hpc rfl⟩
    | stamp r c =>
      rw [hpc] at hown
      have hc : p.pc.claim? = some c := by rw [hpc]; rfl
      have hfin : p.pc.finished = false := by rw [hpc]; rfl
      have hok := h.layout.ok c (h.live hp hc hfin).1
      exact ⟨_, h.store hp hc hfin (.body r c 0) rfl ⟨hown.1, hown.2, Nat.zero_le _⟩
        (fun x hx => s.storeWord_cells_of_outside (covers_word hok hx)) (Holds.stamp s c)⟩
    | body r c k =>
      rw [hpc] at hown
      obtain ⟨hr, hentry, hk⟩ := hown
      have hc : p.pc.claim? = some c := by rw [hpc]; rfl
      have hfin : p.pc.finished = false := by rw [hpc]; rfl
      dsimp only
      split
      · rename_i b hb
        have hlt := lt_length_of_some hb
        exact h.storeByte hp hc hfin (by rw [hpc]; rfl) (stored_getElem?_fields _ hb)
          (.body r c (k + 1)) ⟨hr, hentry, hlt⟩ rfl rfl rfl
      · rename_i r' hnone hrec
        have hk' : k = c.entry.fields.length := le_antisymm hk (List.getElem?_eq_none_iff.mp hnone)
        have hentry' : c.entry = .record r := by
          rcases hentry with heq | ⟨len, heq⟩
          · exact heq
          · rw [hrec] at heq
            cases heq
        refine ⟨stage, h.setProducer_claimed hp hc hfin ⟨hentry', hr, 0, Nat.zero_le _, rfl⟩ rfl ?_⟩
        rw [hpc, hk']
        rfl
      · rename_i len hnone hpad
        have hk' : k = c.entry.fields.length := le_antisymm hk (List.getElem?_eq_none_iff.mp hnone)
        refine ⟨stage, h.setProducer_claimed hp hc hfin ⟨hr, hentry⟩ rfl ?_⟩
        rw [hpc, hk']
        show SlotStage.written _ = SlotStage.written _
        rw [hpad]
        rfl
    | crc r c again =>
      rw [hpc] at hown
      obtain ⟨hentry, hr, k, hk, rfl⟩ := hown
      have hc : p.pc.claim? = some c := by rw [hpc]; rfl
      have hfin : p.pc.finished = false := by rw [hpc]; rfl
      have hlen : (c.entry.fields.take k).length = k := by
        rw [List.length_take]
        omega
      dsimp only
      rw [hlen]
      split
      · rename_i hlt
        obtain ⟨hmem, hle, heq⟩ := h.live hp hc hfin
        have hholds := h.memory.live c hmem hle
        rw [heq, hpc] at hholds
        have hread := hholds.2 k hlt
        rw [stored_getElem?_fields _ (List.getElem?_eq_getElem hlt)] at hread
        refine ⟨stage, h.setProducer_claimed hp hc hfin ⟨hentry, hr, k + 1, hlt, ?_⟩ rfl (by rw [hpc]; rfl)⟩
        rw [List.take_add_one, List.getElem?_eq_getElem hlt, hread]
        rfl
      · rename_i hge
        have hk' : k = c.entry.fields.length := by omega
        refine ⟨stage, h.setProducer_claimed hp hc hfin ⟨hentry, hr, ?_, Nat.zero_le _⟩ rfl (by rw [hpc]; rfl)⟩
        rw [hk', List.take_length]
    | trailer r c sum k =>
      rw [hpc] at hown
      obtain ⟨hentry, hr, rfl, hk⟩ := hown
      have hc : p.pc.claim? = some c := by rw [hpc]; rfl
      have hfin : p.pc.finished = false := by rw [hpc]; rfl
      have hfields : c.entry.fields = r.body := by rw [hentry]; rfl
      have hstored : c.entry.stored crc = r.body ++ Bytes.le 4 (crc r.body).toNat := by rw [hentry]; rfl
      dsimp only
      split
      · rename_i b hb
        have hlt := lt_length_of_some hb
        rw [Bytes.length_le] at hlt
        rw [hfields] at hb
        refine h.storeByte hp hc hfin (k := c.entry.fields.length + k) (by rw [hpc]; rfl) ?_
          (.trailer r c _ (k + 1)) ⟨hentry, hr, rfl, hlt⟩ rfl rfl (by rw [PendingClaim.offset]; omega)
        rw [hstored, hfields, List.getElem?_append_right (by omega), Nat.add_sub_cancel_left, hb]
      · rename_i hnone
        have hk' : k = 4 := by
          have := List.getElem?_eq_none_iff.mp hnone
          rw [Bytes.length_le] at this
          omega
        refine ⟨stage, h.setProducer_claimed hp hc hfin ⟨hr, .inl hentry⟩ rfl ?_⟩
        rw [hpc]
        show SlotStage.written _ = SlotStage.written _
        rw [hstored, hfields, hk', List.length_append, Bytes.length_le]
    | commit r c => exact h.produce_commit hp hpc hgen

end MpscRing

end UltimaCluster
