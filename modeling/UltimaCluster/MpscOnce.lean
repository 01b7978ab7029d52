/-
  The consumer of the ring of many producers, and what both sides come to: every
  record that was committed is delivered, once and in the order of the claims.
-/
import UltimaCluster.MpscProducers
import UltimaCluster.Lib.Crc32

namespace UltimaCluster

open Function (update update_of_ne update_self)
open List (append_nil filterMap_append)

namespace MpscRing

variable {crc : Bytes → UInt32} {shape : MpscShape} {s s' : MpscRing} {stage stage' : ℕ → SlotStage}
  {p : MpscProducer} {c : PendingClaim} {i : ℕ}

/-! ## The consumer at its head -/

theorem Inv.turn (h : Inv crc shape stage s) (pc : MpscReadPc)
    (hcons : Consuming crc shape stage s pc) (hold : ∀ a k got, s.consumer ≠ .release a k got)
    (extra : List MpscRead) (hextra : ∀ a ∈ extra, a = .none ∨ a = .wedged) :
    Inv crc shape stage { s with consumer := pc, reads := s.reads ++ extra } where
  layout := ⟨h.layout.ok, h.layout.below, h.layout.ordered, h.layout.next, h.layout.head,
    h.layout.room, h.layout.aligned⟩
  memory := ⟨h.memory.live, h.memory.blank⟩
  producing q hq := ⟨(h.producing q hq).cached, (h.producing q hq).own, (h.producing q hq).claim⟩
  unique := h.unique
  consuming := by
    cases pc <;> exact hcons
  leaving c hc hle k hk := by
    obtain ⟨-, a, got, hpc⟩ := h.leaving c hc hle k hk
    exact absurd hpc (hold a k got)
  answered := { h.answered with
    delivered := by
      have hnil : extra.filterMap MpscRead.delivery = [] := by
        refine List.filterMap_eq_nil_iff.mpr fun a ha => ?_
        rcases hextra a ha with rfl | rfl <;> rfl
      refine Eq.trans ?_ h.answered.delivered
      show (s.reads ++ extra).filterMap _ = _
      rw [filterMap_append, hnil, append_nil]
      rfl
    reads := fun a ha => by
      rcases List.mem_append.mp ha with ha | ha
      · exact h.answered.reads a ha
      · rcases hextra a ha with rfl | rfl <;> simp }

theorem Inv.turn_to (h : Inv crc shape stage s) {pc : MpscReadPc}
    (hcons : Consuming crc shape stage s pc) (hold : ∀ a k got, s.consumer ≠ .release a k got) :
    Inv crc shape stage { s with consumer := pc } := by
  have hturn := h.turn pc hcons hold [] (by simp)
  rwa [append_nil] at hturn

theorem Inv.answerRead (h : Inv crc shape stage s) (hold : ∀ a k got, s.consumer ≠ .release a k got)
    {a : MpscRead} (ha : a = .none ∨ a = .wedged) : Inv crc shape stage (s.answerRead a) :=
  h.turn .idle trivial hold [a] fun _ hb => List.mem_singleton.mp hb ▸ ha

/-- The consumer is done with the claim at its head: it was marked, or it is on
    its way out already. -/
theorem Inv.retire (h : Inv crc shape stage s) (hc : c ∈ s.claims) (hpos : c.pos = s.consumerPosition)
    {k : ℕ} {cells : ℕ → UInt8} {skips : List ℕ} (got : Option RingRecord)
    (hskips : skips = [] ∧ (stage c.pos).busy = false ∨
      skips = [c.pos] ∧ (stage c.pos).busy = true ∧ s.OnlyCommits)
    (hcells : ∀ x, ¬ c.Covers shape x → cells x = s.cells x)
    (hholds : ∀ s' : MpscRing, s'.cells = cells → Holds crc shape s' c (.leaving k))
    (h4 : 4 ≤ k) (hk : k ≤ c.entry.span + 1)
    (hzero : k = c.entry.span + 1 → ∀ j < 4, cells (c.offset shape + j) = 0)
    (hsome : ∀ r, got = some r → c.entry = .record r ∧ (r, .ok c.pos) ∈ s.answers)
    (hnone : got = none → ∀ r, (r, .ok c.pos) ∉ s.answers) :
    Inv crc shape (update stage c.pos (.leaving k)) { s with
        cells := cells
        consumer := .release c.entry.span k got
        skipped := s.skipped ++ skips } := by
  have hbelow := h.layout.below c hc
  have hpassed : ∀ (s' : MpscRing) pos, s'.consumerPosition = s.consumerPosition →
      s'.claimPosition = s.claimPosition → Passed stage s pos →
      Passed (update stage c.pos (.leaving k)) s' pos := by
    rintro s' pos hcons hclaim (hlt | ⟨heq, hlt, -⟩)
    · exact .inl (hcons ▸ hlt)
    · refine .inr ⟨hcons ▸ heq, hclaim ▸ hlt, k, ?_⟩
      rw [heq, ← hpos, update_self]
  have hne : ∀ d ∈ s.claims, ∀ st, update stage c.pos (.leaving k) d.pos = st →
      st ≠ .leaving k → d.pos ≠ c.pos ∧ stage d.pos = st := by
    rintro d hd st hst hstk
    have hdc : d.pos ≠ c.pos := by
      intro heq
      rw [heq, update_self] at hst
      exact hstk hst.symm
    rw [update_of_ne hdc] at hst
    exact ⟨hdc, hst⟩
  exact {
    layout := ⟨h.layout.ok, h.layout.below, h.layout.ordered, h.layout.next, h.layout.head,
      h.layout.room, h.layout.aligned⟩
    memory := h.memory.write h.layout hc hpos.ge rfl rfl rfl hcells (hholds _ rfl)
    producing := fun q hq => by
      refine (h.producing q hq).frame (fun _ hd => hd) le_rfl (List.subset_append_left _ _)
        (fun pos hpass => hpassed _ pos rfl rfl hpass) ?_
      intro d hd hdc hled hst
      by_cases hdpos : d.pos = c.pos
      · rcases hskips with ⟨-, hidle⟩ | ⟨rfl, -, honly⟩
        · rw [← hdpos, hst, stage_busy] at hidle
          cases hidle
        · refine .inr ⟨honly q hq d hd (hdpos.trans hpos), ?_, ?_⟩
          · rw [hdpos]
            exact List.mem_concat_self
          · refine .inr ⟨hdpos.trans hpos, ?_, k, ?_⟩
            · show d.pos < s.claimPosition
              omega
            · rw [hdpos, update_self]
      · exact .inl ⟨hled, update_of_ne hdpos _ _⟩
    unique := h.unique
    consuming := ⟨c, hc, hpos, rfl, update_self .., h4, hk, hzero, hsome, hnone⟩
    leaving := fun d hd hled k' hk' => by
      by_cases hdpos : d.pos = c.pos
      · rw [hdpos, update_self] at hk'
        cases hk'
        exact ⟨hdpos.trans hpos, _, _, rfl⟩
      · rw [update_of_ne hdpos] at hk'
        exact absurd ((h.leaving d hd hled k' hk').1.trans hpos.symm) hdpos
    answered := { h.answered with
      committed := fun d hd hled hst =>
        h.answered.committed d hd hled (hne d hd _ hst (by simp)).2
      pending := fun d hd hled hst => by
        have hdc := hne d hd _ rfl (by intro heq; rw [heq] at hst; cases hst)
        exact h.answered.pending d hd hled (hdc.2 ▸ hst)
      skipped := fun pos hmem => by
        rcases List.mem_append.mp hmem with hmem | hmem
        · obtain ⟨hnever, hpass⟩ := h.answered.skipped pos hmem
          exact ⟨hnever, hpassed _ pos rfl rfl hpass⟩
        · rcases hskips with ⟨rfl, -⟩ | ⟨rfl, hbusy, -⟩
          · cases hmem
          · rw [List.mem_singleton.mp hmem]
            refine ⟨h.answered.pending c hc hpos.ge hbusy, .inr ⟨hpos, ?_, k, update_self ..⟩⟩
            show c.pos < s.claimPosition
            omega
      refused := fun r pos hr => List.mem_append_left _ (h.answered.refused r pos hr)
      reads := h.answered.reads } }

/-! ## Passing a claim -/

theorem Layout.taken_pass (hl : Layout shape s) (hc : c ∈ s.claims) (hpos : c.pos = s.consumerPosition)
    (hclaims : s'.claims = s.claims) (hcons : s'.consumerPosition = c.pos + c.entry.span)
    (hans : s'.answers = s.answers) : s'.taken = s.taken ++ (s'.take? c).toList := by
  obtain ⟨front, rest, heq⟩ := List.append_of_mem hc
  have hordered := hl.ordered
  rw [heq, List.pairwise_append, List.pairwise_cons] at hordered
  obtain ⟨-, ⟨hrest, -⟩, hfront⟩ := hordered
  -- what is before the claim was passed already, what is behind it is not
  have hbefore : ∀ d ∈ front, s'.take? d = s.take? d := by
    intro d hd
    have hlt := hfront d hd c List.mem_cons_self
    have hd4 := (hl.ok d (heq ▸ List.mem_append_left _ hd)).four_le
    unfold take?
    rw [hcons, hans]
    have hlt : d.pos < s.consumerPosition := by omega
    have hlt' : d.pos < c.pos + c.entry.span := by omega
    simp only [hlt, hlt']
  have hbehind : ∀ d ∈ rest, s.take? d = none ∧ s'.take? d = none := by
    intro d hd
    have hle := hrest d hd
    exact ⟨take?_of_le (by omega), take?_of_le (by omega)⟩
  have hhead : s.take? c = none := take?_of_le hpos.ge
  have hnil : rest.filterMap s.take? = [] :=
    List.filterMap_eq_nil_iff.mpr fun d hd => (hbehind d hd).1
  have hnil' : rest.filterMap s'.take? = [] :=
    List.filterMap_eq_nil_iff.mpr fun d hd => (hbehind d hd).2
  unfold taken
  rw [hclaims, heq, filterMap_append, filterMap_append, List.filterMap_congr hbefore,
    List.filterMap_cons_none hhead, hnil, append_nil, List.filterMap_cons, hnil']
  cases s'.take? c <;> rfl

theorem Inv.pass (h : Inv crc shape stage s) {advance : ℕ} {got : Option RingRecord}
    (hpc : s.consumer = .release advance (advance + 1) got) (pc : MpscReadPc)
    (hcons : ∀ s' stage', Consuming crc shape stage' s' pc)
    {extra : List MpscRead} (hextra : extra = got.toList.map fun r => .record s.consumerPosition r) :
    Inv crc shape stage { s with
        consumerPosition := s.consumerPosition + advance
        consumer := pc
        reads := s.reads ++ extra } := by
  have hrel := h.consuming
  rw [hpc] at hrel
  obtain ⟨c, hc, hpos, rfl, hst, -, -, hzero, hsome, hnone⟩ := hrel
  have hok := h.layout.ok c hc
  have h4 := hok.four_le
  have hclear : ∀ j < c.entry.span, s.cells (c.offset shape + j) = 0 := by
    intro j hj
    by_cases hj4 : j < 4
    · exact hzero rfl j hj4
    · have hholds := h.memory.live c hc hpos.ge
      rw [hst] at hholds
      exact hholds.2 j (by omega) (by omega) hj
  have hpassed : ∀ (s' : MpscRing) pos, s'.consumerPosition = s.consumerPosition + c.entry.span →
      Passed stage s pos → Passed stage s' pos := by
    rintro s' pos hs' (hlt | ⟨heq, -⟩)
    · exact .inl (by omega)
    · exact .inl (by omega)
  have hlive : ∀ d ∈ s.claims, s.consumerPosition ≤ d.pos → (stage d.pos).busy = true →
      s.consumerPosition + c.entry.span ≤ d.pos := by
    intro d hd hle hbusy
    have hne : d.pos ≠ c.pos := by
      intro heq
      rw [heq, hst] at hbusy
      cases hbusy
    have := h.layout.behind_head hc hd hpos hle hne
    omega
  exact {
    layout := h.layout.pass hc hpos rfl rfl (hpos ▸ rfl)
    memory := h.memory.pass h.layout hc hpos hclear rfl rfl (hpos ▸ rfl) rfl
    producing := fun q hq => by
      refine (h.producing q hq).frame (fun _ hd => hd) (Nat.le_add_right _ _) (fun _ hd => hd)
        (fun pos hpass => hpassed _ pos rfl hpass) ?_
      intro d _ hd hle hstd
      exact .inl ⟨hlive d hd hle (hstd ▸ stage_busy q.pc), rfl⟩
    unique := h.unique
    consuming := hcons _ _
    leaving := fun d hd hle k hk => by
      have hle' : s.consumerPosition + c.entry.span ≤ d.pos := hle
      have := (h.leaving d hd (by omega) k hk).1
      omega
    answered := { h.answered with
      committed := fun d hd hle =>
        h.answered.committed d hd ((Nat.le_add_right _ _).trans hle)
      pending := fun d hd hle => h.answered.pending d hd ((Nat.le_add_right _ _).trans hle)
      skipped := fun pos hmem =>
        ⟨(h.answered.skipped pos hmem).1, hpassed _ pos rfl (h.answered.skipped pos hmem).2⟩
      delivered := by
        symm
        refine (h.layout.taken_pass hc hpos ?_ ?_ ?_).trans ?_
        · rfl
        · rw [hpos]
        · rfl
        rw [← h.answered.delivered]
        show _ = (s.reads ++ extra).filterMap MpscRead.delivery
        rw [filterMap_append, hextra]
        refine congrArg (_ ++ ·) ?_
        cases got with
        | none =>
          have hfree : ∀ r, (r, .ok c.pos) ∉ s.answers := hnone rfl
          unfold take?
          cases c.entry with
          | padding len => rfl
          | record r =>
            dsimp only
            rw [if_neg fun hcond => hfree r hcond.2]
            rfl
        | some r =>
          obtain ⟨hentry, hmem⟩ := hsome r rfl
          unfold take?
          rw [hentry]
          dsimp only
          have hlt : c.pos < s.consumerPosition + (RingEntry.record r).span := by
            rw [← hentry]
            omega
          rw [if_pos ⟨hlt, hmem⟩, hpos]
          rfl
      reads := fun a ha => by
        rcases List.mem_append.mp ha with ha | ha
        · exact h.answered.reads a ha
        · rw [hextra] at ha
          obtain ⟨r, -, rfl⟩ := List.mem_map.mp ha
          simp } }

/-! ## The accesses of a `try_read` -/

theorem alignRecordSize_of_dvd {n : ℕ} (h : recordAlign ∣ n) : alignRecordSize n = n := by
  obtain ⟨k, rfl⟩ := h
  unfold alignRecordSize recordAlign
  omega

theorem storeWord_zero (s : MpscRing) {o j : ℕ} (hj : j < 4) : (s.storeWord o 0).cells (o + j) = 0 := by
  show (if o ≤ o + j ∧ o + j < o + 4 then (Bytes.le 4 0).getD (o + j - o) 0 else _) = 0
  rw [if_pos (by omega), Nat.add_sub_cancel_left]
  rcases j with _ | _ | _ | _ | j
  · rfl
  · rfl
  · rfl
  · rfl
  · omega

theorem add_mod_of_aligned (shape : MpscShape) {pos j : ℕ} (h : recordAlign ∣ pos) (hj : j < 4) :
    pos % shape.capacity + j = (pos + j) % shape.capacity := by
  have hlt := Nat.mod_lt pos shape.capacity_pos
  obtain ⟨m, hm⟩ := (Nat.dvd_mod_iff shape.align_dvd).mpr h
  obtain ⟨n, hn⟩ := shape.align_dvd
  have h8 : recordAlign = 8 := rfl
  rw [← Nat.mod_add_mod]
  refine (Nat.mod_eq_of_lt ?_).symm
  rw [h8] at hm hn
  omega

theorem Inv.load (h : Inv crc shape stage s) (hpc : s.consumer = .load) (elapsed : Bool) :
    Inv crc shape stage (s.consume crc shape elapsed) := by
  have hold : ∀ a k got, s.consumer ≠ .release a k got := by
    intro a k got heq
    rw [hpc] at heq
    cases heq
  unfold MpscRing.consume
  rw [hpc]
  dsimp only
  rcases h.layout.head with heq | ⟨c, hc, hpos⟩
  · have hword : s.wordAt (s.consumerPosition % shape.capacity) = 0 := by
      refine wordAt_zero fun j hj => ?_
      have hmod := add_mod_of_aligned shape (heq ▸ h.layout.aligned) hj
      have hcap : 8 ≤ shape.capacity := shape.aligned
      rw [hmod]
      exact h.memory.blank _ (by omega) (by omega)
    rw [hword, classifyCommitWord_zero]
    exact h.turn_to trivial hold
  · have hok := h.layout.ok c hc
    have hholds := h.memory.live c hc hpos.ge
    have hoff : s.consumerPosition % shape.capacity = c.offset shape := by rw [← hpos]; rfl
    have hlap : lapOf s.consumerPosition shape.capacity = lapOf c.pos shape.capacity := by rw [hpos]
    rw [hoff, hlap]
    cases hst : stage c.pos with
    | bare =>
      rw [hst] at hholds
      have hword : s.wordAt (c.offset shape) = 0 := hholds
      rw [hword, classifyCommitWord_zero]
      exact h.turn_to trivial hold
    | written k =>
      rw [hst] at hholds
      rw [hholds.1, PendingClaim.claimWord, classifyCommitWord_claim hok.size_lt]
      exact h.turn_to ⟨c, hc, hpos, rfl, rfl⟩ hold
    | committed =>
      rw [hst] at hholds
      have hle := c.entry.commitLen_le_span
      have hsix := c.entry.six_le_commitLen hok.entry
      have hsize := hok.size
      have hlt := hok.size_lt
      have hfits := hok.fits
      rw [hholds.1, PendingClaim.commitWord, classifyCommitWord_commit (by omega) (by omega)]
      dsimp only
      have hbounds : ¬ (c.entry.commitLen < 6 ∨ shape.bytesToTail s.consumerPosition < c.entry.commitLen ∨
          shape.maxRecord < c.entry.commitLen) := by
        unfold MpscShape.bytesToTail
        omega
      rw [if_neg hbounds]
      exact h.turn_to ⟨c, hc, hpos, hst, rfl, fun j hj => absurd hj (Nat.not_lt_zero j)⟩ hold
    | leaving k =>
      obtain ⟨-, a, got, heq⟩ := h.leaving c hc hpos.ge k hst
      exact absurd heq (hold a k got)

theorem Inv.consume (h : Inv crc shape stage s) {elapsed : Bool}
    (hposs : s.Possible (.consume elapsed)) :
    ∃ stage', Inv crc shape stage' (s.consume crc shape elapsed) := by
  have hcons := h.consuming
  cases hpc : s.consumer with
  | idle =>
    refine ⟨stage, ?_⟩
    unfold MpscRing.consume
    rw [hpc]
    exact h
  | load => exact ⟨stage, h.load hpc elapsed⟩
  | empty =>
    have hold : ∀ a k got, s.consumer ≠ .release a k got := by simp [hpc]
    refine ⟨stage, ?_⟩
    unfold MpscRing.consume
    rw [hpc]
    dsimp only
    split_ifs
    · exact h.answerRead hold (.inl rfl)
    · exact h.answerRead hold (.inr rfl)
    · exact h.answerRead hold (.inl rfl)
  | claimed word advance =>
    have hold : ∀ a k got, s.consumer ≠ .release a k got := by simp [hpc]
    rw [hpc] at hcons
    obtain ⟨c, hc, hpos, hword, rfl⟩ := hcons
    have hok := h.layout.ok c hc
    refine ⟨stage, ?_⟩
    unfold MpscRing.consume
    rw [hpc]
    dsimp only
    split
    · exact h.answerRead hold (.inl rfl)
    · rename_i helapsed
      have h4 := hok.four_le
      have hsize := hok.size
      have hfits := hok.fits
      have halign := alignRecordSize_of_dvd (c.entry.span_dvd hok.entry)
      have htail : shape.bytesToTail s.consumerPosition = shape.capacity - c.offset shape := by
        rw [← hpos]
        rfl
      have hbounds : ¬ (c.entry.span = 0 ∨ alignRecordSize c.entry.span ≠ c.entry.span ∨
          shape.bytesToTail s.consumerPosition < c.entry.span ∨ shape.maxRecord < c.entry.span) := by
        rw [halign, htail]
        omega
      rw [if_neg hbounds]
      have honly : s.OnlyCommits := hposs (by simpa using helapsed) (by rw [hpc]; rfl)
      exact h.turn_to ⟨honly, c, hc, hpos, hword, rfl⟩ hold
  | frontier word advance =>
    have hold : ∀ a k got, s.consumer ≠ .release a k got := by simp [hpc]
    rw [hpc] at hcons
    obtain ⟨honly, c, hc, hpos, hword, rfl⟩ := hcons
    have hbelow := h.layout.below c hc
    refine ⟨stage, ?_⟩
    unfold MpscRing.consume
    rw [hpc]
    dsimp only
    rw [if_neg (by omega)]
    exact h.turn_to ⟨honly, c, hc, hpos, hword, rfl⟩ hold
  | mark word advance =>
    have hold : ∀ a k got, s.consumer ≠ .release a k got := by simp [hpc]
    rw [hpc] at hcons
    obtain ⟨honly, c, hc, hpos, rfl, rfl⟩ := hcons
    have hok := h.layout.ok c hc
    have hoff : s.consumerPosition % shape.capacity = c.offset shape := by rw [← hpos]; rfl
    have hlap : lapOf s.consumerPosition shape.capacity = lapOf c.pos shape.capacity := by rw [hpos]
    unfold MpscRing.consume
    rw [hpc]
    dsimp only
    rw [hoff, hlap]
    split
    · rename_i hword
      have hbusy : (stage c.pos).busy = true := by
        have hholds := h.memory.live c hc hpos.ge
        cases hst : stage c.pos with
        | bare => rfl
        | written k => rfl
        | committed =>
          rw [hst] at hholds
          exact absurd (hholds.1.symm.trans hword) (commit_ne_claim _ _ _ _)
        | leaving k =>
          rw [hst] at hholds
          exact absurd hword hholds.1
      have h4 := hok.four_le
      rw [← hpos]
      refine ⟨_, h.retire hc hpos none (.inr ⟨rfl, hbusy, honly⟩)
        (fun x hx => s.storeWord_cells_of_outside (covers_word hok hx)) ?_ le_rfl (by omega)
        (by omega) (by simp) fun _ => h.answered.pending c hc hpos.ge hbusy⟩
      intro s' hs'
      exact (Holds.mark s hok).congr hok fun x _ => congrFun hs' x
    · exact ⟨stage, h.turn_to trivial hold⟩
  | read length out =>
    have hold : ∀ a k got, s.consumer ≠ .release a k got := by simp [hpc]
    rw [hpc] at hcons
    obtain ⟨c, hc, hpos, hst, rfl, hcopy⟩ := hcons
    have hok := h.layout.ok c hc
    have hholds := h.memory.live c hc hpos.ge
    rw [hst] at hholds
    have h4 := hok.four_le
    unfold MpscRing.consume
    rw [hpc]
    dsimp only
    have htail : ∀ len, c.entry = .padding len → len = shape.bytesToTail s.consumerPosition := by
      rw [← hpos]
      exact hok.padding
    have hidle : (stage c.pos).busy = false := by rw [hst]; rfl
    have hskipped : s.skipped = s.skipped ++ [] := (append_nil _).symm
    rcases hcopy.decode hok.entry htail with ⟨hfetch, hge, hlt⟩ | hslot
    · rw [hfetch]
      dsimp only
      refine ⟨stage, h.turn_to ⟨c, hc, hpos, hst, rfl, hcopy.push ?_⟩ hold⟩
      -- a byte behind the first word
      obtain ⟨j, hj⟩ := Nat.exists_eq_add_of_le hge
      have hstored : j < (c.entry.stored crc).length := by
        rw [RingEntry.stored, List.length_drop]
        omega
      rw [hj, c.entry.getElem?_bytes crc, hholds.2 j hstored, ← hpos, ← Nat.add_assoc]
      rfl
    · rw [hslot]
      have hleave : ∀ s' : MpscRing, s'.cells = s.cells → Holds crc shape s' c (.leaving 4) :=
        fun s' hs' => hholds.leave.congr hok fun x _ => congrFun hs' x
      cases hentry : c.entry with
      | padding len =>
        have hretire := h.retire hc hpos none (.inl ⟨rfl, hidle⟩) (fun _ _ => rfl) hleave
          le_rfl (by omega) (by omega) (by simp) fun _ r hr => by
            have heq := h.layout.pos_inj (h.answered.claimed r _ hr) hc rfl
            rw [← heq] at hentry
            cases hentry
        rw [append_nil, hentry] at hretire
        exact ⟨_, hretire⟩
      | record r =>
        have hretire := h.retire hc hpos (some r) (.inl ⟨rfl, hidle⟩) (fun _ _ => rfl) hleave
          le_rfl (by omega) (by omega)
          (fun r' hr' => by
            cases hr'
            exact ⟨hentry, h.answered.committed c hc hpos.ge hst r hentry⟩) (by simp)
        rw [append_nil, hentry] at hretire
        exact ⟨_, hretire⟩
  | release advance k got =>
    rw [hpc] at hcons
    obtain ⟨c, hc, hpos, rfl, hst, h4, hk, hzero, hsome, hnone⟩ := hcons
    have hok := h.layout.ok c hc
    have hholds := h.memory.live c hc hpos.ge
    rw [hst] at hholds
    have hoff : s.consumerPosition % shape.capacity = c.offset shape := by rw [← hpos]; rfl
    have hidle : (stage c.pos).busy = false := by rw [hst]; rfl
    unfold MpscRing.consume
    rw [hpc]
    dsimp only
    rw [hoff]
    split
    · rename_i hlt
      have hretire := h.retire hc hpos got (.inl ⟨rfl, hidle⟩)
        (fun x hx => s.storeByte_cells_ne 0 (by rintro rfl; exact hx ⟨by omega, by omega⟩))
        (fun s' hs' => (hholds.clear h4).congr hok fun x _ => congrFun hs' x) (by omega) (by omega)
        (by omega) hsome hnone
      rw [append_nil] at hretire
      exact ⟨_, hretire⟩
    · split
      · rename_i heq
        subst heq
        have hretire := h.retire hc hpos got (.inl ⟨rfl, hidle⟩)
          (fun x hx => s.storeWord_cells_of_outside (covers_word hok hx))
          (fun s' hs' => hholds.clear_word.congr hok fun x _ => congrFun hs' x) (by omega) (by omega)
          (fun _ j hj => storeWord_zero s hj) hsome hnone
        rw [append_nil] at hretire
        exact ⟨_, hretire⟩
      · rename_i hlt hne
        obtain rfl : k = c.entry.span + 1 := by omega
        refine ⟨stage, ?_⟩
        cases got with
        | none =>
          have hpass := h.pass hpc .load (fun _ _ => trivial) rfl
          rwa [Option.toList_none, List.map_nil, append_nil] at hpass
        | some r => exact h.pass hpc .idle (fun _ _ => trivial) rfl

/-! ## Runs -/

theorem Inv.append_idle (h : Inv crc shape stage s) {q : MpscProducer} (hq : q.pc = .idle)
    (hcached : q.cachedConsumerPos ≤ s.consumerPosition) :
    Inv crc shape stage { s with producers := s.producers ++ [q] } := by
  have hnone : ∀ c, c ∉ q.pc.claim? := by
    intro c hc
    rw [hq] at hc
    cases hc
  suffices hlocal : Inv crc shape stage
      { s with producers := s.producers ++ [q], answers := s.answers ++ [] } by
    rwa [append_nil] at hlocal
  refine h.local (by simp) ?_ ?_ ?_
  · intro q' hq'
    rcases List.mem_snoc.mp hq' with hq' | rfl
    · exact h.producing q' hq'
    · exact ⟨hcached, by rw [hq]; trivial, fun c hc => absurd hc (hnone c)⟩
  · intro j k a b ha hb c hc d hd
    rw [List.getElem?_append] at ha hb
    split at ha
    · split at hb
      · exact h.unique j k a b ha hb c hc d hd
      · rw [List.getElem?_singleton] at hb
        split at hb
        · cases hb
          exact absurd hd (hnone d)
        · cases hb
    · rw [List.getElem?_singleton] at ha
      split at ha
      · cases ha
        exact absurd hc (hnone c)
      · cases ha
  · intro honly q' hq' c hc
    rcases List.mem_snoc.mp hq' with hq' | rfl
    · exact honly q' hq' c hc
    · exact absurd hc (hnone c)

theorem Inv.exec (h : Inv crc shape stage s) {step : MpscStep} (hposs : s.Possible step)
    (hgen : s.Genuine shape step) : ∃ stage', Inv crc shape stage' (s.exec crc shape step) := by
  cases step with
  | attach => exact ⟨stage, h.append_idle rfl (Nat.zero_le _)⟩
  | clone i =>
    dsimp only [MpscRing.exec]
    split
    · rename_i q hq
      exact ⟨stage, h.append_idle rfl (h.producing q (List.mem_of_getElem? hq)).cached⟩
    · exact ⟨stage, h⟩
  | tryWrite i r =>
    dsimp only [MpscRing.exec, MpscRing.tryWrite]
    split
    · exact ⟨stage, h⟩
    · rename_i q hq
      have hcached := (h.producing q (List.mem_of_getElem? hq)).cached
      have hrefuse : ∀ a : WriteAnswer, (∀ pos, a ≠ .ok pos) → (∀ pos, a ≠ .skipped pos) →
          Inv crc shape stage (s.answerWrite i q r a) := by
        intro a hok hskip
        refine h.set_unclaimed hq [(r, a)] ?_ hcached trivial rfl
        intro b hb
        rw [List.mem_singleton.mp hb]
        refine ⟨?_, fun pos heq => absurd heq (hskip pos)⟩
        cases a <;> first | rfl | exact absurd rfl (hok _)
      refine ⟨stage, ?_⟩
      split_ifs with htype hsize
      · exact hrefuse _ (by simp) (by simp)
      · exact hrefuse _ (by simp) (by simp)
      · exact h.setProducer_unclaimed hq hcached ⟨hposs.2, htype, by omega⟩ rfl
  | produce i weak => exact h.produce hgen
  | die i =>
    dsimp only [MpscRing.exec]
    split
    · rename_i q hq
      exact ⟨stage, h.setProducer_unclaimed hq (h.producing q (List.mem_of_getElem? hq)).cached
        trivial rfl⟩
    · exact ⟨stage, h⟩
  | tryRead =>
    have hidle : s.consumer = .idle := hposs
    exact ⟨stage, h.turn_to trivial (by simp [hidle])⟩
  | consume elapsed => exact h.consume hposs

/-- A commit that is not genuine is answered with `Ok` for a record that the
    consumer has passed without it. -/
theorem genuine_of_exactlyOnce (h : ExactlyOnce crc shape s) {step : MpscStep}
    (h' : ExactlyOnce crc shape (s.exec crc shape step)) : s.Genuine shape step := by
  cases step with
  | produce i weak =>
    intro p hp c hc hfin hword
    by_contra hlt
    obtain ⟨cached, pc⟩ := p
    cases pc with
    | commit r d =>
      cases hc
      obtain ⟨pos, entry⟩ := c
      cases entry with
      | padding len => cases hfin
      | record r' =>
        have hexec : s.exec crc shape (.produce i weak) =
            (s.storeWord (pos % shape.capacity) (PendingClaim.commitWord shape ⟨pos, .record r'⟩)).answerWrite
              i ⟨cached, .commit r ⟨pos, .record r'⟩⟩ r (.ok pos) := by
          dsimp only [MpscRing.exec, MpscRing.produce]
          rw [hp]
          dsimp only [MpscRing.commit]
          rw [if_pos hword]
        rw [hexec] at h'
        have hanswer : (r, WriteAnswer.ok pos) ∈ s.answers ++ [(r, .ok pos)] :=
          List.mem_concat_self
        have hclaim : (⟨pos, .record r⟩ : PendingClaim) ∈ s.claims := h'.claimed r pos hanswer
        have hdelivered : (pos, r) ∈ s.delivered := by
          have htaken := h'.delivered
          refine htaken ▸ List.mem_filterMap.mpr ⟨_, hclaim, ?_⟩
          exact if_pos ⟨not_le.mp hlt, hanswer⟩
        rw [h.delivered] at hdelivered
        obtain ⟨e, -, he⟩ := List.mem_filterMap.mp hdelivered
        have hold := (take?_eq_some he).2.2
        have hnodup := h'.answered
        change ((s.answers ++ [(r, WriteAnswer.ok pos)]).filterMap fun a => a.2.okPos).Nodup at hnodup
        rw [filterMap_append, List.nodup_append] at hnodup
        exact hnodup.2.2 pos (List.mem_filterMap.mpr ⟨_, hold, rfl⟩) pos
          (List.mem_filterMap.mpr ⟨_, List.mem_singleton_self _, rfl⟩) rfl
    | _ => cases hfin
  | _ => trivial

/-- **Exactly once.**  In a run in which producers stall only before their
    commits, every state is as it should be if and only if no producer commits a
    claim that the consumer has passed. -/
theorem exactly_once_iff_genuine (crc : Bytes → UInt32) (shape : MpscShape) {steps : List MpscStep}
    (h : Trace.Admits (exec crc shape) Possible create steps) :
    (∀ k ≤ steps.length, ExactlyOnce crc shape (run crc shape create (steps.take k))) ↔
      Trace.Admits (exec crc shape) (fun s step => s.Genuine shape step) create steps := by
  constructor
  · intro hall
    refine Trace.admits_iff_getElem?.mpr fun k step hstep => ?_
    obtain ⟨hlt, -⟩ := List.getElem?_eq_some_iff.mp hstep
    have hnext := hall (k + 1) hlt
    unfold run at hnext
    rw [List.take_add_one, hstep, Option.toList_some, List.foldl_append] at hnext
    exact genuine_of_exactlyOnce (hall k hlt.le) hnext
  · intro hgen k _
    have hboth : Trace.Admits (exec crc shape) (fun s step => s.Possible step ∧ s.Genuine shape step)
        create steps := by
      refine Trace.admits_iff_getElem?.mpr fun j step hstep => ?_
      exact ⟨Trace.admits_iff_getElem?.mp h j step hstep, Trace.admits_iff_getElem?.mp hgen j step hstep⟩
    have hinv : ∃ stage, Inv crc shape stage (run crc shape create (steps.take k)) := by
      refine Trace.Admits.rule
        (P := fun is => ∃ stage, Inv crc shape stage (run crc shape create is))
        ⟨_, inv_create⟩ ?_ (hboth.take k)
      rintro is step ⟨stage, hinv⟩ ⟨hposs, hgen'⟩
      unfold run at hinv ⊢
      rw [List.foldl_append]
      exact hinv.exec hposs hgen'
    obtain ⟨stage, hinv⟩ := hinv
    exact hinv.exactlyOnce

/-! ### A claim word in a payload -/

def tightRing : MpscShape := ⟨.sixtyFour, by decide⟩

def shortRecord : RingRecord := ⟨1, 0, List.replicate 8 1, []⟩

/-- Eight bytes into its payload, the word of a claim of 24 bytes in the first lap. -/
def spellingRecord : RingRecord :=
  ⟨3, 0, List.replicate 8 3, List.replicate 8 4 ++ [24, 0, 0, 128] ++ List.replicate 12 5⟩

/-- The accesses of a write up to its commit. -/
def uncommitted (i : ℕ) (r : RingRecord) : List MpscStep :=
  .tryWrite i r :: List.replicate (2 * r.body.length + 10) (.produce i false)

/-- A read that skips a claim of 24 bytes and finds nothing behind it. -/
def skipping : List MpscStep :=
  [.tryRead, .consume false, .consume true] ++ List.replicate 26 (.consume false)

/-- One producer is skipped, and the other writes on. -/
def skippedWrite : List MpscStep :=
  [.clone 0] ++ uncommitted 0 shortRecord ++ [.produce 0 false, .tryRead] ++
    List.replicate 64 (.consume false) ++ uncommitted 1 shortRecord ++ skipping

/-- The skipped producer commits. -/
def refusedWrite : List MpscStep := skippedWrite ++ [.produce 1 false]

theorem exactly_once_iff_genuine_refused : (run Crc32.hash tightRing create refusedWrite).answers =
        [(shortRecord, .ok 0), (shortRecord, .skipped 24)] ∧ ∀ k ≤ refusedWrite.length,
        ExactlyOnce Crc32.hash tightRing (run Crc32.hash tightRing create (refusedWrite.take k)) :=
  ⟨by decide +kernel,
    (exactly_once_iff_genuine Crc32.hash tightRing (by decide +kernel)).mpr (by decide +kernel)⟩

/-- The skipped producer commits after a later record spelled its claim word. -/
def respelled : List MpscStep :=
  skippedWrite ++ .tryWrite 0 spellingRecord :: List.replicate 95 (.produce 0 false) ++
    [.produce 1 false]

theorem skipped_write_ok : ¬ ∀ (shape : MpscShape) (steps : List MpscStep),
      Trace.Admits (exec Crc32.hash shape) Possible create steps →
        ExactlyOnce Crc32.hash shape (run Crc32.hash shape create steps) := by
  intro h
  have honce := h tightRing respelled (by decide +kernel)
  have hskip : 24 ∈ (run Crc32.hash tightRing create respelled).skipped := by decide +kernel
  have hok : (shortRecord, WriteAnswer.ok 24) ∈ (run Crc32.hash tightRing create respelled).answers := by
    decide +kernel
  exact (honce.skipped 24 hskip shortRecord).1 hok

end MpscRing

end UltimaCluster
