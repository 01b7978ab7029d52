/-
  The writer's steps, and the window over a run.
-/
import UltimaCluster.RemoteWindow

namespace UltimaCluster

namespace Remote

namespace RemoteLink

variable {cfg : LinkConfig} {n n' : RemoteLink}

/-! ## Moves of the writer -/

/-- What `Grows` asks of a step that leaves the frames and the slots. -/
theorem grows_of_eq (hfr : n'.frames = n.frames) (hsub : n'.sub = n.sub) (how : n'.owner = n.owner)
    (hsend : n'.send = n.send) (hbroken : n'.broken = n.broken)
    (hneeded : n.needed = true → n'.needed = true) : Grows cfg n n' := by
  refine grows_quiet rfl hfr hsub (fun a ha => ?_) hsend hbroken hneeded
  rwa [IsLive, how] at ha

section

variable (w : n.Window cfg) (h : n.Framed cfg)

include w h

omit h in
theorem Window.move {pc₀ : WriterPc} (hpc : n.writer = pc₀) (q : List ℕ) (pc : WriterPc)
    (hq : ∀ x ∈ q, x ∈ n.retransmit ∨ cfg.firstSeq ≤ x ∧ x < cfg.firstSeq + n.bound pc)
    (hbound : n.bound pc₀ ≤ n.bound pc)
    (hcov : ∀ a, n.IsLive cfg a → a < cfg.firstSeq + n.reach pc →
      Covers { n with retransmit := q, writer := pc } pc a)
    (hend : n.wireEnd pc = n.wireEnd pc₀)
    (hat : WriterAt cfg { n with retransmit := q, writer := pc } pc) :
    Window cfg { n with retransmit := q, writer := pc } := by
  subst hpc
  refine ⟨w.begun, ?_, w.ordered, hcov, ⟨w.exact.upper, w.exact.lower⟩, ?_, hat⟩
  · intro x hx
    have hold : x ∈ n.ever ∨ x ∈ n.retransmit ∨ n.reader = .push x →
        cfg.firstSeq ≤ x ∧ x < cfg.firstSeq + n.bound pc := by
      intro hx
      obtain ⟨h1, h2⟩ := w.bounded x hx
      exact ⟨h1, by omega⟩
    rcases hx with hx | hx | hx
    · exact hold (.inl hx)
    · rcases hq x hx with hx | hx
      · exact hold (.inr (.inl hx))
      · exact hx
    · exact hold (.inr (.inr hx))
  · intro hb
    show Tail cfg _ (n.wireEnd pc)
    rw [hend]
    exact ⟨(w.tail hb).wire, (w.tail hb).last⟩

theorem Window.setWriter {pc₀ : WriterPc} (hpc : n.writer = pc₀) (pc : WriterPc)
    (hbound : n.bound pc₀ ≤ n.bound pc)
    (hcov : ∀ a, n.IsLive cfg a → a < cfg.firstSeq + n.reach pc → n.Covers pc a)
    (hend : n.wireEnd pc = n.wireEnd pc₀) (hat : n.WriterAt cfg pc) :
    Window cfg { n with writer := pc } := by
  refine w.move hpc n.retransmit pc (fun x hx => .inl hx) hbound
    (fun a ha hlt => (hcov a ha hlt).congr rfl rfl) hend ?_
  have g : Grows cfg n { n with writer := pc } := grows_of_eq rfl rfl rfl rfl rfl id
  have h' : Framed cfg { n with writer := pc } :=
    h.moved n.send n.retransmit n.needed n.closed pc n.reader n.begun n.wire n.ever n.broken le_rfl
      h.send
  refine g.writerAt h h' (fun _ => rfl) (fun x hx => ?_) hat
  have := bound_le n n.writer
  have := (w.bounded x (.inr (.inl hx))).2
  omega

omit h in
theorem Window.known {pc : WriterPc} (hpc : n.writer = pc) : n.WriterAt cfg pc ∧
    ∀ a, n.IsLive cfg a → a < cfg.firstSeq + n.reach pc → n.Covers pc a := by
  subst hpc
  exact ⟨w.at_, w.covered⟩

/-! ## The re-send queue -/

theorem Window.top (hpc : n.writer = .top) (ok ok' : Bool) : (n.writerStep cfg ok ok').Window cfg := by
  obtain ⟨hat, hcov⟩ := w.known hpc
  have hb := bound_le n .top
  simp only [writerStep, hpc]
  split
  · exact w.setWriter h hpc .stopped hb hcov rfl trivial
  · split
    · exact w.setWriter h hpc .dial hb hcov rfl trivial
    · rename_i hneed
      have hbroken : n.broken = false := by
        by_contra hc
        exact hneed (hat.1 (by simpa using hc))
      refine w.setWriter h hpc .sort ?_ hcov rfl ⟨hbroken, hat.2 hbroken⟩
      rw [bound, hbroken]
      exact le_rfl

theorem Window.sort (hpc : n.writer = .sort) (ok ok' : Bool) :
    (n.writerStep cfg ok ok').Window cfg := by
  obtain ⟨hat, hcov⟩ := w.known hpc
  simp only [writerStep, hpc]
  split
  · rename_i hnil
    refine w.setWriter h hpc (.afterResends false) le_rfl ?_ rfl hat
    intro a ha hlt
    rcases hcov a ha hlt with hmem | hmem
    · exact hmem
    · rw [hnil] at hmem
      cases hmem
  · refine w.move hpc _ (.notBefore [] 0) (fun x hx => .inl ((List.mem_insertionSort _).mp hx))
      le_rfl ?_ rfl ?_
    · intro a ha hlt
      exact (hcov a ha hlt).imp_right (List.mem_insertionSort _).mpr
    · exact ⟨⟨hat.broken, hat.edge⟩, List.pairwise_insertionSort _ _, by simp, by simp⟩

theorem Window.taking {due due' : List ℕ} {taken taken' : ℕ} {pc : WriterPc}
    (hpc : n.writer = .notBefore due taken ∨ n.writer = .late due taken ∨ n.writer = .alive due taken)
    (hnew : pc = .notBefore due' taken' ∨ pc = .late due' taken' ∨ pc = .alive due' taken' ∨
      pc = .drop due' taken') (htaken : n.Taken cfg due' taken') :
    Window cfg { n with writer := pc } := by
  have hcov := w.covered
  rcases hpc with hpc | hpc | hpc <;> rcases hnew with rfl | rfl | rfl | rfl <;>
    rw [hpc] at hcov <;>
    exact w.setWriter h hpc _ le_rfl hcov rfl htaken

variable {due : List ℕ} {taken : ℕ}

theorem Window.alive (hpc : n.writer = .alive due taken) (ok ok' : Bool) :
    (n.writerStep cfg ok ok').Window cfg := by
  have hat := w.at_
  rw [hpc] at hat
  obtain ⟨hclean, hsorted, hsub, hlive⟩ := hat
  simp only [writerStep, hpc]
  split
  · rename_i seq hseq
    have htake : n.retransmit.take (taken + 1) = n.retransmit.take taken ++ [seq] := by
      rw [List.take_add_one, hseq, Option.toList_some]
    refine w.taking h (.inr (.inr hpc)) (.inl rfl) ⟨hclean, hsorted, ?_, ?_⟩
    · rw [htake]
      split
      · exact hsub.append (List.Sublist.refl _)
      · exact hsub.trans (List.sublist_append_left _ _)
    · rw [htake]
      intro a ha hmem
      rcases List.mem_snoc.mp hmem with hmem | rfl
      · split
        · exact List.mem_append_left _ (hlive a ha hmem)
        · exact hlive a ha hmem
      · rw [if_pos ha]
        exact List.mem_concat_self
  · exact w.taking h (.inr (.inr hpc)) (.inr (.inr (.inr rfl))) ⟨hclean, hsorted, hsub, hlive⟩

omit h in
theorem Window.drop (hpc : n.writer = .drop due taken) (ok ok' : Bool) :
    (n.writerStep cfg ok ok').Window cfg := by
  obtain ⟨hat, hcov⟩ := w.known hpc
  obtain ⟨hclean, hsorted, hsub, hlive⟩ := hat
  have hsplit : ∀ a, a ∈ n.retransmit → a ∈ n.retransmit.take taken ∨ a ∈ n.retransmit.drop taken := by
    intro a ha
    rwa [← List.mem_append, List.take_append_drop]
  have hdrop : ∀ x ∈ n.retransmit.drop taken, x ∈ n.retransmit := fun x hx => List.mem_of_mem_drop hx
  simp only [writerStep, hpc]
  split
  · rename_i hnil
    refine w.move hpc _ (.afterResends _) (fun x hx => .inl (hdrop x hx)) le_rfl ?_
      rfl ⟨hclean.broken, hclean.edge⟩
    intro a ha hlt
    have hor : a ∈ n.begun ∨ a ∈ n.retransmit.drop taken := by
      rcases hcov a ha hlt with hmem | hmem
      · exact .inl hmem
      · rcases hsplit a hmem with hmem | hmem
        · have := hlive a ha hmem
          rw [hnil] at this
          cases this
        · exact .inr hmem
    by_cases hrest : n.retransmit.drop taken = []
    · rw [hrest] at hor
      simp only [hrest]
      exact hor.resolve_right (by simp)
    · simp only [ne_eq, hrest, not_false_eq_true, decide_true]
      exact hor
  · refine w.move hpc _ (.resend _ .gate) (fun x hx => .inl (hdrop x hx)) le_rfl ?_
      rfl ?_
    · intro a ha hlt
      rcases hcov a ha hlt with hmem | hmem
      · exact .inl hmem
      · rcases hsplit a hmem with htake | hrest
        · refine .inr (.inl ?_)
          exact hlive a ha htake
        · refine .inr (.inr ⟨?_, hrest, ?_⟩)
          · simp only [ne_eq, List.ne_nil_of_mem hrest, not_false_eq_true, decide_true]
          · intro x hx
            have hx : x ∈ due := hx
            rw [← List.take_append_drop taken n.retransmit] at hsorted
            exact (List.pairwise_append.mp hsorted).2.2 x (hsub.subset hx) a hrest
    · refine ⟨⟨hclean.broken, hclean.edge⟩, ?_, ?_, by simp, trivial⟩
      · exact hsorted.sublist (hsub.trans (List.take_sublist _ _))
      · intro x hx
        have hx : x ∈ due := hx
        have := w.bounded x (.inr (.inl (List.mem_of_mem_take (hsub.subset hx))))
        rwa [hpc] at this

theorem Window.notBefore (hpc : n.writer = .notBefore due taken) (ok ok' : Bool) :
    (n.writerStep cfg ok ok').Window cfg := by
  have hat := w.at_
  rw [hpc] at hat
  simp only [writerStep, hpc]
  split
  · exact w.taking h (.inl hpc) (.inr (.inr (.inr rfl))) hat
  · cases ok
    · exact w.taking h (.inl hpc) (.inr (.inl rfl)) hat
    · exact w.taking h (.inl hpc) (.inr (.inr (.inl rfl))) hat

theorem Window.late (hpc : n.writer = .late due taken) (ok ok' : Bool) :
    (n.writerStep cfg ok ok').Window cfg := by
  have hat := w.at_
  rw [hpc] at hat
  simp only [writerStep, hpc]
  split
  · exact w.taking h (.inr (.inl hpc)) (.inr (.inr (.inr rfl))) hat
  · exact w.taking h (.inr (.inl hpc)) (.inr (.inr (.inl rfl))) hat

/-! ## A batch of re-sends -/

/-- The writer moves on with a batch, and lets go of requests that are not live. -/
theorem Window.batch {b b' : Batch} {stage stage' : ResendStage} (hpc : n.writer = .resend b stage)
    (hstill : b'.still = b.still) (hsub : (hand b' stage').Sublist (hand b stage))
    (hlive : ∀ a, n.IsLive cfg a → a ∈ hand b stage → a ∈ hand b' stage')
    (hgot : ∀ p ∈ b'.got, p.2 = n.frameOf cfg p.1) (hat : n.ResendAt cfg b' stage') :
    Window cfg { n with writer := .resend b' stage' } := by
  have hold := w.at_
  have hcov := w.covered
  rw [hpc] at hold hcov
  refine w.setWriter h hpc (.resend b' stage') le_rfl ?_ rfl ?_
  · intro a ha hlt
    rcases hcov a ha hlt with hmem | hmem | ⟨hs, hmem, hle⟩
    · exact .inl hmem
    · exact .inr (.inl (hlive a ha hmem))
    · exact .inr (.inr ⟨hstill.trans hs, hmem, fun x hx => hle x (hsub.subset hx)⟩)
  · exact ⟨hold.clean, hold.sorted.sublist hsub, fun x hx => hold.bounded x (hsub.subset hx), hgot, hat⟩

omit w in
theorem Framed.read {pos k : ℕ} (hpos : n.ack ≤ pos) (hend : pos + k ≤ n.write) :
    CellRing.read cfg.capacity n.ring pos k = Blocks.range n.frames.flatten pos (pos + k) := by
  rw [h.holds.left.read hpos (by rw [← h.write]; exact hend), Blocks.range, Nat.add_sub_cancel_left]

variable {seq off len : ℕ}

omit w in
theorem Framed.read_live (hl : n.IsLive cfg seq) (hlies : n.Lies cfg seq off len)
    (hlt : seq < cfg.firstSeq + n.frames.length) :
    CellRing.read cfg.capacity n.ring off len = n.frameOf cfg seq := by
  have hpos := h.retained seq off len hl hlies
  obtain ⟨hfirst, hoff, f, hget, hlen⟩ := hlies
  have hi : seq - cfg.firstSeq < n.frames.length := by omega
  rw [slotted, List.getElem?_append_left hi] at hget
  rw [slotted, Blocks.start_append hi.le] at hoff
  have hsucc := Blocks.start_succ hget
  have hend : off + len ≤ n.write := by
    rw [h.write, ← Blocks.start_length, hoff, hlen, ← hsucc]
    exact Blocks.start_mono hi
  rw [h.read (h.reclaimed.1.trans hpos) hend, hoff, hlen, ← hsucc, Blocks.range_block hget, frameOf,
    List.getD, hget, Option.getD_some]

variable {b : Batch}

theorem Window.extentOf {stage : ExtentStage} (hpc : n.writer = .resend b (.extent seq stage))
    (ok ok' : Bool) : (n.writerStep cfg ok ok').Window cfg := by
  have hat := w.at_
  rw [hpc] at hat
  obtain ⟨hinl, hnone, hsome⟩ := h.liveExtent (show n.StageOk cfg seq stage from hat.at_)
  simp only [writerStep, hpc, resendStep]
  split
  · rename_i st hst
    exact w.batch h hpc rfl (List.Sublist.refl _) (fun _ _ hmem => hmem) hat.got (hinl st hst)
  · rename_i hst
    refine w.batch h hpc rfl ?_ ?_ hat.got trivial
    · exact (List.Sublist.refl _).append (List.sublist_cons_self _ _)
    · intro a ha hmem
      simp only [hand, ResendStage.current, List.mem_append, List.mem_cons, List.not_mem_nil,
        or_false, false_or] at hmem ⊢
      rcases hmem with hmem | rfl | hmem
      · exact .inl hmem
      · exact absurd ha (hnone hst)
      · exact .inr hmem
  · rename_i off len hst
    refine w.batch h hpc rfl (List.Sublist.refl _) (fun _ _ hmem => hmem) hat.got ?_
    exact fun _ => (hsome off len hst).2

theorem Window.resendGate (hpc : n.writer = .resend b .gate) (ok ok' : Bool) :
    (n.writerStep cfg ok ok').Window cfg := by
  have hat := w.at_
  rw [hpc] at hat
  have hback : Window cfg { n with writer := .resend b .putBack } :=
    w.batch h hpc rfl (List.Sublist.refl _) (fun _ _ hmem => hmem) hat.got trivial
  simp only [writerStep, hpc, resendStep]
  split
  · rename_i seq due hdue
    split
    · have heq : hand { b with due } (.extent seq .owner) = hand b .gate := by
        simp [hand, ResendStage.current, hdue]
      refine w.batch h hpc rfl (heq ▸ List.Sublist.refl _) (fun a _ hmem => ?_) hat.got trivial
      rw [heq]
      exact hmem
    · exact hback
  · exact hback

theorem Window.resendCopy (hpc : n.writer = .resend b (.copy seq off len)) (ok ok' : Bool) :
    (n.writerStep cfg ok ok').Window cfg := by
  have hat := w.at_
  rw [hpc] at hat
  simp only [writerStep, hpc, resendStep]
  refine w.batch h hpc rfl (List.Sublist.refl _) (fun _ _ hmem => hmem) hat.got fun hl => ?_
  have hlt := (hat.bounded seq (by simp [hand, ResendStage.current])).2
  have := below_le n n.send
  exact h.read_live hl (hat.at_ hl) (by omega)

variable {bytes : Bytes}

/-- The liveness of the frame in hand is looked at: it is let go of when it is
    not live. -/
theorem Window.letGo (hl : ¬ n.IsLive cfg seq)
    (hpc : n.writer = .resend b (.isLive seq bytes) ∨ n.writer = .resend b (.mark seq bytes)) :
    Window cfg { n with writer := .resend b .gate } := by
  have hdrop : ∀ a, n.IsLive cfg a → a ∈ b.got.map Prod.fst ++ (seq :: b.due) →
      a ∈ b.got.map Prod.fst ++ b.due := by
    intro a ha hmem
    rcases List.mem_append.mp hmem with hmem | hmem
    · exact List.mem_append_left _ hmem
    · rcases List.mem_cons.mp hmem with rfl | hmem
      · exact absurd ha hl
      · exact List.mem_append_right _ hmem
  have hsub : (b.got.map Prod.fst ++ b.due).Sublist (b.got.map Prod.fst ++ (seq :: b.due)) :=
    (List.Sublist.refl _).append (List.sublist_cons_self _ _)
  have hat := w.at_
  rcases hpc with hpc | hpc <;> rw [hpc] at hat <;>
    exact w.batch h hpc rfl hsub hdrop hat.got trivial

theorem Window.resendIsLive (hpc : n.writer = .resend b (.isLive seq bytes)) (ok ok' : Bool) :
    (n.writerStep cfg ok ok').Window cfg := by
  have hat := w.at_
  rw [hpc] at hat
  simp only [writerStep, hpc, resendStep]
  split
  · exact w.batch h hpc rfl (List.Sublist.refl _) (fun _ _ hmem => hmem) hat.got hat.at_
  · rename_i hl
    exact w.letGo h hl (.inl hpc)

theorem Window.resendMark (hpc : n.writer = .resend b (.mark seq bytes)) (ok ok' : Bool) :
    (n.writerStep cfg ok ok').Window cfg := by
  have hat := w.at_
  rw [hpc] at hat
  simp only [writerStep, hpc, resendStep]
  split
  · rename_i hl
    have hgot : ∀ p ∈ b.got ++ [(seq, bytes)], p.2 = n.frameOf cfg p.1 := by
      refine List.forall_mem_snoc hat.got ?_
      exact hat.at_ hl
    have heq : ∀ stage : ResendStage, ResendStage.current stage = [] →
        hand { b with got := b.got ++ [(seq, bytes)] } stage = hand b (.mark seq bytes) := by
      intro stage hcur
      rw [hand, hcur]
      simp [hand, ResendStage.current]
    cases ok
    · refine w.batch h hpc rfl ?_ ?_ hgot trivial
      · rw [heq _ rfl]
      · intro a _ hmem
        exact (heq .putBack rfl).symm ▸ hmem
    · refine w.batch h hpc rfl ?_ ?_ hgot trivial
      · rw [heq _ rfl]
      · intro a _ hmem
        exact (heq .gate rfl).symm ▸ hmem
  · rename_i hl
    exact w.letGo h hl (.inr hpc)

theorem Window.resendPutBack (hpc : n.writer = .resend b .putBack) (ok ok' : Bool) :
    (n.writerStep cfg ok ok').Window cfg := by
  obtain ⟨hat, hcov⟩ := w.known hpc
  have hhand : ∀ x, x ∈ hand b .putBack ↔ x ∈ b.got.map Prod.fst ∨ x ∈ b.due := by
    simp [hand, ResendStage.current]
  simp only [writerStep, hpc, resendStep]
  split
  · rename_i hnil
    exact w.batch h hpc rfl (List.Sublist.refl _) (fun _ _ hmem => hmem) hat.got hnil
  · have hgot : hand { b with due := [], still := true } .write = b.got.map Prod.fst := by
      simp [hand, ResendStage.current]
    have hsorted := hat.sorted
    refine w.move hpc _ (.resend _ .write) ?_ le_rfl ?_ rfl ?_
    · intro x hx
      rcases List.mem_append.mp hx with hx | hx
      · exact .inl hx
      · exact .inr (hat.bounded x ((hhand x).mpr (.inr (List.mem_of_mem_filter hx))))
    · intro a ha hlt
      rcases hcov a ha hlt with hmem | hmem | ⟨hs, hmem, hle⟩
      · exact .inl hmem
      · rcases (hhand a).mp hmem with hmem | hmem
        · exact .inr (.inl (hgot.symm ▸ hmem))
        · refine .inr (.inr ⟨rfl, ?_, ?_⟩)
          · by_cases hin : a ∈ n.retransmit
            · exact List.mem_append_left _ hin
            · exact List.mem_append_right _ (List.mem_filter.mpr ⟨hmem, by simpa using hin⟩)
          · rw [hgot]
            intro x hx
            exact (List.pairwise_append.mp hsorted).2.2 x hx a hmem
      · refine .inr (.inr ⟨rfl, List.mem_append_left _ hmem, ?_⟩)
        rw [hgot]
        exact fun x hx => hle x ((hhand x).mpr (.inl hx))
    · refine ⟨⟨hat.clean.broken, hat.clean.edge⟩, ?_, ?_, hat.got, rfl⟩
      · rw [hgot]
        exact (List.pairwise_append.mp hsorted).1
      · rw [hgot]
        exact fun x hx => hat.bounded x ((hhand x).mpr (.inl hx))

/-- Bytes are handed to the socket: the frames that they begin come after all
    lower live ones, and they go on where the connection ended. -/
theorem Window.hands (pc : WriterPc) {seqs : List ℕ} (ok : Bool)
    (hbound : n.bound n.writer ≤ n.bound pc)
    (hseqs : ∀ q ∈ seqs, cfg.firstSeq ≤ q ∧ q < cfg.firstSeq + n.bound pc)
    (hord : ∀ k b a : ℕ, seqs[k]? = some b → a < b → n.IsLive cfg a →
      a ∈ n.begun ∨ ∃ j < k, seqs[j]? = some a)
    (hcov : ∀ a, n.IsLive cfg a → a < cfg.firstSeq + n.reach pc → (n.handed seqs bytes).Covers pc a)
    (hfail : ∀ a, n.IsLive cfg a → a < cfg.firstSeq + n.below n.send →
      a ∈ n.begun ++ seqs ∨ a ∈ n.retransmit)
    (htail : (n.handed seqs bytes).Tail cfg (n.wireEnd pc)) (hend : n.wireEnd pc ≤ n.write)
    (hat : WriterAt cfg { n.handed seqs bytes with writer := pc } pc) :
    Window cfg
      (if ok then { n.handed seqs bytes with writer := pc } else (n.handed seqs bytes).failed) := by
  have h' : (n.handed seqs bytes).Framed cfg :=
    h.moved n.send n.retransmit n.needed n.closed n.writer n.reader _ _ _ n.broken le_rfl h.send
  have hexact := htail.exact h' hend
  have hbegun : ∀ b ∈ n.begun ++ seqs, b ∈ n.ever ++ seqs := by
    intro b hb
    rcases List.mem_append.mp hb with hb | hb
    · exact List.mem_append_left _ (w.begun b hb)
    · exact List.mem_append_right _ hb
  have hbounded : ∀ m, n.bound pc ≤ m →
      ∀ q, q ∈ n.ever ++ seqs ∨ q ∈ n.retransmit ∨ n.reader = .push q →
        cfg.firstSeq ≤ q ∧ q < cfg.firstSeq + m := by
    intro m hm q hq
    have hold : q ∈ n.ever ∨ q ∈ n.retransmit ∨ n.reader = .push q →
        cfg.firstSeq ≤ q ∧ q < cfg.firstSeq + m := by
      intro hq
      obtain ⟨h1, h2⟩ := w.bounded q hq
      exact ⟨h1, by omega⟩
    rcases hq with hq | hq
    · rcases List.mem_append.mp hq with hq | hq
      · exact hold (.inl hq)
      · obtain ⟨h1, h2⟩ := hseqs q hq
        exact ⟨h1, by omega⟩
    · exact hold (.inr hq)
  have hordered : ∀ k b a : ℕ, (n.begun ++ seqs)[k]? = some b → a < b → n.IsLive cfg a →
      ∃ j < k, (n.begun ++ seqs)[j]? = some a := by
    intro k b a hk hab ha
    rcases Nat.lt_or_ge k n.begun.length with hlt | hge
    · rw [List.getElem?_append_left hlt] at hk
      obtain ⟨j, hj, hget⟩ := w.ordered k b a hk hab ha
      exact ⟨j, hj, by rw [List.getElem?_append_left (hj.trans hlt)]; exact hget⟩
    · rw [List.getElem?_append_right hge] at hk
      rcases hord _ b a hk hab ha with hmem | ⟨j, hj, hget⟩
      · obtain ⟨j, hj, rfl⟩ := List.mem_iff_getElem.mp hmem
        refine ⟨j, by omega, ?_⟩
        rw [List.getElem?_append_left hj, List.getElem?_eq_getElem hj]
      · refine ⟨n.begun.length + j, by omega, ?_⟩
        rw [List.getElem?_append_right (Nat.le_add_right _ _), Nat.add_sub_cancel_left, hget]
  cases ok
  · refine ⟨hbegun, hbounded n.frames.length (bound_le n pc), hordered, ?_, ?_, ?_, ?_⟩
    · exact hfail
    · exact ⟨hexact.upper, hexact.lower⟩
    · intro hb
      cases hb
    · exact ⟨fun _ => rfl, fun hb => by cases hb⟩
  · refine ⟨hbegun, hbounded _ le_rfl, hordered, ?_, ?_, ?_, hat⟩
    · exact fun a ha hlt => (hcov a ha hlt).congr rfl rfl
    · exact ⟨hexact.upper, hexact.lower⟩
    · exact fun _ => ⟨htail.wire, htail.last⟩

theorem Window.resendWrite (hpc : n.writer = .resend b .write) (ok ok' : Bool) :
    (n.writerStep cfg ok ok').Window cfg := by
  obtain ⟨hat, hcov⟩ := w.known hpc
  have hdue : b.due = [] := hat.at_
  have hhand : hand b .write = b.got.map Prod.fst := by
    simp [hand, ResendStage.current, hdue]
  simp only [Covers, hhand] at hcov
  have hcovered : ∀ a, n.IsLive cfg a → a < cfg.firstSeq + n.below n.send →
      a ∈ n.begun ++ b.got.map Prod.fst ∨ b.still = true ∧ a ∈ n.retransmit := by
    intro a ha hlt
    rcases hcov a ha hlt with hmem | hmem | ⟨hs, hmem, -⟩
    · exact .inl (List.mem_append_left _ hmem)
    · exact .inl (List.mem_append_right _ hmem)
    · exact .inr ⟨hs, hmem⟩
  simp only [writerStep, hpc, resendStep]
  split
  · rename_i hnil
    refine w.setWriter h hpc (.afterResends b.still) le_rfl ?_ rfl hat.clean
    intro a ha hlt
    have := hcovered a ha hlt
    rw [hnil, List.map_nil, List.append_nil] at this
    cases hs : b.still with
    | false => exact this.resolve_right fun hc => by rw [hs] at hc; exact absurd hc.1 (by simp)
    | true => exact this.imp_right fun hc => hc.2
  · have hbounded := hat.bounded
    rw [hhand] at hbounded
    refine w.hands h (.afterResends b.still) ok (by rw [hpc]; rfl) hbounded ?_ ?_ ?_ ?_ h.send ?_
    · intro k x a hk hax ha
      have hmem := List.mem_of_getElem? hk
      have hx := (hbounded x hmem).2
      rcases hcov a ha (show a < cfg.firstSeq + n.below n.send by omega) with hbeg | hgot | ⟨-, -, hle⟩
      · exact .inl hbeg
      · obtain ⟨j, hj, hjget⟩ := List.mem_iff_getElem.mp hgot
        refine .inr ⟨j, ?_, by rw [List.getElem?_eq_getElem hj, hjget]⟩
        -- The batch is sorted, so the lower request stands before.
        by_contra hc
        have hsorted := hat.sorted
        rw [hhand] at hsorted
        obtain ⟨hk', hkget⟩ := List.getElem?_eq_some_iff.mp hk
        rcases Nat.lt_or_ge k j with hkj | hjk
        · have := List.pairwise_iff_getElem.mp hsorted k j hk' hj hkj
          omega
        · obtain rfl : j = k := by omega
          omega
      · have := hle x hmem
        omega
    · intro a ha hlt
      have := hcovered a ha hlt
      cases hs : b.still with
      | false => exact this.resolve_right fun hc => by rw [hs] at hc; exact absurd hc.1 (by simp)
      | true => exact this.imp_right fun hc => hc.2
    · exact fun a ha hlt => (hcovered a ha hlt).imp_right fun hc => hc.2
    · have htail := w.tail hat.clean.broken
      rw [hpc] at htail
      have hwire := htail.wire
      have hedge : n.Edge n.send := hat.clean.edge
      have hfr : (b.got.map Prod.fst).flatMap (n.frameOf cfg) = b.got.flatMap Prod.snd := by
        rw [List.flatMap_map]
        exact List.flatMap_congr fun p hp => (hat.got p hp).symm
      refine ⟨?_, fun hc => absurd hedge hc⟩
      show n.wire ++ b.got.flatMap Prod.snd ++
        Blocks.range n.frames.flatten n.send (Blocks.start n.frames (n.below n.send)) =
          (n.begun ++ b.got.map Prod.fst).flatMap (n.frameOf cfg)
      simp only [wireEnd] at hwire
      rw [← hedge, Blocks.range_self, List.append_nil] at hwire ⊢
      rw [List.flatMap_append, hfr, hwire]
    · exact ⟨hat.clean.broken, hat.clean.edge⟩

theorem Window.resend {stage : ResendStage} (hpc : n.writer = .resend b stage) (ok ok' : Bool) :
    (n.writerStep cfg ok ok').Window cfg := by
  cases stage with
  | gate => exact w.resendGate h hpc ok ok'
  | extent seq stage => exact w.extentOf h hpc ok ok'
  | copy seq off len => exact w.resendCopy h hpc ok ok'
  | isLive seq bytes => exact w.resendIsLive h hpc ok ok'
  | mark seq bytes => exact w.resendMark h hpc ok ok'
  | putBack => exact w.resendPutBack h hpc ok ok'
  | write => exact w.resendWrite h hpc ok ok'

theorem Window.afterResends {still : Bool} (hpc : n.writer = .afterResends still) (ok ok' : Bool) :
    (n.writerStep cfg ok ok').Window cfg := by
  obtain ⟨hat, hcov⟩ := w.known hpc
  simp only [writerStep, hpc]
  split
  · refine w.setWriter h hpc .top ?_ ?_ rfl ⟨?_, fun _ => hat.edge⟩
    · simp only [bound, hat.broken]
      exact le_rfl
    · intro a ha hlt
      cases still
      · exact .inl (hcov a ha hlt)
      · exact hcov a ha hlt
    · intro hb
      rw [hat.broken] at hb
      cases hb
  · rename_i hno
    obtain rfl : still = false := by simpa using fun hc => hno (.inr hc)
    exact w.setWriter h hpc .flushLimit le_rfl hcov rfl hat

end

end RemoteLink

end Remote

end UltimaCluster
