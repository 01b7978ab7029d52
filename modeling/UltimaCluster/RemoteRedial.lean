/-
  The writer of the remote client over whole runs: the drain of the ring, the
  redial, and the window in every state.
-/
import UltimaCluster.RemoteResend

namespace UltimaCluster

open Blocks (range range_append start_append start_length start_mono start_succ startsBelow
  startsBelow_mono)

namespace Remote

namespace RemoteLink

variable {cfg : LinkConfig} {n n' : RemoteLink}

/-! ## The drain -/

section

variable (w : n.Window cfg) (h : n.Framed cfg)

include h

theorem Framed.below_write : n.below n.write = n.frames.length := by
  rw [below, h.write, ← start_length, Blocks.startsBelow_start h.frames_ne le_rfl]

theorem Framed.edge_write : n.Edge n.write := by
  rw [Edge, h.below_write, start_length, h.write]

theorem Framed.edge_start {i : ℕ} (hi : i ≤ n.frames.length) : n.Edge (Blocks.start n.frames i) := by
  rw [Edge, below, Blocks.startsBelow_start h.frames_ne hi]

theorem Framed.le_start {pos : ℕ} (hp : pos ≤ n.write) :
    pos ≤ Blocks.start n.frames (n.below pos) :=
  Blocks.le_start_startsBelow (h.write ▸ hp)

/-- `flush_limit` ends with a frame. -/
theorem Framed.draining (hc : n.Clean) (proven gate : Bool) :
    n.Draining (n.flushLimit cfg proven gate) n.send := by
  have hsend : n.Draining n.send n.send := ⟨hc.broken, le_rfl, le_rfl, h.send, hc.edge⟩
  unfold flushLimit
  split
  · exact ⟨hc.broken, le_rfl, h.send, le_rfl, h.edge_write⟩
  · split
    · exact hsend
    · have hpos : 0 < frameHeaderLen := by decide
      -- The send position is the start of a frame, whose length is in its header.
      have hstart : n.send = Blocks.start n.frames (n.below n.send) := hc.edge
      have hi : n.below n.send < n.frames.length := by
        refine lt_of_le_of_ne (below_le n _) fun heq => ?_
        rw [heq, start_length, ← h.write] at hstart
        omega
      have hget : n.frames[n.below n.send]? = some n.frames[n.below n.send] :=
        List.getElem?_eq_getElem hi
      have hgood := h.good _ (List.getElem_mem hi)
      generalize n.frames[n.below n.send] = f at hget hgood
      have hsucc := start_succ hget
      rw [← hstart] at hsucc
      have hhead : CellRing.read cfg.capacity n.ring n.send frameHeaderLen = f.take frameHeaderLen := by
        have hblock := Blocks.range_block hget
        rw [← hstart, hsucc, range, Nat.add_sub_cancel_left] at hblock
        rw [h.read h.ack (by omega), range, Nat.add_sub_cancel_left, ← hblock, List.take_take,
          min_eq_left hgood.header]
      rw [hhead, hgood.length]
      have hend : n.send + (frameHeaderLen + (f.length - frameHeaderLen)) =
          Blocks.start n.frames (n.below n.send + 1) := by
        have := hgood.header
        omega
      have hle : Blocks.start n.frames (n.below n.send + 1) ≤ n.write := by
        rw [h.write, ← start_length]
        exact start_mono hi
      dsimp only
      rw [hend, min_eq_left hle]
      exact ⟨hc.broken, le_rfl, by omega, hle, h.edge_start hi⟩

include w

theorem Window.flushLimit (hpc : n.writer = .flushLimit) (ok ok' : Bool) :
    (n.writerStep cfg ok ok').Window cfg := by
  obtain ⟨hat, hcov⟩ := w.known hpc
  simp only [writerStep, hpc]
  exact w.setWriter h hpc (.peek _) le_rfl hcov rfl (h.draining hat ok ok')

omit w h in
theorem getElem?_startsIn {s e k b : ℕ} (hk : (n.startsIn cfg s e)[k]? = some b) :
    b = cfg.firstSeq + (n.below s + k) ∧ n.below s + k < n.below e := by
  have hlt := (List.getElem?_eq_some_iff.mp hk).1
  simp only [startsIn, List.length_map, List.length_range'] at hlt
  simp only [startsIn, List.getElem?_map, List.getElem?_range' hlt, Option.map_some, Option.some.injEq,
    Nat.one_mul] at hk
  exact ⟨hk.symm, by simp only [below]; omega⟩

omit w h in
theorem startsIn_getElem? {s e k : ℕ} (hk : n.below s + k < n.below e) :
    (n.startsIn cfg s e)[k]? = some (cfg.firstSeq + (n.below s + k)) := by
  simp only [below] at hk
  simp only [startsIn, List.getElem?_map]
  rw [List.getElem?_range' (by omega), Option.map_some, Nat.one_mul]
  rfl

omit w h in
theorem mem_startsIn {s e q : ℕ} :
    q ∈ n.startsIn cfg s e ↔ cfg.firstSeq + n.below s ≤ q ∧ q < cfg.firstSeq + n.below e := by
  constructor
  · intro hq
    obtain ⟨k, hk⟩ := List.mem_iff_getElem?.mp hq
    obtain ⟨hb, hlt⟩ := getElem?_startsIn hk
    omega
  · rintro ⟨h1, h2⟩
    obtain ⟨k, rfl⟩ := Nat.exists_eq_add_of_le h1
    have hget : (n.startsIn cfg s e)[k]? = _ := startsIn_getElem? (by omega)
    rw [← Nat.add_assoc] at hget
    exact List.mem_of_getElem? hget

omit w in
theorem Tail.chunk {k : ℕ} (ht : n.Tail cfg n.send) (hk : 0 < k) (hle : n.send + k ≤ n.write) :
    Tail cfg (n.handed (n.startsIn cfg n.send (n.send + k))
      (CellRing.read cfg.capacity n.ring n.send k)) (n.send + k) := by
  have hmono : n.below n.send ≤ n.below (n.send + k) :=
    startsBelow_mono h.frames_ne (Nat.le_add_right _ _)
  have hj := below_le n (n.send + k)
  have hi := h.le_start h.send
  refine ⟨?_, ?_⟩
  · show n.wire ++ CellRing.read cfg.capacity n.ring n.send k ++
      range n.frames.flatten (n.send + k) (Blocks.start n.frames (n.below (n.send + k))) =
        (n.begun ++ n.startsIn cfg n.send (n.send + k)).flatMap (n.frameOf cfg)
    have hnew : (n.startsIn cfg n.send (n.send + k)).flatMap (n.frameOf cfg) =
        range n.frames.flatten (Blocks.start n.frames (n.below n.send))
          (Blocks.start n.frames (n.below (n.send + k))) := by
      rw [Blocks.range_blocks hmono hj, startsIn, List.flatMap_map]
      exact List.flatMap_congr fun i _ => by rw [frameOf, Nat.add_sub_cancel_left]
    rw [List.append_assoc, h.read h.ack hle,
      range_append (Nat.le_add_right _ _) (h.le_start hle), List.flatMap_append, ← ht.wire,
      List.append_assoc, hnew, range_append hi (start_mono hmono)]
  · intro hedge
    show (n.begun ++ n.startsIn cfg n.send (n.send + k)).getLast? =
      some (cfg.firstSeq + n.below (n.send + k) - 1)
    rcases Nat.lt_or_ge (n.below n.send) (n.below (n.send + k)) with hlt | hge
    · -- The last frame begins in the chunk.
      have hlast : (n.startsIn cfg n.send (n.send + k))[n.below (n.send + k) - n.below n.send - 1]? =
          _ := startsIn_getElem? (by omega)
      have hlen : (n.startsIn cfg n.send (n.send + k)).length =
          n.below (n.send + k) - n.below n.send := by
        simp [startsIn, below]
      rw [List.getLast?_append, List.getLast?_eq_getElem?, hlen, hlast, Option.some_or,
        Option.some.injEq]
      omega
    · -- The chunk is within the frame that was begun before.
      have heq : n.below (n.send + k) = n.below n.send := by omega
      have hnil : n.startsIn cfg n.send (n.send + k) = [] := by
        rw [startsIn, show startsBelow n.frames (n.send + k) - startsBelow n.frames n.send = 0
          by simp only [below] at heq; omega]
        rfl
      rw [hnil, List.append_nil, heq]
      refine ht.last fun hsend => ?_
      have hlt : n.below n.send < n.frames.length := by
        refine lt_of_le_of_ne (below_le n _) fun hall => ?_
        rw [Edge, hall, start_length, ← h.write] at hsend
        omega
      have := (Blocks.lt_startsBelow h.frames_ne (i := n.below n.send) (p := n.send + k)).mpr
        ⟨hlt, by rw [← hsend]; omega⟩
      simp only [below] at heq this
      omega

theorem Window.peek {limit : ℕ} (hpc : n.writer = .peek limit) (ok ok' : Bool) :
    (n.writerStep cfg ok ok').Window cfg := by
  obtain ⟨hat, hcov⟩ := w.known hpc
  have hcov : ∀ a, n.IsLive cfg a → a < cfg.firstSeq + n.below n.send → a ∈ n.begun := hcov
  simp only [writerStep, hpc]
  split
  · rename_i hzero
    have hedge : n.Edge n.send := by
      have hlimit : limit ≤ n.send := by
        have hroom := h.room
        have hack := h.ack
        have hw := hat.limit_le
        rcases Nat.eq_zero_or_pos cfg.capacity with hc | hc
        · omega
        · have := Nat.mod_lt n.send hc
          simp only [peekUpto] at hzero
          omega
      have := hat.edge
      rwa [← le_antisymm hat.le_limit hlimit] at this
    refine w.setWriter h hpc .top ?_ (fun a ha hlt => .inl (hcov a ha hlt)) rfl ⟨?_, fun _ => hedge⟩
    · simp only [bound, hat.broken]
      exact le_rfl
    · intro hb
      rw [hat.broken] at hb
      cases hb
  · rename_i hk
    have hpos : 0 < n.peekUpto cfg limit := Nat.pos_of_ne_zero hk
    have hlimit : n.send + n.peekUpto cfg limit ≤ limit := by
      have := hat.le_limit
      simp only [peekUpto]
      omega
    have hle := hlimit.trans hat.limit_le
    generalize n.peekUpto cfg limit = k at hpos hlimit hle
    have hmono : n.below n.send ≤ n.below (n.send + k) :=
      startsBelow_mono h.frames_ne (Nat.le_add_right _ _)
    have htail := w.tail hat.broken
    rw [hpc] at htail
    refine w.hands h (.consume limit k) ok (by rw [hpc]; exact hmono) ?_ ?_ ?_ ?_
      (htail.chunk h hpos hle) hle ?_
    · intro q hq
      have := mem_startsIn.mp hq
      exact ⟨by omega, this.2⟩
    · intro i b a hi hab ha
      obtain ⟨hb, hlt⟩ := getElem?_startsIn hi
      rcases Nat.lt_or_ge a (cfg.firstSeq + n.below n.send) with hold | hnew
      · exact .inl (hcov a ha hold)
      · refine .inr ⟨a - (cfg.firstSeq + n.below n.send), by omega, ?_⟩
        rw [startsIn_getElem? (by omega), Option.some.injEq]
        omega
    · intro a ha hlt
      rcases Nat.lt_or_ge a (cfg.firstSeq + n.below n.send) with hold | hnew
      · exact List.mem_append_left _ (hcov a ha hold)
      · exact List.mem_append_right _ (mem_startsIn.mpr ⟨hnew, hlt⟩)
    · exact fun a ha hlt => .inl (List.mem_append_left _ (hcov a ha hlt))
    · exact { hat with send_le := Nat.le_add_right _ _, le_limit := hlimit }

omit h in
theorem Window.consume {limit k : ℕ} (hpc : n.writer = .consume limit k) (ok ok' : Bool) :
    (n.writerStep cfg ok ok').Window cfg := by
  have hat := w.at_
  have hcov := w.covered
  have htail := w.tail
  have hbounded := w.bounded
  rw [hpc] at hat hcov htail hbounded
  simp only [writerStep, hpc]
  exact ⟨w.begun, hbounded, w.ordered, hcov, ⟨w.exact.upper, w.exact.lower⟩,
    fun hb => ⟨(htail hb).wire, (htail hb).last⟩, { hat with send_le := le_rfl }⟩

/-! ## The redial -/

theorem Window.dial (hpc : n.writer = .dial) (ok ok' : Bool) :
    (n.writerStep cfg ok ok').Window cfg := by
  have hcov := w.covered
  have hbounded := w.bounded
  have htail := w.tail
  rw [hpc] at hcov hbounded htail
  simp only [writerStep, hpc]
  split
  · exact w.setWriter h hpc .stopped le_rfl hcov rfl trivial
  · split
    · exact ⟨w.begun, hbounded, w.ordered, hcov, ⟨w.exact.upper, w.exact.lower⟩,
        fun hb => ⟨(htail hb).wire, (htail hb).last⟩, trivial⟩
    · split
      · exact ⟨w.begun, hbounded, w.ordered, hcov, ⟨w.exact.upper, w.exact.lower⟩,
          fun hb => ⟨(htail hb).wire, (htail hb).last⟩, trivial⟩
      · exact w

theorem Window.last (hpc : n.writer = .last) (ok ok' : Bool) :
    (n.writerStep cfg ok ok').Window cfg := by
  have hcov := w.covered
  rw [hpc] at hcov
  simp only [writerStep, hpc]
  exact w.setWriter h hpc (.snapshot _) le_rfl hcov rfl trivial

theorem Window.snapshot {last : ℕ} (hpc : n.writer = .snapshot last)
    (hlast : cfg.firstSeq + n.frames.length ≤ last) (ok ok' : Bool) :
    (n.writerStep cfg ok ok').Window cfg := by
  have hcov := w.covered
  rw [hpc] at hcov
  simp only [writerStep, hpc]
  refine w.setWriter h hpc (.oldest last n.write) ?_ hcov rfl ⟨le_rfl, h.send, h.edge_write, ?_⟩
  · rw [bound, bound, h.below_write]
  · rw [h.below_write]
    exact hlast

theorem Window.oldest {last snapshot : ℕ} (hpc : n.writer = .oldest last snapshot) (ok ok' : Bool) :
    (n.writerStep cfg ok ok').Window cfg := by
  obtain ⟨hat, hcov⟩ := w.known hpc
  simp only [writerStep, hpc]
  refine w.setWriter h hpc (.scan _ _) le_rfl hcov rfl ⟨hat, by simp, ?_⟩
  intro a ha hlt _
  have h1 := h.oldest.2 a ha
  have h2 := (h.live_lt ha).1
  have h3 := cfg.firstSeq_pos
  omega

theorem Window.scan {s : Scan} {seq : ℕ} (hpc : n.writer = .scan s seq) (ok ok' : Bool) :
    (n.writerStep cfg ok ok').Window cfg := by
  obtain ⟨hat, hcov⟩ := w.known hpc
  simp only [writerStep, hpc]
  split
  · exact w.setWriter h hpc (.extent s seq .owner) le_rfl hcov rfl ⟨hat, trivial⟩
  · refine w.setWriter h hpc (.replace s) le_rfl hcov rfl fun seq' => ?_
    refine ⟨hat.snapped, hat.requeue, fun a ha _ hlt => ?_⟩
    have := hat.snapped.last
    exact hat.live a ha (by omega) hlt

omit w in
theorem Framed.end_le {seq off len snapshot : ℕ} (hlies : n.Lies cfg seq off len)
    (hs : n.Edge snapshot) :
    off + len ≤ snapshot ↔ seq < cfg.firstSeq + n.below snapshot := by
  obtain ⟨hfirst, hoff, f, hget, hlen⟩ := hlies
  have hlt := (List.getElem?_eq_some_iff.mp hget).1
  have hle : n.below snapshot ≤ n.frames.length := below_le n _
  have hstart : snapshot = Blocks.start n.slotted (n.below snapshot) := by
    rw [slotted, start_append hle]
    exact hs
  have hiff := Blocks.start_le_iff h.slotted_ne (i := seq - cfg.firstSeq + 1)
    (j := n.below snapshot) hlt
  rw [← hstart, start_succ hget, ← hoff, ← hlen] at hiff
  rw [hiff]
  omega

theorem Window.extent {s : Scan} {seq : ℕ} {stage : ExtentStage}
    (hpc : n.writer = .extent s seq stage) (ok ok' : Bool) :
    (n.writerStep cfg ok ok').Window cfg := by
  obtain ⟨hat, hcov⟩ := w.known hpc
  obtain ⟨hscan, hstage⟩ := hat
  obtain ⟨hinl, hnone, hsome⟩ := h.liveExtent hstage
  simp only [writerStep, hpc]
  split
  · rename_i st hst
    exact w.setWriter h hpc (.extent s seq st) le_rfl hcov rfl ⟨hscan, hinl st hst⟩
  · rename_i hst
    refine w.setWriter h hpc (.scan s (seq + 1)) le_rfl hcov rfl
      ⟨hscan.snapped, hscan.requeue, fun a ha hlt hlt' => ?_⟩
    rcases Nat.lt_succ_iff_lt_or_eq.mp hlt with hlt | rfl
    · exact hscan.live a ha hlt hlt'
    · exact absurd ha (hnone hst)
  · rename_i off len hst
    obtain ⟨hl, hlies⟩ := hsome off len hst
    have hend := h.end_le hlies hscan.snapped.edge
    split
    · -- The frame is past the snapshot, and so are all that come after it.
      refine w.setWriter h hpc (.replace s) le_rfl hcov rfl fun seq' => ?_
      refine ⟨hscan.snapped, hscan.requeue, fun a ha _ hlt => ?_⟩
      exact hscan.live a ha (by omega) hlt
    · have hlt := hend.mp (by omega)
      refine w.setWriter h hpc (.scan _ (seq + 1)) le_rfl hcov rfl ⟨hscan.snapped, ?_, ?_⟩
      · refine List.forall_mem_snoc hscan.requeue ?_
        exact ⟨hlies.first, hlt⟩
      · intro a ha hle hlt'
        rcases Nat.lt_succ_iff_lt_or_eq.mp hle with hle | rfl
        · exact List.mem_append_left _ (hscan.live a ha hle hlt')
        · exact List.mem_concat_self

omit h in
theorem Window.replace {s : Scan} (hpc : n.writer = .replace s) (ok ok' : Bool) :
    (n.writerStep cfg ok ok').Window cfg := by
  have hat := w.at_
  rw [hpc] at hat
  simp only [writerStep, hpc]
  refine w.move hpc s.requeue (.setSend s) (fun x hx => .inr ((hat 0).requeue x hx)) le_rfl ?_
    rfl ?_
  · exact fun a ha hlt => (hat (a + 1)).live a ha (Nat.lt_succ_self a) hlt
  · have hs := (hat 0).snapped
    exact ⟨hs.le, hs.send, hs.edge, hs.last⟩

omit h in
theorem Window.setSend {s : Scan} (hpc : n.writer = .setSend s) (ok ok' : Bool) :
    (n.writerStep cfg ok ok').Window cfg := by
  have hat := w.at_
  have hcov := w.covered
  have hbounded := w.bounded
  rw [hpc] at hat hcov hbounded
  have hedge : n.Edge s.snapshot := hat.edge
  simp only [writerStep, hpc, max_eq_right hat.send]
  refine ⟨by simp, hbounded, by simp, ?_, ⟨List.nil_prefix, List.nil_prefix⟩, ?_, ?_⟩
  · exact fun a ha hlt => .inr (hcov a ha hlt)
  · refine fun _ => ⟨?_, fun hc => absurd hedge hc⟩
    show [] ++ range n.frames.flatten s.snapshot (Blocks.start n.frames (n.below s.snapshot)) = _
    rw [← hedge, Blocks.range_self]
    rfl
  · refine ⟨fun hb => ?_, fun _ => hedge⟩
    cases hb

theorem Window.writerStep (ok ok' : Bool) (ho : n.Orderly cfg (.writer ok ok')) :
    (n.writerStep cfg ok ok').Window cfg := by
  simp only [Orderly] at ho
  cases hpc : n.writer with
  | top => exact w.top h hpc ok ok'
  | sort => exact w.sort h hpc ok ok'
  | notBefore due taken => exact w.notBefore h hpc ok ok'
  | late due taken => exact w.late h hpc ok ok'
  | alive due taken => exact w.alive h hpc ok ok'
  | drop due taken => exact w.drop hpc ok ok'
  | resend b stage => exact w.resend h hpc ok ok'
  | afterResends still => exact w.afterResends h hpc ok ok'
  | flushLimit => exact w.flushLimit h hpc ok ok'
  | peek limit => exact w.peek h hpc ok ok'
  | consume limit k => exact w.consume hpc ok ok'
  | dial => exact w.dial h hpc ok ok'
  | last => exact w.last h hpc ok ok'
  | snapshot last =>
    rw [hpc] at ho
    exact w.snapshot h hpc (ho last rfl) ok ok'
  | oldest last snapshot => exact w.oldest h hpc ok ok'
  | scan s seq => exact w.scan h hpc ok ok'
  | extent s seq stage => exact w.extent h hpc ok ok'
  | replace s => exact w.replace hpc ok ok'
  | setSend s => exact w.setSend hpc ok ok'
  | stopped =>
    simp only [RemoteLink.writerStep, hpc]
    exact w

/-! ## Runs -/

omit w h in
theorem Covers.mono {pc : WriterPc} {a : ℕ} (hc : n.Covers pc a) (hb : ∀ x ∈ n.begun, x ∈ n'.begun)
    (hr : ∀ x ∈ n.retransmit, x ∈ n'.retransmit) : n'.Covers pc a := by
  have hor : a ∈ n.begun ∨ a ∈ n.retransmit → a ∈ n'.begun ∨ a ∈ n'.retransmit :=
    Or.imp (hb a) (hr a)
  cases pc with
  | resend b stage =>
    rcases hc with hmem | hmem | ⟨hs, hmem, hle⟩
    · exact .inl (hb a hmem)
    · exact .inr (.inl hmem)
    · exact .inr (.inr ⟨hs, hr a hmem, hle⟩)
  | afterResends still =>
    cases still
    · exact hb a hc
    · exact hor hc
  | flushLimit | peek limit | consume limit k => exact hb a hc
  | setSend s => exact hr a hc
  | _ => exact hor hc

theorem Window.send_le (ok ok' : Bool) :
    n.send ≤ (n.writerStep cfg ok ok').send ∧ (n.writerStep cfg ok ok').send ≤ n.write := by
  have hat := w.at_
  have hsend : n.send ≤ n.send ∧ n.send ≤ n.write := ⟨le_rfl, h.send⟩
  cases hpc : n.writer with
  | consume limit k =>
    rw [hpc] at hat
    simp only [RemoteLink.writerStep, hpc]
    exact ⟨Nat.le_add_right _ _, hat.le_limit.trans hat.limit_le⟩
  | setSend s =>
    rw [hpc] at hat
    simp only [RemoteLink.writerStep, hpc, max_eq_right hat.send]
    exact ⟨hat.send, hat.le⟩
  | _ =>
    simp only [RemoteLink.writerStep, hpc, resendStep, handed, failed]
    repeat' split
    all_goals exact hsend

theorem Window.framed_writerStep (ok ok' : Bool) : (n.writerStep cfg ok ok').Framed cfg := by
  have hshape : n.writerStep cfg ok ok' = { n with
        send := (n.writerStep cfg ok ok').send
        retransmit := (n.writerStep cfg ok ok').retransmit
        needed := (n.writerStep cfg ok ok').needed
        closed := (n.writerStep cfg ok ok').closed
        writer := (n.writerStep cfg ok ok').writer
        reader := n.reader
        begun := (n.writerStep cfg ok ok').begun
        wire := (n.writerStep cfg ok ok').wire
        ever := (n.writerStep cfg ok ok').ever
        broken := (n.writerStep cfg ok ok').broken } := by
    unfold RemoteLink.writerStep resendStep handed failed
    dsimp only
    repeat' split
    all_goals rfl
  obtain ⟨hle, hw⟩ := w.send_le h ok ok'
  rw [hshape]
  exact h.moved _ _ _ _ _ _ _ _ _ _ hle hw

theorem Window.push (hlock : n.writer.locks = false) : (step cfg n .push).Window cfg := by
  simp only [step]
  split
  · rename_i seq hread
    have hseq := w.bounded seq (.inr (.inr hread))
    generalize hq : (if seq ∈ n.retransmit then n.retransmit else n.retransmit ++ [seq]) = q
    have hsub : ∀ x ∈ n.retransmit, x ∈ q := by
      intro x hx
      rw [← hq]
      split
      · exact hx
      · exact List.mem_append_left _ hx
    have hback : ∀ x ∈ q, x ∈ n.retransmit ∨ x = seq := by
      intro x hx
      rw [← hq] at hx
      split at hx
      · exact .inl hx
      · simpa using hx
    have hbound : ∀ x ∈ n.retransmit, x < cfg.firstSeq + n.frames.length := by
      intro x hx
      have := bound_le n n.writer
      have := (w.bounded x (.inr (.inl hx))).2
      omega
    have h' : Framed cfg { n with retransmit := q, writer := n.writer } :=
      h.moved n.send q n.needed n.closed n.writer n.reader n.begun n.wire n.ever n.broken le_rfl h.send
    have hmove : Window cfg { n with retransmit := q, writer := n.writer } := by
      refine w.move rfl q n.writer (fun x hx => (hback x hx).imp_right ?_) le_rfl ?_ rfl ?_
      · rintro rfl
        exact hseq
      · exact fun a ha hlt => (w.covered a ha hlt).mono (fun _ hx => hx) hsub
      · have g : Grows cfg n { n with retransmit := q, writer := n.writer } :=
          grows_of_eq rfl rfl rfl rfl rfl id
        refine g.writerAt h h' (fun hl => ?_) hbound w.at_
        rw [hlock] at hl
        cases hl
    have g : Grows cfg { n with retransmit := q, writer := n.writer }
        { n with retransmit := q, reader := .idle } := grows_of_eq rfl rfl rfl rfl rfl id
    refine g.window h' ⟨rfl, rfl, rfl, rfl, rfl⟩ ?_ hmove ?_
    · exact h.moved n.send q n.needed n.closed n.writer .idle n.begun n.wire n.ever n.broken le_rfl h.send
    · intro x hx
      cases hx
  · exact w

theorem Window.step {st : LinkStep} (hp : n.Possible st) (ho : n.Orderly cfg st) :
    (step cfg n st).Framed cfg ∧ (step cfg n st).Window cfg := by
  cases st with
  | send r =>
    simp only [RemoteLink.step]
    split
    · exact ⟨h, w⟩
    · have hidle : n.sub = .idle := hp
      have h' : Framed cfg { n with sub := .walk r n.reclaimSeq } :=
        h.setSub hidle _ (.inr rfl) rfl rfl h.reclaimSeq
      have g : Grows cfg n { n with sub := .walk r n.reclaimSeq } :=
        grows_quiet (by rw [hidle]; rfl) rfl rfl (fun _ ha => ha) rfl rfl id
      exact ⟨h', g.window h ⟨rfl, rfl, rfl, rfl, rfl⟩ h' w fun q hq => .inl hq⟩
  | submitter ok =>
    refine ⟨h.submitter ok, ?_⟩
    exact (grows_submitter h ok).window h (spares_submitter n ok) (h.submitter ok) w
      fun q hq => .inl (submitter_reader n ok ▸ hq)
  | writer ok ok' => exact ⟨w.framed_writerStep h ok ok', w.writerStep h ok ok' ho⟩
  | resolve seq =>
    refine ⟨h.resolve seq, ?_⟩
    refine (grows_resolve n seq).window h (spares_resolve n seq) (h.resolve seq) w fun q hq => .inl ?_
    simp only [RemoteLink.step] at hq
    split at hq <;> exact hq
  | retry seq =>
    simp only [RemoteLink.step]
    split
    · have h' : Framed cfg { n with reader := .push seq } :=
        h.moved n.send n.retransmit n.needed n.closed n.writer (.push seq) n.begun n.wire n.ever n.broken
          le_rfl h.send
      have g : Grows cfg n { n with reader := .push seq } := grows_of_eq rfl rfl rfl rfl rfl id
      refine ⟨h', g.window h ⟨rfl, rfl, rfl, rfl, rfl⟩ h' w fun q hq => .inr ?_⟩
      injection hq with hq
      exact hq ▸ hp.2
    · exact ⟨h, w⟩
  | push =>
    refine ⟨?_, w.push h hp⟩
    simp only [RemoteLink.step]
    split
    · exact h.moved n.send _ n.needed n.closed n.writer .idle n.begun n.wire n.ever n.broken le_rfl h.send
    · exact h
  | requestRedial =>
    have h' : Framed cfg { n with needed := true } :=
      h.moved n.send n.retransmit true n.closed n.writer n.reader n.begun n.wire n.ever n.broken le_rfl
        h.send
    have g : Grows cfg n { n with needed := true } := grows_of_eq rfl rfl rfl rfl rfl fun _ => rfl
    exact ⟨h', g.window h ⟨rfl, rfl, rfl, rfl, rfl⟩ h' w fun q hq => .inl hq⟩
  | close =>
    have h' : Framed cfg { n with closed := true } :=
      h.moved n.send n.retransmit n.needed true n.writer n.reader n.begun n.wire n.ever n.broken le_rfl
        h.send
    have g : Grows cfg n { n with closed := true } := grows_of_eq rfl rfl rfl rfl rfl id
    exact ⟨h', g.window h ⟨rfl, rfl, rfl, rfl, rfl⟩ h' w fun q hq => .inl hq⟩

end

theorem window_start : (start cfg).Window cfg := by
  refine ⟨by simp [start], ?_, by simp [start], ?_, ⟨List.nil_prefix, List.nil_prefix⟩, ?_, ?_⟩
  · rintro q (hq | hq | hq) <;> cases hq
  · intro a ha
    cases ha
  · exact fun _ => ⟨rfl, fun hc => absurd rfl hc⟩
  · exact ⟨fun hb => (by cases hb), fun _ => rfl⟩

/-! ## What is sent -/

/-- The frame that is staged is that of a request, under the next sequence
    number; and so was each before it. -/
structure Numbered (cfg : LinkConfig) (n : RemoteLink) : Prop where
  frames : ∀ (i : ℕ) f, n.frames[i]? = some f →
    ∃ r : Request, f = r.frame cfg.clientId (cfg.firstSeq + i)
  staged : n.sub.staged ≠ [] →
    ∃ r : Request, n.sub.staged = r.frame cfg.clientId (cfg.firstSeq + n.frames.length)

/-- The re-send queue, with what the writer took of it. -/
def queued (n : RemoteLink) : List ℕ :=
  match n.writer with
  | .resend b stage => n.retransmit ++ hand b stage
  | _ => n.retransmit

/-- The window is sent complete and in order. -/
structure Sent (cfg : LinkConfig) (n : RemoteLink) : Prop where
  /-- A frame was begun after those of all lower live requests. -/
  ordered : ∀ k b a : ℕ, n.begun[k]? = some b → a < b → n.IsLive cfg a →
    ∃ j < k, n.begun[j]? = some a
  covered : ∀ a, n.IsLive cfg a → a ∈ n.queued ∨ n.send ≤ n.off (index cfg a) ∨ a ∈ n.begun
  /-- The frames of the connection are those that were staged. -/
  exact : n.Exact cfg
  numbered : ∀ b ∈ n.begun, ∃ r : Request, n.frameOf cfg b = r.frame cfg.clientId b

theorem Numbered.quiet (hn : n.Numbered cfg) (hfr : n'.frames = n.frames)
    (hst : n'.sub.staged = n.sub.staged ∨ n'.sub.staged = []) : n'.Numbered cfg := by
  refine ⟨by rw [hfr]; exact hn.frames, fun hne => ?_⟩
  rcases hst with hst | hst
  · rw [hst] at hne ⊢
    rw [hfr]
    exact hn.staged hne
  · exact absurd hst hne

theorem Numbered.submitter (hn : n.Numbered cfg) (h : n.Framed cfg) (ok : Bool) :
    (n.submitter cfg ok).Numbered cfg := by
  cases hsub : n.sub with
  | stage r =>
    have hseq := h.seqNext
    simp only [hsub, SubPc.issued, Nat.add_zero] at hseq
    simp only [RemoteLink.submitter, hsub]
    split
    · exact hn.quiet rfl (.inr rfl)
    · exact ⟨hn.frames, fun _ => ⟨r, by rw [← hseq]; rfl⟩⟩
  | commit f =>
    simp only [RemoteLink.submitter, hsub]
    have hat := h.subAt
    have hst := hn.staged
    rw [hsub] at hat hst
    refine ⟨fun i g hg => ?_, fun hne => absurd rfl hne⟩
    rcases Nat.lt_or_ge i n.frames.length with hi | hi
    · rw [List.getElem?_append_left hi] at hg
      exact hn.frames i g hg
    · have hlt := (List.getElem?_eq_some_iff.mp hg).1
      rw [List.length_append, List.length_singleton] at hlt
      obtain rfl : i = n.frames.length := by omega
      rw [List.getElem?_concat_length, Option.some.injEq] at hg
      exact hg ▸ hst hat.ne_nil
  | extent r seq stage =>
    simp only [RemoteLink.submitter, hsub]
    split <;> exact hn.quiet rfl (.inr rfl)
  | floor r seq =>
    simp only [RemoteLink.submitter, hsub]
    refine hn.quiet rfl (.inr ?_)
    split <;> rfl
  | walk r seq | admission r | isFree r =>
    simp only [RemoteLink.submitter, hsub]
    split <;> exact hn.quiet rfl (.inr rfl)
  | idle =>
    simp only [RemoteLink.submitter, hsub]
    exact hn
  | release r pos | ack r target =>
    simp only [RemoteLink.submitter, hsub]
    exact hn.quiet rfl (.inr rfl)
  | count f | reserve f =>
    simp only [RemoteLink.submitter, hsub]
    split
    · exact hn.quiet rfl (.inl (by rw [hsub]; rfl))
    · exact hn.quiet rfl (.inr rfl)
  | storeOff f | storeLen f | publish f | nextSeq f =>
    simp only [RemoteLink.submitter, hsub]
    exact hn.quiet rfl (.inl (by rw [hsub]; rfl))

theorem writerStep_frames (cfg : LinkConfig) (n : RemoteLink) (ok ok' : Bool) :
    (n.writerStep cfg ok ok').frames = n.frames ∧ (n.writerStep cfg ok ok').sub = n.sub := by
  unfold writerStep resendStep handed failed
  dsimp only
  repeat' split
  all_goals exact ⟨rfl, rfl⟩

theorem Numbered.step (hn : n.Numbered cfg) (h : n.Framed cfg) (st : LinkStep) :
    (step cfg n st).Numbered cfg := by
  cases st with
  | submitter ok => exact hn.submitter h ok
  | writer ok ok' =>
    obtain ⟨hfr, hsub⟩ := writerStep_frames cfg n ok ok'
    exact hn.quiet hfr (.inl (congrArg SubPc.staged hsub))
  | send r =>
    simp only [RemoteLink.step]
    split
    · exact hn
    · exact hn.quiet rfl (.inr rfl)
  | resolve seq | retry seq | push =>
    simp only [RemoteLink.step]
    split <;> exact hn.quiet rfl (.inl rfl)
  | requestRedial | close => exact hn.quiet rfl (.inl rfl)

theorem Window.sent (w : n.Window cfg) (h : n.Framed cfg) (hn : n.Numbered cfg) : n.Sent cfg := by
  refine ⟨w.ordered, fun a ha => ?_, w.exact, fun b hb => ?_⟩
  · obtain ⟨hfirst, hoff, -⟩ := h.slots a ha
    rcases Nat.lt_or_ge a (cfg.firstSeq + n.below n.send) with hlt | hge
    · have hreach : n.below n.send ≤ n.reach n.writer := by
        have hat := w.at_
        cases hpc : n.writer with
        | consume limit k => exact startsBelow_mono h.frames_ne (Nat.le_add_right _ _)
        | setSend s =>
          rw [hpc] at hat
          exact startsBelow_mono h.frames_ne hat.send
        | _ => exact le_rfl
      have hcov := w.covered a ha (by omega)
      unfold queued
      cases hpc : n.writer with
      | resend b stage =>
        rw [hpc] at hcov
        rcases hcov with hmem | hmem | ⟨-, hmem, -⟩
        · exact .inr (.inr hmem)
        · exact .inl (List.mem_append_right _ hmem)
        · exact .inl (List.mem_append_left _ hmem)
      | afterResends still =>
        rw [hpc] at hcov
        cases still
        · exact .inr (.inr hcov)
        · exact hcov.symm.imp_right .inr
      | flushLimit | peek limit | consume limit k =>
        rw [hpc] at hcov
        exact .inr (.inr hcov)
      | setSend s =>
        rw [hpc] at hcov
        exact .inl hcov
      | _ =>
        rw [hpc] at hcov
        exact hcov.symm.imp_right .inr
    · refine .inr (.inl ?_)
      calc n.send ≤ Blocks.start n.frames (n.below n.send) := h.le_start h.send
        _ = Blocks.start n.slotted (n.below n.send) := by
          rw [slotted, start_append (below_le n _)]
        _ ≤ Blocks.start n.slotted (a - cfg.firstSeq) := start_mono (by omega)
        _ = n.off (index cfg a) := hoff.symm
  · obtain ⟨h1, h2⟩ := w.begun_lt b hb
    have hi : b - cfg.firstSeq < n.frames.length := by omega
    obtain ⟨r, hr⟩ := hn.frames _ _ (List.getElem?_eq_getElem hi)
    refine ⟨r, ?_⟩
    rw [frameOf, List.getD, List.getElem?_eq_getElem hi, Option.getD_some, hr,
      Nat.add_sub_cancel' h1]

/-- While no frame is committed between the two loads of a redial, a frame is written after
    those of all lower live requests, every live request that was sent is written or queued, and
    the connection carries the frames as they were submitted. -/
theorem sent_of_orderly {sts : List LinkStep} (hrun : Runs cfg (start cfg) sts)
    (hord : Trace.Admits (step cfg) (Orderly cfg) (start cfg) sts) (k : ℕ) :
    (run cfg (start cfg) (sts.take k)).Sent cfg := by
  have hboth : Trace.Admits (step cfg) (fun n st => Possible n st ∧ Orderly cfg n st) (start cfg)
      (sts.take k) := Trace.Admits.take (Trace.admits_iff_getElem?.mpr fun j st hj =>
        ⟨Trace.admits_iff_getElem?.mp hrun j st hj, Trace.admits_iff_getElem?.mp hord j st hj⟩) k
  have hinv : (run cfg (start cfg) (sts.take k)).Framed cfg ∧
      (run cfg (start cfg) (sts.take k)).Window cfg ∧
      (run cfg (start cfg) (sts.take k)).Numbered cfg := by
    refine Trace.Admits.rule (P := fun l => (run cfg (start cfg) l).Framed cfg ∧
      (run cfg (start cfg) l).Window cfg ∧ (run cfg (start cfg) l).Numbered cfg) ?_ ?_ hboth
    · exact ⟨framed_start, window_start, by simp [run, start], fun hne => absurd rfl hne⟩
    · rintro l st ⟨h, w, hn⟩ ⟨hp, ho⟩
      unfold run at h w hn ⊢
      rw [List.foldl_append]
      obtain ⟨h', w'⟩ := w.step h hp ho
      exact ⟨h', w', hn.step h st⟩
  exact hinv.2.1.sent hinv.1 hinv.2.2

section

private theorem sevenLink_slots : 0 < 64 := by decide

private def sevenLink : LinkConfig where
  clientId := 7
  firstSeq := 1
  slots := 64
  capacity := 4096
  slots_pos := sevenLink_slots
  firstSeq_pos := Nat.one_pos

/-- A call of `try_submit`, with the accesses that it makes. -/
private def submits (accesses : ℕ) : List LinkStep :=
  .send ⟨.submit, 0, [1]⟩ :: List.replicate accesses (.submitter true)

/-- The second request is committed between the two loads of a redial. -/
private def commitInTheRedial : List LinkStep :=
  submits 14 ++ .requestRedial :: List.replicate 3 (.writer true true) ++ submits 18 ++
    List.replicate 10 (.writer true true)

/-- Before the redial, or after it. -/
private def commitAroundTheRedial : List LinkStep :=
  submits 14 ++ .requestRedial :: List.replicate 13 (.writer true true) ++ submits 18 ++
    List.replicate 20 (.writer true true)

theorem sent_of_orderly_around :
    (run sevenLink (start sevenLink) (commitAroundTheRedial.take 68)).Sent sevenLink :=
  sent_of_orderly (by decide +kernel) (by decide +kernel) 68

/-- The second request is live, below the send position, neither queued nor
    written. -/
theorem sent_fails_in_the_redial : Runs sevenLink (start sevenLink) commitInTheRedial ∧
      ¬ (run sevenLink (start sevenLink) commitInTheRedial).Sent sevenLink := by
  refine ⟨by decide +kernel, fun h => ?_⟩
  have hcov := h.covered 2 (by decide +kernel)
  revert hcov
  decide +kernel

end

end RemoteLink

end Remote

end UltimaCluster
