/-
  The window that the writer of the remote client re-sends.

  A redial loads the next sequence number before the end of the ring: a frame
  that is committed in between is below the snapshot and not in the scan.
  `Orderly` says that there is none.
-/
import UltimaCluster.RemoteFrames

namespace UltimaCluster

namespace Remote

namespace RemoteLink

variable {cfg : LinkConfig} {n n' : RemoteLink}

/-! ## The invariant -/

/-- How many frames start below a position. -/
def below (n : RemoteLink) (pos : ℕ) : ℕ := Blocks.startsBelow n.frames pos

/-- The position is the start of a frame, or the end of the last. -/
def Edge (n : RemoteLink) (pos : ℕ) : Prop := pos = Blocks.start n.frames (n.below pos)

/-- The frame of a request. -/
def frameOf (cfg : LinkConfig) (n : RemoteLink) (seq : ℕ) : Bytes :=
  n.frames.getD (seq - cfg.firstSeq) []

/-- The request at whose frame a re-send is. -/
def ResendStage.current : ResendStage → List ℕ
  | .extent seq _ | .copy seq _ _ | .isLive seq _ | .mark seq _ => [seq]
  | .gate | .putBack | .write => []

/-- The requests of a batch, in the order that they are written. -/
def hand (b : Batch) (stage : ResendStage) : List ℕ :=
  b.got.map Prod.fst ++ (ResendStage.current stage ++ b.due)

/-- Up to where live requests are covered. -/
def reach (n : RemoteLink) : WriterPc → ℕ
  | .consume _ k => n.below (n.send + k)
  | .setSend s => n.below s.snapshot
  | _ => n.below n.send

/-- Below what the requests are that were written, or are queued. -/
def bound (n : RemoteLink) : WriterPc → ℕ
  | .consume _ k => n.below (n.send + k)
  | .oldest _ snapshot => n.below snapshot
  | .scan s _ | .extent s _ _ | .replace s | .setSend s => n.below s.snapshot
  | .dial | .last | .snapshot _ | .stopped => n.frames.length
  | .top => if n.broken then n.frames.length else n.below n.send
  | _ => n.below n.send

/-- A live request below the send position is in the re-send queue, in the writer's hands, or
    begun on the connection; while the ring is drained it is begun. -/
def Covers (n : RemoteLink) : WriterPc → ℕ → Prop
  | .resend b stage, a => a ∈ n.begun ∨ a ∈ hand b stage ∨
      b.still = true ∧ a ∈ n.retransmit ∧ ∀ x ∈ hand b stage, x ≤ a
  | .afterResends false, a | .flushLimit, a | .peek _, a | .consume _ _, a => a ∈ n.begun
  | .setSend _, a => a ∈ n.retransmit
  | _, a => a ∈ n.begun ∨ a ∈ n.retransmit

/-- What was written on the connection is the frames that were begun on it, up to the part of
    the last one that is still to be written. -/
structure Tail (cfg : LinkConfig) (n : RemoteLink) (pos : ℕ) : Prop where
  wire : n.wire ++ Blocks.range n.frames.flatten pos (Blocks.start n.frames (n.below pos)) =
    n.begun.flatMap (n.frameOf cfg)
  last : ¬ n.Edge pos → n.begun.getLast? = some (cfg.firstSeq + n.below pos - 1)

/-- The connection carries whole frames, but for the last. -/
structure Exact (cfg : LinkConfig) (n : RemoteLink) : Prop where
  upper : n.wire <+: n.begun.flatMap (n.frameOf cfg)
  lower : n.begun.dropLast.flatMap (n.frameOf cfg) <+: n.wire

/-- What the writer knows of the frame that it re-sends. -/
def ResendAt (cfg : LinkConfig) (n : RemoteLink) (b : Batch) : ResendStage → Prop
  | .gate | .putBack => True
  | .extent seq stage => n.StageOk cfg seq stage
  | .copy seq off len => n.IsLive cfg seq → n.Lies cfg seq off len
  | .isLive seq bytes | .mark seq bytes => n.IsLive cfg seq → bytes = n.frameOf cfg seq
  | .write => b.due = []

/-- What a redial has loaded. -/
structure Snapped (cfg : LinkConfig) (n : RemoteLink) (last snapshot : ℕ) : Prop where
  le : snapshot ≤ n.write
  send : n.send ≤ snapshot
  edge : n.Edge snapshot
  last : cfg.firstSeq + n.below snapshot ≤ last

/-- What a scan has collected, from below `seq`. -/
structure Scanned (cfg : LinkConfig) (n : RemoteLink) (s : Scan) (seq : ℕ) : Prop where
  snapped : n.Snapped cfg s.last s.snapshot
  requeue : ∀ q ∈ s.requeue, cfg.firstSeq ≤ q ∧ q < cfg.firstSeq + n.below s.snapshot
  live : ∀ a, n.IsLive cfg a → a < seq → a < cfg.firstSeq + n.below s.snapshot → a ∈ s.requeue

/-- A connection on which no write has failed, between two frames. -/
structure Clean (n : RemoteLink) : Prop where
  broken : n.broken = false
  edge : n.Edge n.send

/-- The queue that the writer has sorted, and what it took. -/
structure Taken (cfg : LinkConfig) (n : RemoteLink) (due : List ℕ) (taken : ℕ) : Prop where
  clean : n.Clean
  sorted : n.retransmit.Pairwise (· ≤ ·)
  sub : due.Sublist (n.retransmit.take taken)
  live : ∀ a, n.IsLive cfg a → a ∈ n.retransmit.take taken → a ∈ due

/-- A batch in the writer's hands. -/
structure InHand (cfg : LinkConfig) (n : RemoteLink) (b : Batch) (stage : ResendStage) : Prop where
  clean : n.Clean
  sorted : (hand b stage).Pairwise (· ≤ ·)
  bounded : ∀ x ∈ hand b stage, cfg.firstSeq ≤ x ∧ x < cfg.firstSeq + n.below n.send
  got : ∀ p ∈ b.got, p.2 = n.frameOf cfg p.1
  at_ : n.ResendAt cfg b stage

/-- The ring is being drained up to `limit`. -/
structure Draining (n : RemoteLink) (limit pos : ℕ) : Prop where
  broken : n.broken = false
  send_le : n.send ≤ pos
  le_limit : pos ≤ limit
  limit_le : limit ≤ n.write
  edge : n.Edge limit

/-- What the writer knows where it is. -/
def WriterAt (cfg : LinkConfig) (n : RemoteLink) : WriterPc → Prop
  | .top => (n.broken = true → n.needed = true) ∧ (n.broken = false → n.Edge n.send)
  | .sort | .afterResends _ | .flushLimit => n.Clean
  | .notBefore due taken | .late due taken | .alive due taken | .drop due taken =>
    n.Taken cfg due taken
  | .resend b stage => n.InHand cfg b stage
  | .peek limit => n.Draining limit n.send
  | .consume limit k => n.Draining limit (n.send + k)
  | .dial | .last | .snapshot _ | .stopped => True
  | .oldest last snapshot => n.Snapped cfg last snapshot
  | .scan s seq => n.Scanned cfg s seq
  | .extent s seq stage => n.Scanned cfg s seq ∧ n.StageOk cfg seq stage
  | .replace s => ∀ seq, n.Scanned cfg s seq
  | .setSend s => n.Snapped cfg s.last s.snapshot

/-- Where the frame on the wire ends, for now. -/
def wireEnd (n : RemoteLink) : WriterPc → ℕ
  | .consume _ k => n.send + k
  | _ => n.send

/-- The begun frames, by number. -/
structure Window (cfg : LinkConfig) (n : RemoteLink) : Prop where
  begun : ∀ b ∈ n.begun, b ∈ n.ever
  bounded : ∀ q, q ∈ n.ever ∨ q ∈ n.retransmit ∨ n.reader = .push q →
    cfg.firstSeq ≤ q ∧ q < cfg.firstSeq + n.bound n.writer
  /-- A frame comes after those of all lower live requests. -/
  ordered : ∀ k b a : ℕ, n.begun[k]? = some b → a < b → n.IsLive cfg a →
    ∃ j < k, n.begun[j]? = some a
  covered : ∀ a, n.IsLive cfg a → a < cfg.firstSeq + n.reach n.writer → n.Covers n.writer a
  exact : n.Exact cfg
  tail : n.broken = false → n.Tail cfg (n.wireEnd n.writer)
  at_ : n.WriterAt cfg n.writer

/-- The next sequence number as a redial loaded it, until the end of the ring is
    loaded. -/
def loaded : WriterPc → Option ℕ
  | .snapshot last => some last
  | _ => none

/-- No frame was committed since a redial loaded the next sequence number. -/
def Orderly (cfg : LinkConfig) (n : RemoteLink) : LinkStep → Prop
  | .writer _ _ => ∀ last ∈ loaded n.writer, cfg.firstSeq + n.frames.length ≤ last
  | _ => True

instance (n : RemoteLink) : (st : LinkStep) → Decidable (n.Orderly cfg st)
  | .writer _ _ => inferInstanceAs (Decidable (∀ last ∈ loaded n.writer, _))
  | .send _ | .submitter _ | .resolve _ | .retry _ | .push | .requestRedial | .close => .isTrue trivial

/-! ## Steps that leave the writer alone -/

/-- What the submitter and the reader do to the window: frames come later, and
    a request that becomes live is new. -/
structure Grows (cfg : LinkConfig) (n n' : RemoteLink) : Prop where
  frames : ∃ fs, n'.frames = n.frames ++ fs
  slotted : ∃ fs, n'.slotted = n.slotted ++ fs
  live : ∀ a, n'.IsLive cfg a → n.IsLive cfg a ∨ cfg.firstSeq + n.slotted.length ≤ a
  send : n'.send = n.send
  broken : n'.broken = n.broken
  needed : n.needed = true → n'.needed = true

/-- The writer, its queue and its connection stay. -/
structure Spares (n n' : RemoteLink) : Prop where
  retransmit : n'.retransmit = n.retransmit
  begun : n'.begun = n.begun
  wire : n'.wire = n.wire
  ever : n'.ever = n.ever
  writer : n'.writer = n.writer

theorem frames_le_slotted (n : RemoteLink) : n.frames.length ≤ n.slotted.length := by
  rw [slotted, List.length_append]
  exact Nat.le_add_right _ _

theorem below_le (n : RemoteLink) (pos : ℕ) : n.below pos ≤ n.frames.length :=
  Blocks.startsBelow_le _ _

theorem bound_le (n : RemoteLink) (pc : WriterPc) : n.bound pc ≤ n.frames.length := by
  cases pc with
  | dial | last | snapshot last | stopped => exact le_rfl
  | top =>
    rw [bound]
    split
    · exact le_rfl
    · exact below_le n _
  | _ => exact below_le n _

theorem reach_le (n : RemoteLink) (pc : WriterPc) : n.reach pc ≤ n.frames.length := by
  cases pc <;> exact below_le n _

theorem Window.begun_lt (w : n.Window cfg) :
    ∀ b ∈ n.begun, cfg.firstSeq ≤ b ∧ b < cfg.firstSeq + n.frames.length := by
  intro b hb
  obtain ⟨h1, h2⟩ := w.bounded b (.inl (w.begun b hb))
  have := bound_le n n.writer
  exact ⟨h1, by omega⟩

section

variable (g : Grows cfg n n') (h : n.Framed cfg)

include g h

variable {pos : ℕ}

theorem Grows.below (hp : pos ≤ n.write) : n'.below pos = n.below pos := by
  obtain ⟨fs, hfs⟩ := g.frames
  rw [RemoteLink.below, RemoteLink.below, hfs]
  exact Blocks.startsBelow_append h.frames_ne (h.write ▸ hp)

theorem Grows.start (hp : pos ≤ n.write) :
    Blocks.start n'.frames (n'.below pos) = Blocks.start n.frames (n.below pos) := by
  rw [g.below h hp]
  obtain ⟨fs, hfs⟩ := g.frames
  rw [hfs, Blocks.start_append (below_le n pos)]

theorem Grows.edge (hp : pos ≤ n.write) (he : n.Edge pos) : n'.Edge pos := by
  rw [Edge, g.start h hp]
  exact he

theorem Grows.write_le (h' : n'.Framed cfg) : n.write ≤ n'.write := by
  obtain ⟨fs, hfs⟩ := g.frames
  rw [h.write, h'.write, hfs, List.flatten_append, List.length_append]
  exact Nat.le_add_right _ _

omit h in
theorem Grows.frameOf {q : ℕ} (hq : q < cfg.firstSeq + n.frames.length)
    (hf : cfg.firstSeq ≤ q) : n'.frameOf cfg q = n.frameOf cfg q := by
  obtain ⟨fs, hfs⟩ := g.frames
  rw [RemoteLink.frameOf, RemoteLink.frameOf, hfs, List.getD_append]
  omega

omit h in
theorem Grows.live_of_lt {a : ℕ} (ha : n'.IsLive cfg a) (hlt : a < cfg.firstSeq + n.frames.length) :
    n.IsLive cfg a := by
  refine (g.live a ha).resolve_right fun hc => ?_
  have := frames_le_slotted n
  omega

theorem Grows.clean (hc : n.Clean) : n'.Clean := by
  refine ⟨g.broken.trans hc.broken, ?_⟩
  rw [g.send]
  exact g.edge h h.send hc.edge

theorem Grows.snapped (h' : n'.Framed cfg) {last snapshot : ℕ} (hs : n.Snapped cfg last snapshot) :
    n'.Snapped cfg last snapshot := by
  refine ⟨hs.le.trans (g.write_le h h'), g.send ▸ hs.send, g.edge h hs.le hs.edge, ?_⟩
  rw [g.below h hs.le]
  exact hs.last

theorem Grows.scanned (h' : n'.Framed cfg) {s : Scan} {seq : ℕ} (hs : n.Scanned cfg s seq) :
    n'.Scanned cfg s seq := by
  have hb := g.below h hs.snapped.le
  refine ⟨g.snapped h h' hs.snapped, ?_, ?_⟩
  · rw [hb]
    exact hs.requeue
  · rw [hb]
    intro a ha hlt hlt'
    have := below_le n s.snapshot
    exact hs.live a (g.live_of_lt ha (by omega)) hlt hlt'

omit h in
theorem Grows.stageOk {seq : ℕ} {stage : ExtentStage} (hs : n.StageOk cfg seq stage) :
    n'.StageOk cfg seq stage := by
  obtain ⟨fs, hfs⟩ := g.slotted
  exact hs.imp hfs (g.live seq)

theorem Grows.inHand {b : Batch} {stage : ResendStage} (hb : n.InHand cfg b stage) :
    n'.InHand cfg b stage := by
  have hle := below_le n n.send
  have hcur : ∀ seq, seq ∈ hand b stage → cfg.firstSeq ≤ seq ∧ seq < cfg.firstSeq + n.frames.length := by
    intro seq hseq
    obtain ⟨h1, h2⟩ := hb.bounded seq hseq
    exact ⟨h1, by omega⟩
  have hgot : ∀ p ∈ b.got, p.1 ∈ hand b stage := fun p hp =>
    List.mem_append_left _ (List.mem_map_of_mem hp)
  refine ⟨g.clean h hb.clean, hb.sorted, ?_, ?_, ?_⟩
  · rw [g.send, g.below h h.send]
    exact hb.bounded
  · intro p hp
    obtain ⟨h1, h2⟩ := hcur p.1 (hgot p hp)
    rw [g.frameOf h2 h1]
    exact hb.got p hp
  · have hat := hb.at_
    cases stage with
    | gate | putBack => trivial
    | extent seq stage => exact g.stageOk hat
    | copy seq off len =>
      intro hl
      obtain ⟨h1, h2⟩ := hcur seq (by simp [hand, ResendStage.current])
      obtain ⟨fs, hfs⟩ := g.slotted
      exact (hat (g.live_of_lt hl h2)).of_append hfs
    | isLive seq bytes | mark seq bytes =>
      intro hl
      obtain ⟨h1, h2⟩ := hcur seq (by simp [hand, ResendStage.current])
      rw [g.frameOf h2 h1]
      exact hat (g.live_of_lt hl h2)
    | write => exact hat

variable {pc : WriterPc}

theorem Grows.writerAt (h' : n'.Framed cfg) (hr : pc.locks = true → n'.retransmit = n.retransmit)
    (hq : ∀ q ∈ n.retransmit, q < cfg.firstSeq + n.frames.length) (hat : n.WriterAt cfg pc) :
    n'.WriterAt cfg pc := by
  have hw := g.write_le h h'
  cases pc with
  | top =>
    rw [WriterAt, g.broken, g.send]
    exact ⟨fun hb => g.needed (hat.1 hb), fun hb => g.edge h h.send (hat.2 hb)⟩
  | sort | afterResends still | flushLimit => exact g.clean h hat
  | notBefore due taken | late due taken | alive due taken | drop due taken =>
    obtain ⟨hclean, hsorted, hsub, hlive⟩ := hat
    have hr := hr rfl
    refine ⟨g.clean h hclean, ?_, ?_, ?_⟩
    · rw [hr]
      exact hsorted
    · rw [hr]
      exact hsub
    · rw [hr]
      intro a ha hmem
      exact hlive a (g.live_of_lt ha (hq a (List.mem_of_mem_take hmem))) hmem
  | resend b stage => exact g.inHand h hat
  | peek limit =>
    obtain ⟨hb, h1, h2, h3, h4⟩ := hat
    refine ⟨g.broken.trans hb, ?_, ?_, h3.trans hw, g.edge h h3 h4⟩
    · rw [g.send]
    · rwa [g.send]
  | consume limit k =>
    obtain ⟨hb, h1, h2, h3, h4⟩ := hat
    refine ⟨g.broken.trans hb, ?_, ?_, h3.trans hw, g.edge h h3 h4⟩
    · rwa [g.send]
    · rwa [g.send]
  | dial | last | snapshot last | stopped => trivial
  | oldest last snapshot => exact g.snapped h h' hat
  | scan s seq => exact g.scanned h h' hat
  | extent s seq stage => exact ⟨g.scanned h h' hat.1, g.stageOk hat.2⟩
  | replace s => exact fun seq => g.scanned h h' (hat seq)
  | setSend s => exact g.snapped h h' hat

omit g in
theorem wireEnd_le (hat : n.WriterAt cfg pc) : n.wireEnd pc ≤ n.write := by
  cases pc with
  | consume limit k => exact hat.le_limit.trans hat.limit_le
  | _ => exact h.send

omit g in
theorem Tail.exact (hp : pos ≤ n.write) (ht : n.Tail cfg pos) : n.Exact cfg := by
  refine ⟨⟨_, ht.wire⟩, ?_⟩
  rcases List.eq_nil_or_concat n.begun with hnil | ⟨init, last, hcat⟩
  · rw [hnil]
    exact List.nil_prefix
  · rw [List.concat_eq_append] at hcat
    rw [hcat, List.dropLast_concat]
    have hwire := ht.wire
    rw [hcat, List.flatMap_append] at hwire
    by_cases he : n.Edge pos
    · rw [← he, Blocks.range_self, List.append_nil] at hwire
      exact ⟨_, hwire.symm⟩
    · -- Within the last frame: the rest of it is a suffix of the frame.
      have hlast := ht.last he
      rw [hcat, List.getLast?_append, List.getLast?_singleton, Option.some_or,
        Option.some.injEq] at hlast
      have hpos : 0 < n.below pos := by
        by_contra hc
        have h0 : n.below pos = 0 := by omega
        have hle : pos ≤ Blocks.start n.frames (n.below pos) :=
          Blocks.le_start_startsBelow (h.write ▸ hp)
        rw [h0, Blocks.start_zero] at hle
        refine he ?_
        rw [Edge, h0, Blocks.start_zero]
        omega
      have hlt : n.below pos - 1 < n.frames.length := by
        have := below_le n pos
        omega
      have hget : n.frames[n.below pos - 1]? = some n.frames[n.below pos - 1] :=
        List.getElem?_eq_getElem hlt
      have hframe : n.frameOf cfg last = n.frames[n.below pos - 1] := by
        rw [frameOf, hlast, show cfg.firstSeq + n.below pos - 1 - cfg.firstSeq = n.below pos - 1 by omega,
          List.getD, hget, Option.getD_some]
      have hstart : Blocks.start n.frames (n.below pos - 1) ≤ pos :=
        ((Blocks.lt_startsBelow h.frames_ne).mp (show n.below pos - 1 < n.below pos by omega)).2.le
      have hend : pos ≤ Blocks.start n.frames (n.below pos) :=
        Blocks.le_start_startsBelow (h.write ▸ hp)
      have hblock := Blocks.range_block hget
      rw [Nat.sub_add_cancel hpos, ← Blocks.range_append hstart hend] at hblock
      rw [List.flatMap_singleton, hframe, ← hblock, ← List.append_assoc] at hwire
      exact ⟨_, (List.append_cancel_right hwire).symm⟩

omit h in
theorem Grows.flatMap {qs : List ℕ}
    (hq : ∀ q ∈ qs, cfg.firstSeq ≤ q ∧ q < cfg.firstSeq + n.frames.length) :
    qs.flatMap (n'.frameOf cfg) = qs.flatMap (n.frameOf cfg) := by
  refine List.flatMap_congr fun q hmem => ?_
  exact g.frameOf (hq q hmem).2 (hq q hmem).1

theorem Grows.tail (u : Spares n n') (hp : pos ≤ n.write) (ht : n.Tail cfg pos)
    (hq : ∀ q ∈ n.begun, cfg.firstSeq ≤ q ∧ q < cfg.firstSeq + n.frames.length) :
    n'.Tail cfg pos := by
  have hend : Blocks.start n.frames (n.below pos) ≤ n.frames.flatten.length := by
    rw [← Blocks.start_length]
    exact Blocks.start_mono (below_le n pos)
  constructor
  · rw [u.wire, u.begun, g.flatMap hq, g.start h hp]
    obtain ⟨fs, hfs⟩ := g.frames
    rw [hfs, List.flatten_append, Blocks.range_left hend]
    exact ht.wire
  · intro hne
    rw [u.begun, g.below h hp]
    exact ht.last fun he => hne (g.edge h hp he)

omit g h in
theorem Covers.congr {a : ℕ} (hc : n.Covers pc a) (hb : n'.begun = n.begun)
    (hr : n'.retransmit = n.retransmit) : n'.Covers pc a := by
  cases pc with
  | afterResends still => cases still <;> simpa only [Covers, hb, hr] using hc
  | _ => simpa only [Covers, hb, hr] using hc

theorem Grows.bound (hat : n.WriterAt cfg pc) : n.bound pc ≤ n'.bound pc := by
  have hlen : n.frames.length ≤ n'.frames.length := by
    obtain ⟨fs, hfs⟩ := g.frames
    rw [hfs, List.length_append]
    exact Nat.le_add_right _ _
  have hsend : n.below n.send = n'.below n'.send := by rw [g.send, g.below h h.send]
  cases pc with
  | dial | last | snapshot last | stopped => exact hlen
  | top =>
    rw [RemoteLink.bound, RemoteLink.bound, g.broken]
    split
    · exact hlen
    · exact hsend.le
  | consume limit k =>
    rw [RemoteLink.bound, RemoteLink.bound, g.send, g.below h (hat.le_limit.trans hat.limit_le)]
  | oldest last snapshot => exact (g.below h hat.le).ge
  | scan s seq => exact (g.below h hat.snapped.le).ge
  | extent s seq stage => exact (g.below h hat.1.snapped.le).ge
  | replace s => exact (g.below h (hat 0).snapped.le).ge
  | setSend s => exact (g.below h hat.le).ge
  | _ => exact hsend.le

theorem Grows.reach (hat : n.WriterAt cfg pc) : n'.reach pc = n.reach pc := by
  have hsend : n'.below n'.send = n.below n.send := by rw [g.send, g.below h h.send]
  cases pc with
  | consume limit k =>
    rw [RemoteLink.reach, RemoteLink.reach, g.send, g.below h (hat.le_limit.trans hat.limit_le)]
  | setSend s => exact g.below h hat.le
  | _ => exact hsend

theorem Grows.window (u : Spares n n') (h' : n'.Framed cfg) (w : n.Window cfg)
    (hr : ∀ q, n'.reader = .push q → n.reader = .push q ∨ q ∈ n.ever) : n'.Window cfg := by
  have hat := w.at_
  have hbound := g.bound h hat
  have hlt := w.begun_lt
  have hq : ∀ q ∈ n.retransmit, q < cfg.firstSeq + n.frames.length := by
    intro q hq
    have := bound_le n n.writer
    have := (w.bounded q (.inr (.inl hq))).2
    omega
  refine ⟨?_, ?_, ?_, ?_, ?_, ?_, ?_⟩
  · rw [u.begun, u.ever]
    exact w.begun
  · rw [u.ever, u.retransmit, u.writer]
    intro q hmem
    have hold : q ∈ n.ever ∨ q ∈ n.retransmit ∨ n.reader = .push q := by
      rcases hmem with hmem | hmem | hmem
      · exact .inl hmem
      · exact .inr (.inl hmem)
      · rcases hr q hmem with hmem | hmem
        · exact .inr (.inr hmem)
        · exact .inl hmem
    obtain ⟨h1, h2⟩ := w.bounded q hold
    exact ⟨h1, by omega⟩
  · rw [u.begun]
    intro k b a hk hab ha
    have hb := hlt b (List.mem_of_getElem? hk)
    exact w.ordered k b a hk hab (g.live_of_lt ha (by omega))
  · rw [u.writer, g.reach h hat]
    intro a ha hreach
    have := reach_le n n.writer
    exact (w.covered a (g.live_of_lt ha (by omega)) hreach).congr u.begun u.retransmit
  · refine ⟨?_, ?_⟩
    · rw [u.wire, u.begun, g.flatMap hlt]
      exact w.exact.upper
    · rw [u.wire, u.begun, g.flatMap fun q hmem => hlt q (List.dropLast_subset _ hmem)]
      exact w.exact.lower
  · rw [g.broken, u.writer]
    intro hb
    have hend : n'.wireEnd n.writer = n.wireEnd n.writer := by
      cases n.writer <;> simp only [wireEnd, g.send]
    rw [hend]
    exact g.tail h u (wireEnd_le h hat) (w.tail hb) hlt
  · rw [u.writer]
    exact g.writerAt h h' (fun _ => u.retransmit) hq hat

end

theorem grows_quiet {sub : SubPc} (hcl : sub.claimed = n.sub.claimed) {n' : RemoteLink}
    (hfr : n'.frames = n.frames) (hsub : n'.sub = sub)
    (hlive : ∀ a, n'.IsLive cfg a → n.IsLive cfg a) (hsend : n'.send = n.send)
    (hbroken : n'.broken = n.broken) (hneeded : n.needed = true → n'.needed = true) :
    Grows cfg n n' := by
  refine ⟨⟨[], by rw [hfr, List.append_nil]⟩, ⟨[], ?_⟩, fun a ha => .inl (hlive a ha), hsend, hbroken,
    hneeded⟩
  rw [slotted, slotted, hfr, hsub, hcl, List.append_nil]

theorem grows_submitter (h : n.Framed cfg) (ok : Bool) : Grows cfg n (n.submitter cfg ok) := by
  cases hsub : n.sub with
  | publish f =>
    simp only [submitter, hsub]
    refine ⟨⟨[], (List.append_nil _).symm⟩, ⟨[f], ?_⟩, ?_, rfl, rfl, id⟩
    · simp [slotted, hsub, SubPc.claimed]
    · intro a ha
      have ha := isLive_update.mp ha
      split at ha
      · injection ha with ha
        have hn := h.seqNext
        rw [hsub] at hn
        right
        simp only [slotted, hsub, SubPc.claimed, List.append_nil]
        omega
      · exact .inl ha
  | commit f =>
    simp only [submitter, hsub]
    refine ⟨⟨[f], rfl⟩, ⟨[], ?_⟩, fun a ha => .inl ha, rfl, rfl, id⟩
    simp [slotted, hsub, SubPc.claimed]
  | nextSeq f =>
    simp only [submitter, hsub]
    exact grows_quiet (by rw [hsub]; rfl) rfl rfl (fun _ ha => ha) rfl rfl id
  | reserve f =>
    simp only [submitter, hsub]
    split
    · refine grows_quiet (by rw [hsub]; rfl) rfl rfl (fun a ha => ?_) rfl rfl id
      have ha := isLive_update.mp ha
      split at ha
      · cases ha
      · exact ha
    · exact grows_quiet (by rw [hsub]; rfl) rfl rfl (fun _ ha => ha) rfl rfl id
  | idle =>
    simp only [submitter, hsub]
    exact grows_quiet rfl rfl rfl (fun _ ha => ha) rfl rfl id
  | floor r seq =>
    simp only [submitter, hsub]
    refine grows_quiet ?_ rfl rfl (fun _ ha => ha) rfl rfl id
    rw [hsub]
    split <;> rfl
  | release r pos | ack r target | storeOff f | storeLen f =>
    simp only [submitter, hsub]
    exact grows_quiet (by rw [hsub]; rfl) rfl rfl (fun _ ha => ha) rfl rfl id
  | extent r seq stage =>
    simp only [submitter, hsub]
    split <;> exact grows_quiet (by rw [hsub]; rfl) rfl rfl (fun _ ha => ha) rfl rfl id
  | walk r seq | admission r | isFree r | stage r | count f =>
    simp only [submitter, hsub]
    split <;> exact grows_quiet (by rw [hsub]; rfl) rfl rfl (fun _ ha => ha) rfl rfl id

theorem submitter_reader (n : RemoteLink) (ok : Bool) : (n.submitter cfg ok).reader = n.reader := by
  unfold submitter
  dsimp only
  repeat' split
  all_goals rfl

theorem spares_submitter (n : RemoteLink) (ok : Bool) : Spares n (n.submitter cfg ok) := by
  unfold submitter
  dsimp only
  repeat' split
  all_goals exact ⟨rfl, rfl, rfl, rfl, rfl⟩

theorem spares_resolve (n : RemoteLink) (seq : ℕ) : Spares n (step cfg n (.resolve seq)) := by
  simp only [step]
  split <;> exact ⟨rfl, rfl, rfl, rfl, rfl⟩

theorem grows_resolve (n : RemoteLink) (seq : ℕ) : Grows cfg n (step cfg n (.resolve seq)) := by
  simp only [step]
  split
  · refine grows_quiet rfl rfl rfl (fun a ha => ?_) rfl rfl id
    have ha := isLive_update.mp ha
    split at ha
    · cases ha
    · exact ha
  · exact grows_quiet rfl rfl rfl (fun _ ha => ha) rfl rfl id

end RemoteLink

end Remote

end UltimaCluster
