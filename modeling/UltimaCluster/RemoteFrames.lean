/-
  The submitter's side of the remote client: its frames lie end to end in the
  outgoing ring, a live slot names the extent of its frame, and no byte of a live
  frame is given back.
-/
import UltimaCluster.RemoteLink

namespace UltimaCluster

open Function (update update_eq_self update_of_ne update_self)

namespace Remote

/-! ## Frames -/

/-- What the writer finds in the header of a frame. -/
structure GoodFrame (f : Bytes) : Prop where
  header : frameHeaderLen ≤ f.length
  length : decodeHeader (f.take frameHeaderLen) = some (f.length - frameHeaderLen)

theorem length_encodeHeaderInto (h : Header) (len : ℕ) :
    (encodeHeaderInto h len).length = frameHeaderLen := by
  simp [encodeHeaderInto, frameHeaderLen, Bytes.length_le]

theorem length_frame (r : Request) (clientId seq : ℕ) :
    (r.frame clientId seq).length = frameHeaderLen + r.payload.length := by
  rw [Request.frame, List.length_append, length_encodeHeaderInto]

theorem decodeHeader_encode (h : Header) {len : ℕ} (hlen : frameHeaderLen + len ≤ maxFrameLen) :
    decodeHeader (encodeHeaderInto h len) = some len := by
  have hnum : Bytes.num (encodeHeaderInto h len) 0 4 = frameHeaderLen + len := by
    rw [encodeHeaderInto, Bytes.num_append_left (by simp [Bytes.length_le])]
    refine Bytes.num_le ?_
    simp only [frameHeaderLen, maxFrameLen] at hlen ⊢
    omega
  have hty : Bytes.at_ (encodeHeaderInto h len) 4 = h.ty.byte.toNat := by
    rw [Bytes.at_, Bytes.num, encodeHeaderInto, Bytes.slice_append_right (by simp [Bytes.length_le])]
    simp [Bytes.length_le, Bytes.slice, Bytes.val]
  have hbyte : 1 ≤ h.ty.byte.toNat ∧ h.ty.byte.toNat ≤ 13 := by
    cases h.ty <;> decide
  unfold decodeHeader
  rw [if_neg (by rw [length_encodeHeaderInto]; exact lt_irrefl _)]
  rw [hnum, hty, if_neg (by omega), if_pos hbyte, Nat.add_sub_cancel_left]

theorem goodFrame {r : Request} (hlen : frameHeaderLen + r.payload.length ≤ maxFrameLen)
    (clientId seq : ℕ) : GoodFrame (r.frame clientId seq) := by
  have hl := length_frame r clientId seq
  refine ⟨by omega, ?_⟩
  rw [hl, Nat.add_sub_cancel_left, Request.frame, List.take_left' (length_encodeHeaderInto _ _)]
  exact decodeHeader_encode _ hlen

theorem GoodFrame.ne_nil {f : Bytes} (h : GoodFrame f) : f ≠ [] := by
  rintro rfl
  exact absurd h.header (by decide)

/-! ## The invariant -/

namespace SubPc

/-- The frame that is in the ring and not committed. -/
def staged : SubPc → Bytes
  | .count f | .reserve f | .storeOff f | .storeLen f | .publish f | .nextSeq f | .commit f => f
  | _ => []

/-- The frame whose slot is published and that is not committed. -/
def claimed : SubPc → List Bytes
  | .nextSeq f | .commit f => [f]
  | _ => []

/-- The sequence number is used and its frame not committed. -/
def issued : SubPc → ℕ
  | .commit _ => 1
  | _ => 0

end SubPc

namespace RemoteLink

variable {cfg : LinkConfig} {n n' : RemoteLink} {seq off len : ℕ}

/-- The frames with a slot. -/
def slotted (n : RemoteLink) : List Bytes := n.frames ++ n.sub.claimed

/-- The frame of `seq` lies at `off` with length `len`. -/
structure Lies (cfg : LinkConfig) (n : RemoteLink) (seq off len : ℕ) : Prop where
  first : cfg.firstSeq ≤ seq
  off : off = Blocks.start n.slotted (seq - cfg.firstSeq)
  len : ∃ f, n.slotted[seq - cfg.firstSeq]? = some f ∧ len = f.length

/-- What `live_extent` knows: if the slot is still of `seq`, what was read is
    the extent. -/
def StageOk (cfg : LinkConfig) (n : RemoteLink) (seq : ℕ) : ExtentStage → Prop
  | .owner => True
  | .off => seq < cfg.firstSeq + n.slotted.length
  | .len off => seq < cfg.firstSeq + n.slotted.length ∧
      (n.IsLive cfg seq → ∃ len, n.Lies cfg seq off len)
  | .recheck off len => seq < cfg.firstSeq + n.slotted.length ∧
      (n.IsLive cfg seq → n.Lies cfg seq off len)

/-- What the submitter knows where it is. -/
def SubAt (cfg : LinkConfig) (n : RemoteLink) : SubPc → Prop
  | .idle | .admission _ => True
  | .walk _ seq | .floor _ seq => seq ≤ n.seqNext ∧ ∀ a, n.IsLive cfg a → seq ≤ a
  | .extent _ seq stage => (∀ a, n.IsLive cfg a → seq ≤ a) ∧ n.StageOk cfg seq stage
  | .release _ pos => pos ≤ n.reclaimPos
  | .ack _ target => target ≤ n.reclaimPos ∧ target ≤ n.send
  | .isFree r | .stage r => frameHeaderLen + r.payload.length ≤ maxFrameLen
  | .count f | .reserve f | .nextSeq f | .commit f => GoodFrame f
  | .storeOff f => GoodFrame f ∧ n.owner (index cfg n.seqNext) = .reserved
  | .storeLen f => GoodFrame f ∧ n.owner (index cfg n.seqNext) = .reserved ∧
      n.off (index cfg n.seqNext) = n.write
  | .publish f => GoodFrame f ∧ n.owner (index cfg n.seqNext) = .reserved ∧
      n.off (index cfg n.seqNext) = n.write ∧ n.len (index cfg n.seqNext) = f.length

/-- The ring holds whole frames. -/
structure Framed (cfg : LinkConfig) (n : RemoteLink) : Prop where
  seqNext : n.seqNext = cfg.firstSeq + n.frames.length + n.sub.issued
  nextSeq : n.nextSeq = n.seqNext
  write : n.write = n.frames.flatten.length
  ack : n.ack ≤ n.send
  send : n.send ≤ n.write
  room : n.write + n.sub.staged.length ≤ n.ack + cfg.capacity
  holds : CellRing.Holds cfg.capacity n.ring n.ack (n.frames.flatten ++ n.sub.staged)
  good : ∀ f ∈ n.frames, GoodFrame f
  /-- The words of a live slot. -/
  slots : ∀ a, n.IsLive cfg a → n.Lies cfg a (n.off (index cfg a)) (n.len (index cfg a))
  /-- No live frame is given back. -/
  retained : ∀ a off len, n.IsLive cfg a → n.Lies cfg a off len → n.reclaimPos ≤ off
  reclaimed : n.ack ≤ n.reclaimPos ∧ n.reclaimPos ≤ n.write
  reclaimSeq : n.reclaimSeq ≤ n.seqNext ∧ ∀ a, n.IsLive cfg a → n.reclaimSeq ≤ a
  oldest : n.oldestUnreclaimed ≤ n.seqNext ∧ ∀ a, n.IsLive cfg a → n.oldestUnreclaimed ≤ a
  subAt : n.SubAt cfg n.sub

theorem framed_start : (start cfg).Framed cfg where
  seqNext := rfl
  nextSeq := rfl
  write := rfl
  ack := le_rfl
  send := le_rfl
  room := Nat.zero_le _
  holds := by
    intro p b _ hb
    simp [start, SubPc.staged] at hb
  good := by simp [start]
  slots := by
    intro a ha
    cases ha
  retained := by
    intro a off len ha
    cases ha
  reclaimed := ⟨le_rfl, le_rfl⟩
  reclaimSeq := ⟨le_rfl, fun a ha => by cases ha⟩
  oldest := ⟨le_rfl, fun a ha => by cases ha⟩
  subAt := trivial

theorem Framed.slotted_good (h : n.Framed cfg) : ∀ f ∈ n.slotted, GoodFrame f := by
  intro f hf
  rcases List.mem_append.mp hf with hf | hf
  · exact h.good f hf
  · have hat := h.subAt
    cases hs : n.sub <;> rw [hs] at hf hat <;> simp [SubPc.claimed] at hf <;> subst hf <;> exact hat

theorem Framed.slotted_ne (h : n.Framed cfg) : ∀ f ∈ n.slotted, f ≠ [] :=
  fun f hf => (h.slotted_good f hf).ne_nil

theorem Framed.frames_ne (h : n.Framed cfg) : ∀ f ∈ n.frames, f ≠ [] :=
  fun f hf => (h.good f hf).ne_nil

theorem Framed.live_lt (h : n.Framed cfg) {a : ℕ} (ha : n.IsLive cfg a) :
    cfg.firstSeq ≤ a ∧ a < cfg.firstSeq + n.slotted.length := by
  obtain ⟨hf, -, f, hget, -⟩ := h.slots a ha
  have := (List.getElem?_eq_some_iff.mp hget).1
  omega

/-- One load of `live_extent`. -/
theorem Framed.liveExtent (h : n.Framed cfg) {stage : ExtentStage} (hs : n.StageOk cfg seq stage) :
    (∀ st, n.liveExtent cfg seq stage = .inl st → n.StageOk cfg seq st) ∧
      (n.liveExtent cfg seq stage = .inr none → ¬ n.IsLive cfg seq) ∧
      (∀ off len, n.liveExtent cfg seq stage = .inr (some (off, len)) →
        n.IsLive cfg seq ∧ n.Lies cfg seq off len) := by
  cases stage with
  | owner =>
    by_cases hl : n.IsLive cfg seq
    · simp only [RemoteLink.liveExtent, if_pos hl]
      refine ⟨?_, by simp, by simp⟩
      rintro st ⟨⟩
      exact (h.live_lt hl).2
    · simp only [RemoteLink.liveExtent, if_neg hl]
      exact ⟨by simp, fun _ => hl, by simp⟩
  | off =>
    refine ⟨?_, by simp [RemoteLink.liveExtent], by simp [RemoteLink.liveExtent]⟩
    rintro st ⟨⟩
    exact ⟨hs, fun hl => ⟨_, h.slots seq hl⟩⟩
  | len off =>
    refine ⟨?_, by simp [RemoteLink.liveExtent], by simp [RemoteLink.liveExtent]⟩
    rintro st ⟨⟩
    refine ⟨hs.1, fun hl => ?_⟩
    obtain ⟨len, hlies⟩ := hs.2 hl
    exact ⟨hlies.first, hlies.off, (h.slots seq hl).len⟩
  | recheck off len =>
    by_cases hl : n.IsLive cfg seq
    · simp only [RemoteLink.liveExtent, if_pos hl]
      refine ⟨by simp, by simp, ?_⟩
      rintro off' len' ⟨⟩
      exact ⟨hl, hs.2 hl⟩
    · simp only [RemoteLink.liveExtent, if_neg hl]
      exact ⟨by simp, fun _ => hl, by simp⟩

/-! ## The submitter's steps -/

theorem Lies.of_slotted (h : n.Lies cfg seq off len) (hs : n'.slotted = n.slotted) :
    n'.Lies cfg seq off len := by
  obtain ⟨hfirst, hoff, hlen⟩ := h
  exact ⟨hfirst, hs ▸ hoff, hs ▸ hlen⟩

theorem Lies.of_append (h : n.Lies cfg seq off len) {fs : List Bytes}
    (hs : n'.slotted = n.slotted ++ fs) : n'.Lies cfg seq off len := by
  obtain ⟨hfirst, hoff, f, hget, hlen⟩ := h
  have hlt := (List.getElem?_eq_some_iff.mp hget).1
  refine ⟨hfirst, ?_, f, ?_, hlen⟩
  · rw [hs, Blocks.start_append hlt.le]
    exact hoff
  · rw [hs, List.getElem?_append_left hlt]
    exact hget

theorem Lies.unique {off' len' : ℕ} (h : n.Lies cfg seq off len) (h' : n.Lies cfg seq off' len') :
    off = off' ∧ len = len' := by
  obtain ⟨-, hoff, f, hget, hlen⟩ := h
  obtain ⟨-, hoff', f', hget', hlen'⟩ := h'
  rw [hget, Option.some.injEq] at hget'
  rw [hoff, hoff', hlen, hlen', hget']
  exact ⟨rfl, rfl⟩

theorem StageOk.imp {stage : ExtentStage} (h : n.StageOk cfg seq stage) {fs : List Bytes}
    (hs : n'.slotted = n.slotted ++ fs)
    (hl : n'.IsLive cfg seq → n.IsLive cfg seq ∨ cfg.firstSeq + n.slotted.length ≤ seq) :
    n'.StageOk cfg seq stage := by
  have hle : n.slotted.length ≤ n'.slotted.length := by
    rw [hs, List.length_append]
    exact Nat.le_add_right _ _
  cases stage with
  | owner => trivial
  | off => exact Nat.lt_of_lt_of_le h (Nat.add_le_add_left hle _)
  | len off =>
    obtain ⟨hlt, hlies⟩ := h
    refine ⟨Nat.lt_of_lt_of_le hlt (Nat.add_le_add_left hle _), fun hl' => ?_⟩
    obtain ⟨len, hlen⟩ := hlies ((hl hl').resolve_right (by omega))
    exact ⟨len, hlen.of_append hs⟩
  | recheck off len =>
    obtain ⟨hlt, hlies⟩ := h
    refine ⟨Nat.lt_of_lt_of_le hlt (Nat.add_le_add_left hle _), fun hl' => ?_⟩
    exact (hlies ((hl hl').resolve_right (by omega))).of_append hs

theorem SubAt.imp {pc : SubPc} (hat : n.SubAt cfg pc) (hs : n'.slotted = n.slotted ++ [])
    (hlive : ∀ a, n'.IsLive cfg a → n.IsLive cfg a)
    (hres : n.owner (index cfg n.seqNext) = .reserved → n'.owner (index cfg n.seqNext) = .reserved)
    (hseq : n'.seqNext = n.seqNext) (hpos : n'.reclaimPos = n.reclaimPos) (hoff : n'.off = n.off)
    (hlen : n'.len = n.len) (hwrite : n'.write = n.write) (hsend : n.send ≤ n'.send) :
    n'.SubAt cfg pc := by
  cases pc with
  | idle | admission => trivial
  | walk r seq | floor r seq => exact ⟨hseq ▸ hat.1, fun a ha => hat.2 a (hlive a ha)⟩
  | extent r seq stage =>
    exact ⟨fun a ha => hat.1 a (hlive a ha), hat.2.imp hs fun ha => .inl (hlive _ ha)⟩
  | release r pos => exact hat.trans hpos.ge
  | ack r target => exact ⟨hat.1.trans hpos.ge, hat.2.trans hsend⟩
  | isFree r | stage r => exact hat
  | count f | reserve f | nextSeq f | commit f => exact hat
  | storeOff f =>
    rw [SubAt, hseq]
    exact ⟨hat.1, hres hat.2⟩
  | storeLen f =>
    rw [SubAt, hseq, hoff, hwrite]
    exact ⟨hat.1, hres hat.2.1, hat.2.2⟩
  | publish f =>
    rw [SubAt, hseq, hoff, hlen, hwrite]
    exact ⟨hat.1, hres hat.2.1, hat.2.2⟩

theorem Framed.setSub {q : SubPc} (h : n.Framed cfg) (hsub : n.sub = q) (pc : SubPc)
    (hst : pc.staged = q.staged ∨ pc.staged = []) (hcl : pc.claimed = q.claimed)
    (his : pc.issued = q.issued) (hat : SubAt cfg { n with sub := pc } pc) :
    Framed cfg { n with sub := pc } := by
  subst hsub
  have hs : RemoteLink.slotted { n with sub := pc } = n.slotted := by
    simp only [slotted, hcl]
  refine ⟨?_, h.nextSeq, h.write, h.ack, h.send, ?_, ?_, h.good, ?_, ?_, h.reclaimed, h.reclaimSeq,
    h.oldest, hat⟩
  · rw [h.seqNext]
    simp only [his]
  · have := h.room
    rcases hst with hst | hst <;> simp only [hst, List.length_nil] <;> omega
  · rcases hst with hst | hst
    · simp only [hst]
      exact h.holds
    · simp only [hst, List.append_nil]
      exact h.holds.left
  · exact fun a ha => (h.slots a ha).of_slotted hs
  · exact fun a off len ha hlies => h.retained a off len ha (hlies.of_slotted hs.symm)

theorem index_ne_of_live {a : ℕ} (ha : n.IsLive cfg a)
    (hr : n.owner (index cfg seq) ≠ .seq a) : index cfg a ≠ index cfg seq := by
  intro heq
  rw [IsLive, heq] at ha
  exact hr ha

theorem Framed.storeWord (h : n.Framed cfg) (hr : n.owner (index cfg n.seqNext) = .reserved)
    (pc : SubPc) (off' len' : ℕ) (hst : pc.staged = n.sub.staged) (hcl : pc.claimed = n.sub.claimed)
    (his : pc.issued = n.sub.issued)
    (hat : SubAt cfg { n with
      off := update n.off (index cfg n.seqNext) off'
      len := update n.len (index cfg n.seqNext) len', sub := pc } pc) :
    Framed cfg { n with
      off := update n.off (index cfg n.seqNext) off'
      len := update n.len (index cfg n.seqNext) len', sub := pc } := by
  have hs : RemoteLink.slotted { n with
      off := update n.off (index cfg n.seqNext) off'
      len := update n.len (index cfg n.seqNext) len', sub := pc } = n.slotted := by
    simp only [slotted, hcl]
  refine ⟨?_, h.nextSeq, h.write, h.ack, h.send, ?_, ?_, h.good, ?_, ?_, h.reclaimed, h.reclaimSeq,
    h.oldest, hat⟩
  · rw [h.seqNext]
    simp only [his]
  · simp only [hst]
    exact h.room
  · simp only [hst]
    exact h.holds
  · intro a ha
    have hne : index cfg a ≠ index cfg n.seqNext :=
      index_ne_of_live (n := n) ha (by rw [hr]; simp)
    have := (h.slots a ha).of_slotted hs
    simpa only [update_of_ne hne] using this
  · exact fun a off len ha hlies => h.retained a off len ha (hlies.of_slotted hs.symm)

theorem isLive_update {i : ℕ} {w : Owner} {a : ℕ} :
    IsLive cfg { n with owner := update n.owner i w } a ↔
      if index cfg a = i then w = .seq a else n.IsLive cfg a := by
  unfold IsLive
  dsimp only
  by_cases hi : index cfg a = i
  · rw [hi, update_self, if_pos rfl]
  · rw [update_of_ne hi, if_neg hi]

section

variable (h : n.Framed cfg)

include h

variable {r : Request}

/-- `reclaim`: the frontier is put at an offset that no live frame is below. -/
theorem Framed.reclaim {pos : ℕ} (hst : n.sub.staged = []) (hcl : n.sub.claimed = [])
    (his : n.sub.issued = 0) (hle : n.reclaimPos ≤ pos) (hw : pos ≤ n.write)
    (hlive : ∀ a off len, n.IsLive cfg a → n.Lies cfg a off len → pos ≤ off) (floor : ℕ)
    (hfloor : floor ≤ n.seqNext ∧ ∀ a, n.IsLive cfg a → floor ≤ a) :
    Framed cfg { n with oldestUnreclaimed := floor, reclaimPos := pos, sub := .release r pos } := by
  have hs : RemoteLink.slotted { n with
      oldestUnreclaimed := floor, reclaimPos := pos, sub := .release r pos } = n.slotted := by
    show n.frames ++ [] = n.frames ++ n.sub.claimed
    rw [hcl]
  have hn := h.seqNext
  have hroom := h.room
  have hholds := h.holds
  rw [his] at hn
  rw [hst] at hroom hholds
  refine ⟨hn, h.nextSeq, h.write, h.ack, h.send, hroom, hholds, h.good, ?_, ?_,
    ⟨h.reclaimed.1.trans hle, hw⟩, h.reclaimSeq, hfloor, le_rfl⟩
  · exact fun a ha => (h.slots a ha).of_slotted hs
  · exact fun a off len ha hlies => hlive a off len ha (hlies.of_slotted hs.symm)

theorem Framed.walk (hsub : n.sub = .walk r seq) (ok : Bool) : (n.submitter cfg ok).Framed cfg := by
  have hat := h.subAt
  rw [hsub] at hat
  obtain ⟨hle, hlive⟩ := hat
  simp only [submitter, hsub]
  split
  · rename_i hdead
    refine h.setSub hsub _ (.inr rfl) rfl rfl ⟨hdead.1, fun a ha => ?_⟩
    have hne : a ≠ seq := fun he => hdead.2 (he ▸ ha)
    exact Nat.lt_of_le_of_ne (hlive a ha) hne.symm
  · have hset := h.setSub hsub (.floor r seq) (.inr rfl) rfl rfl ⟨hle, hlive⟩
    exact ⟨hset.seqNext, hset.nextSeq, hset.write, hset.ack, hset.send, hset.room, hset.holds,
      hset.good, fun a ha => (hset.slots a ha).of_slotted rfl,
      fun a off len ha hl => hset.retained a off len ha (hl.of_slotted rfl), hset.reclaimed,
      ⟨hle, hlive⟩, hset.oldest, hset.subAt⟩

theorem Framed.floorStep (hsub : n.sub = .floor r seq) (ok : Bool) :
    (n.submitter cfg ok).Framed cfg := by
  have hat := h.subAt
  rw [hsub] at hat
  obtain ⟨hle, hlive⟩ := hat
  have hn := h.seqNext
  rw [hsub] at hn
  simp only [submitter, hsub]
  by_cases hlt : seq < n.seqNext
  · simp only [if_pos hlt]
    have hset := h.setSub hsub (.extent r seq .owner) (.inr rfl) rfl rfl ⟨hlive, trivial⟩
    exact ⟨hset.seqNext, hset.nextSeq, hset.write, hset.ack, hset.send, hset.room, hset.holds,
      hset.good, fun a ha => (hset.slots a ha).of_slotted rfl,
      fun a off len ha hl => hset.retained a off len ha (hl.of_slotted rfl), hset.reclaimed,
      hset.reclaimSeq, ⟨hle, hlive⟩, hset.subAt⟩
  · simp only [if_neg hlt]
    refine h.reclaim (by rw [hsub]; rfl) (by rw [hsub]; rfl) (by rw [hsub]; rfl)
      (le_max_right _ _) (max_le le_rfl h.reclaimed.2) ?_ seq ⟨hle, hlive⟩
    -- Nothing is live.
    intro a off len ha _
    have hlow := hlive a ha
    have hhigh := (h.live_lt ha).2
    simp only [slotted, hsub, SubPc.claimed, SubPc.issued, List.append_nil] at hhigh hn
    omega

theorem Framed.extentStep {stage : ExtentStage} (hsub : n.sub = .extent r seq stage) (ok : Bool) :
    (n.submitter cfg ok).Framed cfg := by
  have hat := h.subAt
  rw [hsub] at hat
  obtain ⟨hlive, hst⟩ := hat
  obtain ⟨hl1, hl2, hl3⟩ := h.liveExtent hst
  simp only [submitter, hsub]
  split
  · rename_i st heq
    have hs : RemoteLink.slotted { n with sub := .extent r seq st } = n.slotted ++ [] := by
      simp [slotted, hsub, SubPc.claimed]
    exact h.setSub hsub _ (.inr rfl) rfl rfl ⟨hlive, (hl1 st heq).imp hs .inl⟩
  · exact h.setSub hsub _ (.inr rfl) rfl rfl le_rfl
  · rename_i off len heq
    obtain ⟨-, hlies⟩ := hl3 off len heq
    have hslot : n.slotted = n.frames := by simp [slotted, hsub, SubPc.claimed]
    have hoff : off ≤ n.write := by
      obtain ⟨-, hoff, f, hget, -⟩ := hlies
      rw [hoff, h.write, ← Blocks.start_length, hslot]
      rw [hslot] at hget
      exact Blocks.start_mono (List.getElem?_eq_some_iff.mp hget).1.le
    refine h.reclaim (by rw [hsub]; rfl) (by rw [hsub]; rfl)
      (by rw [hsub]; rfl) (le_max_right _ _) (max_le hoff h.reclaimed.2) ?_ n.oldestUnreclaimed h.oldest
    intro a off' len' ha ha'
    refine max_le ?_ (h.retained a off' len' ha ha')
    rw [hlies.off, ha'.off]
    exact Blocks.start_mono (Nat.sub_le_sub_right (hlive a ha) _)

theorem Framed.ackStep {target : ℕ} (hsub : n.sub = .ack r target) (ok : Bool) :
    (n.submitter cfg ok).Framed cfg := by
  have hat := h.subAt
  rw [hsub] at hat
  have hset := h.setSub hsub (.admission r) (.inr rfl) rfl rfl
    trivial
  have hroom := hset.room
  simp only [submitter, hsub]
  refine ⟨hset.seqNext, hset.nextSeq, hset.write, max_le h.ack hat.2, h.send, ?_,
    hset.holds.mono (le_max_left _ _), hset.good, fun a ha => (hset.slots a ha).of_slotted rfl,
    fun a off len ha hl => hset.retained a off len ha (hl.of_slotted rfl),
    ⟨max_le h.reclaimed.1 hat.1, h.reclaimed.2⟩, hset.reclaimSeq, hset.oldest, trivial⟩
  dsimp only at hroom ⊢
  omega

theorem Framed.stageStep (hsub : n.sub = .stage r) (ok : Bool) :
    (n.submitter cfg ok).Framed cfg := by
  have hat : frameHeaderLen + r.payload.length ≤ maxFrameLen := by
    have := h.subAt
    rwa [hsub] at this
  have hroom := h.room
  have hholds := h.holds
  have hn := h.seqNext
  rw [hsub] at hroom hholds hn
  simp only [SubPc.staged, List.append_nil, List.length_nil, Nat.add_zero] at hroom hholds
  simp only [submitter, hsub]
  split
  · exact h.setSub hsub _ (.inr rfl) rfl rfl trivial
  · have hs : RemoteLink.slotted { n with
        ring := CellRing.write cfg.capacity n.ring n.write (r.frame cfg.clientId n.seqNext)
        sub := .count (r.frame cfg.clientId n.seqNext) } = n.slotted := by
      simp [slotted, hsub, SubPc.claimed]
    have hack := h.ack
    have hsend := h.send
    have hspace : n.write + (r.frame cfg.clientId n.seqNext).length ≤ n.ack + cfg.capacity := by
      omega
    refine ⟨hn, h.nextSeq, h.write, hack, hsend, hspace, ?_, h.good,
      fun a ha => (h.slots a ha).of_slotted hs,
      fun a off len ha hl => h.retained a off len ha (hl.of_slotted hs.symm), h.reclaimed,
      h.reclaimSeq, h.oldest, goodFrame hat _ _⟩
    rw [h.write] at hspace hsend ⊢
    exact hholds.append (hack.trans hsend) hspace

theorem Framed.setOwner {i : ℕ} {w : Owner} (hw : ∀ a, w ≠ .seq a) {pc : SubPc}
    (hst : pc.staged = n.sub.staged) (hcl : pc.claimed = n.sub.claimed)
    (his : pc.issued = n.sub.issued)
    (hat : SubAt cfg { n with owner := update n.owner i w, sub := pc } pc) :
    Framed cfg { n with owner := update n.owner i w, sub := pc } := by
  have hs : RemoteLink.slotted { n with owner := update n.owner i w, sub := pc } = n.slotted := by
    simp only [slotted, hcl]
  have hlive : ∀ a, IsLive cfg { n with owner := update n.owner i w, sub := pc } a →
      n.IsLive cfg a := by
    intro a ha
    have ha := isLive_update.mp ha
    split at ha
    · exact absurd ha (hw a)
    · exact ha
  refine ⟨?_, h.nextSeq, h.write, h.ack, h.send, ?_, ?_, h.good,
    fun a ha => (h.slots a (hlive a ha)).of_slotted hs,
    fun a off len ha hl => h.retained a off len (hlive a ha) (hl.of_slotted hs.symm), h.reclaimed,
    ⟨h.reclaimSeq.1, fun a ha => h.reclaimSeq.2 a (hlive a ha)⟩,
    ⟨h.oldest.1, fun a ha => h.oldest.2 a (hlive a ha)⟩, hat⟩
  · rw [h.seqNext]
    simp only [his]
  · simp only [hst]
    exact h.room
  · simp only [hst]
    exact h.holds

theorem Framed.publishStep {f : Bytes} (hsub : n.sub = .publish f) (ok : Bool) :
    (n.submitter cfg ok).Framed cfg := by
  have hat := h.subAt
  rw [hsub] at hat
  obtain ⟨hgood, hres, hoff, hlen⟩ := hat
  have hn := h.seqNext
  have hroom := h.room
  have hholds := h.holds
  rw [hsub] at hn hroom hholds
  have hslot : n.slotted = n.frames := by simp [slotted, hsub, SubPc.claimed]
  simp only [submitter, hsub]
  set n' : RemoteLink := { n with
    owner := update n.owner (index cfg n.seqNext) (.seq n.seqNext), sub := .nextSeq f } with hn'
  have hs : n'.slotted = n.slotted ++ [f] := by rw [hslot]; rfl
  have hlive : ∀ a, n'.IsLive cfg a → a = n.seqNext ∨ n.IsLive cfg a := by
    intro a ha
    have ha := isLive_update.mp ha
    split at ha
    · injection ha with ha
      exact .inl ha.symm
    · exact .inr ha
  have hseq : n.seqNext = cfg.firstSeq + n.frames.length := hn
  have hnew : n'.Lies cfg n.seqNext n.write f.length := by
    have hidx : n.seqNext - cfg.firstSeq = n.frames.length := by omega
    refine ⟨by omega, ?_, f, ?_, rfl⟩
    · rw [hs, hslot, hidx, Blocks.start_append le_rfl, Blocks.start_length, h.write]
    · rw [hs, hslot, hidx, List.getElem?_concat_length]
  refine ⟨hn, h.nextSeq, h.write, h.ack, h.send, hroom, hholds, h.good, ?_, ?_, h.reclaimed,
    ⟨h.reclaimSeq.1, ?_⟩, ⟨h.oldest.1, ?_⟩, hgood⟩
  · intro a ha
    rcases hlive a ha with rfl | ha
    · rw [hoff.symm, hlen.symm] at hnew
      exact hnew
    · exact (h.slots a ha).of_append hs
  · intro a off len ha hl
    rcases hlive a ha with rfl | ha
    · rw [(hl.unique hnew).1]
      exact h.reclaimed.2
    · have hold := h.slots a ha
      rw [(hl.unique (hold.of_append hs)).1]
      exact h.retained a _ _ ha hold
  · intro a ha
    rcases hlive a ha with rfl | ha
    · exact h.reclaimSeq.1
    · exact h.reclaimSeq.2 a ha
  · intro a ha
    rcases hlive a ha with rfl | ha
    · exact h.oldest.1
    · exact h.oldest.2 a ha

theorem Framed.nextSeqStep {f : Bytes} (hsub : n.sub = .nextSeq f) (ok : Bool) :
    (n.submitter cfg ok).Framed cfg := by
  have hn := h.seqNext
  have hroom := h.room
  have hholds := h.holds
  have hgood : GoodFrame f := by
    have := h.subAt
    rwa [hsub] at this
  rw [hsub] at hn hroom hholds
  have hslot : n.slotted = n.frames ++ [f] := by rw [slotted, hsub]; rfl
  simp only [submitter, hsub]
  refine ⟨?_, rfl, h.write, h.ack, h.send, hroom, hholds, h.good,
    fun a ha => (h.slots a ha).of_slotted hslot.symm,
    fun a off len ha hl => h.retained a off len ha (hl.of_slotted hslot), h.reclaimed,
    ⟨h.reclaimSeq.1.trans (Nat.le_succ _), h.reclaimSeq.2⟩,
    ⟨h.oldest.1.trans (Nat.le_succ _), h.oldest.2⟩, hgood⟩
  simp only [SubPc.issued] at hn ⊢
  omega

theorem Framed.commitStep {f : Bytes} (hsub : n.sub = .commit f) (ok : Bool) :
    (n.submitter cfg ok).Framed cfg := by
  have hn := h.seqNext
  have hroom := h.room
  have hholds := h.holds
  have hgood : GoodFrame f := by
    have := h.subAt
    rwa [hsub] at this
  have hslot : n.slotted = n.frames ++ [f] := by rw [slotted, hsub]; rfl
  rw [hsub] at hn hroom hholds
  have hflat : (n.frames ++ [f]).flatten = n.frames.flatten ++ f := by simp
  simp only [submitter, hsub]
  set n' : RemoteLink := { n with
    write := n.write + f.length, frames := n.frames ++ [f], sub := .idle } with hn'
  have hs : n'.slotted = n.slotted := by
    rw [hslot]
    exact List.append_nil _
  refine ⟨?_, h.nextSeq, ?_, h.ack, h.send.trans (Nat.le_add_right _ _), hroom, ?_, ?_,
    fun a ha => (h.slots a ha).of_slotted hs,
    fun a off len ha hl => h.retained a off len ha (hl.of_slotted hs.symm),
    ⟨h.reclaimed.1, h.reclaimed.2.trans (Nat.le_add_right _ _)⟩, h.reclaimSeq, h.oldest, trivial⟩
  · simp only [hn', SubPc.issued, List.length_append, List.length_singleton] at hn ⊢
    omega
  · show n.write + f.length = (n.frames ++ [f]).flatten.length
    rw [hflat, List.length_append, h.write]
  · show CellRing.Holds cfg.capacity n.ring n.ack ((n.frames ++ [f]).flatten ++ [])
    rw [hflat, List.append_nil]
    exact hholds
  · refine List.forall_mem_snoc h.good ?_
    exact hgood

theorem Framed.submitter (ok : Bool) : (n.submitter cfg ok).Framed cfg := by
  cases hsub : n.sub with
  | idle =>
    simp only [RemoteLink.submitter, hsub]
    exact h
  | walk r seq => exact h.walk hsub ok
  | floor r seq => exact h.floorStep hsub ok
  | extent r seq stage => exact h.extentStep hsub ok
  | release r pos =>
    have hat := h.subAt
    rw [hsub] at hat
    simp only [RemoteLink.submitter, hsub]
    exact h.setSub hsub _ (.inr rfl) rfl rfl ⟨(min_le_left _ _).trans hat, min_le_right _ _⟩
  | ack r target => exact h.ackStep hsub ok
  | admission r =>
    simp only [RemoteLink.submitter, hsub]
    split
    · exact h.setSub hsub _ (.inr rfl) rfl rfl trivial
    · rename_i hfit
      exact h.setSub hsub _ (.inr rfl) rfl rfl (Nat.not_lt.mp fun hc => hfit (.inl hc))
  | isFree r =>
    have hat := h.subAt
    rw [hsub] at hat
    simp only [RemoteLink.submitter, hsub]
    split
    · exact h.setSub hsub _ (.inr rfl) rfl rfl hat
    · exact h.setSub hsub _ (.inr rfl) rfl rfl trivial
  | stage r => exact h.stageStep hsub ok
  | count f =>
    have hat := h.subAt
    rw [hsub] at hat
    simp only [RemoteLink.submitter, hsub]
    split
    · exact h.setSub hsub _ (.inl rfl) rfl rfl hat
    · exact h.setSub hsub _ (.inr rfl) rfl rfl trivial
  | reserve f =>
    have hat := h.subAt
    rw [hsub] at hat
    simp only [RemoteLink.submitter, hsub]
    split
    · exact h.setOwner (by simp) (by rw [hsub]; rfl) (by rw [hsub]; rfl) (by rw [hsub]; rfl)
        ⟨hat, update_self _ _ _⟩
    · exact h.setSub hsub _ (.inr rfl) rfl rfl trivial
  | storeOff f =>
    have hat := h.subAt
    rw [hsub] at hat
    simp only [RemoteLink.submitter, hsub]
    have hstore := h.storeWord hat.2 (.storeLen f) n.write (n.len (index cfg n.seqNext))
        (by rw [hsub]; rfl) (by rw [hsub]; rfl)
      (by rw [hsub]; rfl) ⟨hat.1, hat.2, update_self _ _ _⟩
    rwa [update_eq_self] at hstore
  | storeLen f =>
    have hat := h.subAt
    rw [hsub] at hat
    simp only [RemoteLink.submitter, hsub]
    have hstore := h.storeWord hat.2.1 (.publish f) (n.off (index cfg n.seqNext)) f.length
      (by rw [hsub]; rfl) (by rw [hsub]; rfl) (by rw [hsub]; rfl)
      ⟨hat.1, hat.2.1, by dsimp only; rw [update_self, hat.2.2], update_self _ _ _⟩
    rwa [update_eq_self] at hstore
  | publish f => exact h.publishStep hsub ok
  | nextSeq f => exact h.nextSeqStep hsub ok
  | commit f => exact h.commitStep hsub ok

theorem Framed.resolve (seq : ℕ) : (step cfg n (.resolve seq)).Framed cfg := by
  simp only [step]
  split
  · rename_i hl
    refine h.setOwner (by simp) rfl rfl rfl (h.subAt.imp (List.append_nil _).symm ?_ ?_ rfl rfl rfl rfl
      rfl le_rfl)
    · intro a ha
      have ha := isLive_update.mp ha
      split at ha
      · cases ha
      · exact ha
    · intro hr
      dsimp only
      rw [update_of_ne, hr]
      intro heq
      rw [IsLive, ← heq, hr] at hl
      cases hl
  · exact h

/-- What the writer and the reader change is not in the invariant, but for the
    send position, which moves up. -/
theorem Framed.moved (send : ℕ) (retransmit : List ℕ) (needed closed : Bool) (writer : WriterPc)
    (reader : ReaderPc) (begun : List ℕ) (wire : Bytes) (ever : List ℕ) (broken : Bool)
    (hle : n.send ≤ send) (hw : send ≤ n.write) :
    Framed cfg { n with send, retransmit, needed, closed, writer, reader, begun, wire, ever, broken } :=
  ⟨h.seqNext, h.nextSeq, h.write, h.ack.trans hle, hw, h.room, h.holds, h.good,
    fun a ha => (h.slots a ha).of_slotted rfl,
    fun a off len ha hl => h.retained a off len ha (hl.of_slotted rfl), h.reclaimed,
    h.reclaimSeq, h.oldest,
    h.subAt.imp (List.append_nil _).symm (fun _ ha => ha) id rfl rfl rfl rfl rfl hle⟩

end

end RemoteLink

end Remote

end UltimaCluster
