/-
  A cursor on the log (`uc_log/src/reader.rs`, `read_run_validated` of
  `uc_log/src/buffer.rs`): runs of whole frames are copied, a padding as its header
  only, and the frames of a run are yielded up to a target.

  A call is one step, and appends come between calls; what a read does while an
  append is under way is the matter of `LogRing`.  No receiver writes, so there is
  no write reserve.  A batch is drained before the next call.
-/
import UltimaCluster.LogAppender

namespace UltimaCluster

open Bytes (le length_le num num_append_left slice val)
open List (append_assoc append_nil flatten_cons length length_append map_append mem_append_right
  mem_cons_self)
open Tiling (le_of_mem_place place place_append width_cons width_nil)

/-- The header of a frame. -/
structure FrameHeader where
  length : ℕ
  frameType : UInt8
  flags : UInt8
  leadershipTermId : ℕ
  clientId : ℕ
  seq : ℕ
  timeNs : ℕ
deriving DecidableEq

/-- The fields of a header. -/
def readHeader (buf : Bytes) : FrameHeader where
  length := Bytes.num buf 0 4
  frameType := buf.getD 4 0
  flags := buf.getD 5 0
  leadershipTermId := Bytes.num buf 8 12
  clientId := Bytes.num buf 12 16
  seq := Bytes.num buf 16 20
  timeNs := Bytes.num buf 24 32

/-- What a read of the ring answers. -/
inductive SliceRead where
  /-- The bytes copied, and how far they reach. -/
  | run (out : Bytes) (advance : ℕ)
  | notCommitted
  | overrun
deriving DecidableEq

namespace AppendLog

variable (b : LogBuffer)

/-- So many bytes from an offset on. -/
def bytesFrom (s : AppendLog) (o n : ℕ) : Bytes := (List.range n).map fun i => s.cells (o + i)

/-- The walk of `read_run_validated`, of so many frames at most. -/
def walkRun (s : AppendLog) (off hard maxBytes : ℕ) : ℕ → ℕ → Bytes → Bytes × ℕ
  | 0, walked, out => (out, walked)
  | fuel + 1, walked, out =>
    if walked < hard then
      let o := off + walked
      let len := Bytes.val (s.bytesFrom o 4)
      -- never written to this file
      if len = 0 then (out, walked)
      else
        let aligned := alignFrameLen len
        if aligned = 0 ∨ hard < walked + aligned then (out, walked)
        else
          let padding := s.cells (o + offType) == frameTypePadding
          let copyLen := if padding then headerLen else aligned
          if 0 < out.length ∧ maxBytes < out.length + copyLen then (out, walked)
          else
            let out := out ++ s.bytesFrom o copyLen
            let walked := walked + aligned
            if padding ∨ maxBytes ≤ out.length then (out, walked)
            else walkRun s off hard maxBytes fuel walked out
    else (out, walked)

/-- A run of whole frames. -/
def readRunValidated (s : AppendLog) (start maxBytes : ℕ) : SliceRead :=
  if s.append ≤ start then .notCommitted
  else if start + b.capacity < LogRing.writeExtent b s.append 0 then .overrun
  else
    let off := b.offset start
    let hard := min (s.append - start) (b.capacity - off)
    let (out, walked) := s.walkRun off hard maxBytes hard 0 []
    -- the re-check
    if start + b.capacity < LogRing.writeExtent b s.append 0 then .overrun
    else if walked = 0 then .overrun
    else .run out walked

end AppendLog

/-! ## Batches -/

/-- `MAX_RUN_BYTES`. -/
def maxRunBytes : ℕ := 64 * 1024

/-- A position, a header and a payload. -/
abbrev FrameItem := ℕ × FrameHeader × Bytes

/-- The iterator over one batch. -/
structure FrameIter where
  buf : Bytes
  boff : ℕ
  cursor : ℕ
  target : ℕ
  done : Bool
deriving DecidableEq

namespace FrameIter

/-- `next`, of so many frames at most: a padding is passed over. -/
def next : ℕ → FrameIter → Option FrameItem × FrameIter
  | 0, it => (none, it)
  | fuel + 1, it =>
    if it.done = true ∨ it.buf.length ≤ it.boff then (none, it)
    else
      let hdr := readHeader (it.buf.drop it.boff)
      let aligned := alignFrameLen hdr.length
      if it.target < it.cursor + aligned then (none, { it with done := true })
      else if hdr.frameType = frameTypePadding then
        next fuel { it with cursor := it.cursor + aligned, boff := it.boff + headerLen }
      else
        (some (it.cursor, hdr, Bytes.slice it.buf (it.boff + headerLen) (it.boff + hdr.length)),
          { it with cursor := it.cursor + aligned, boff := it.boff + aligned })

/-- `next` until there is none. -/
def drain : ℕ → FrameIter → List FrameItem × FrameIter
  | 0, it => ([], it)
  | fuel + 1, it =>
    match it.next (it.buf.length + 1) with
    | (none, it) => ([], it)
    | (some x, it) =>
      let (xs, it) := drain fuel it
      (x :: xs, it)

end FrameIter

/-- What `next_batch` answers. -/
inductive Batch where
  | frames (items : List FrameItem)
  | caughtUp
  | overrun
deriving DecidableEq

/-- The follower of one log. -/
structure LogFollower where
  log : AppendLog
  cursor : ℕ
  /-- What the batches yielded. -/
  yielded : List FrameItem

/-- A step of the leader or of the follower. -/
inductive FollowStep where
  | append (step : AppendStep)
  | nextBatch (target : ℕ)
deriving DecidableEq

namespace LogFollower

variable (b : LogBuffer)

/-- A batch, and the cursor behind it. -/
def nextBatch (w : LogFollower) (target : ℕ) : Batch × ℕ :=
  if target ≤ w.cursor then (.caughtUp, w.cursor)
  else
    let maxBytes := min (target - w.cursor) maxRunBytes
    match w.log.readRunValidated b w.cursor maxBytes with
    | .notCommitted => (.caughtUp, w.cursor)
    | .overrun => (.overrun, w.cursor)
    | .run out _ =>
      let (items, it) := FrameIter.drain (out.length + 1) ⟨out, 0, w.cursor, target, false⟩
      (.frames items, it.cursor)

/-- One call of either side. -/
def exec (w : LogFollower) : FollowStep → LogFollower
  | .append step => { w with log := w.log.exec b step }
  | .nextBatch target =>
    match w.nextBatch b target with
    | (.frames items, cursor) => { w with cursor, yielded := w.yielded ++ items }
    | (_, cursor) => { w with cursor }

/-- A frame of the log starts here, or its last one ends here. -/
def FrameEnd (s : AppendLog) (pos : ℕ) : Prop := Tiling.Edge Laid.span 0 (s.laid.map Prod.snd) pos

/-- The targets are ends of frames. -/
def Possible (w : LogFollower) : FollowStep → Prop
  | .append step => w.log.Possible step
  | .nextBatch target => FrameEnd w.log target

def run (w : LogFollower) (steps : List FollowStep) : LogFollower := steps.foldl (exec b) w

/-- What is yielded of a frame. -/
def itemOf (x : ℕ × Laid) : Option FrameItem :=
  if x.2.isPadding then none else some (x.1, readHeader x.2.image, x.2.frame.body)

/-- The frames between two positions that are not paddings. -/
def itemsBetween (s : AppendLog) (lo hi : ℕ) : List FrameItem :=
  (s.laid.filter fun x => lo ≤ x.1 ∧ x.1 + x.2.span ≤ hi).filterMap itemOf

end LogFollower

/-! ## A frame in the buffer -/

namespace Laid

variable (e : Laid)

theorem image_eq : e.image = le 4 e.length ++ (e.frame.headerExceptLength ++ e.frame.body) :=
  append_assoc _ _ _

/-- What is copied of a frame: its bytes, and for all but a padding what is behind
    them up to the next frame. -/
structure Piece (p : Bytes) : Prop where
  image : ∃ rest, p = e.image ++ rest
  length : p.length = if e.isPadding then headerLen else e.span

end Laid

namespace AppendLog

variable {b : LogBuffer} {s : AppendLog}

theorem length_bytesFrom (o n : ℕ) : (s.bytesFrom o n).length = n := by
  unfold bytesFrom
  rw [List.length_map, List.length_range]

theorem bytesFrom_add (o m n : ℕ) : s.bytesFrom o (m + n) = s.bytesFrom o m ++ s.bytesFrom (o + m) n := by
  unfold bytesFrom
  rw [List.range_add, map_append, List.map_map]
  congr 1
  refine List.map_congr_left fun i _ => ?_
  show s.cells (o + (m + i)) = s.cells (o + m + i)
  rw [Nat.add_assoc]

variable {p : ℕ} {x : ℕ × Laid}

theorem Framed.bytesFrom_image (h : Framed b s p) (hx : x ∈ s.laid) (hlap : p ≤ x.1 + b.capacity) :
    s.bytesFrom (b.offset x.1) x.2.image.length = x.2.image := by
  refine List.ext_getElem? fun k => ?_
  unfold bytesFrom
  rw [List.getElem?_map]
  by_cases hk : k < x.2.image.length
  · rw [List.getElem?_range hk, Option.map_some, List.getElem?_eq_getElem hk]
    congr 1
    exact h.kept x hx hlap k _ (List.getElem?_eq_getElem hk)
  · rw [List.getElem?_eq_none (by rw [List.length_range]; omega), List.getElem?_eq_none (by omega)]
    rfl

theorem Framed.bytesFrom_of_le (h : Framed b s p) (hx : x ∈ s.laid) (hlap : p ≤ x.1 + b.capacity)
    {n : ℕ} (hn : x.2.image.length ≤ n) :
    ∃ rest, s.bytesFrom (b.offset x.1) n = x.2.image ++ rest := by
  obtain ⟨k, rfl⟩ := Nat.exists_eq_add_of_le hn
  exact ⟨_, by rw [bytesFrom_add, h.bytesFrom_image hx hlap]⟩

theorem Whole.length_le (h : Whole b x) : x.2.length < 256 ^ 4 := by
  have hlap := h.lap
  have hle := le_alignFrameLen x.2.length
  have hword := b.word
  unfold Laid.span at hlap
  omega

theorem Framed.word (h : Framed b s p) (hx : x ∈ s.laid) (hlap : p ≤ x.1 + b.capacity) :
    val (s.bytesFrom (b.offset x.1) 4) = x.2.length := by
  have himage := h.bytesFrom_image hx hlap
  have hlen : x.2.image.length = 4 + (x.2.frame.headerExceptLength ++ x.2.frame.body).length := by
    rw [Laid.image_eq, length_append, length_le]
  rw [hlen, bytesFrom_add, Laid.image_eq] at himage
  have hfour := (List.append_inj himage (by rw [length_bytesFrom, length_le])).1
  rw [hfour, Bytes.val_le (h.whole x hx).length_le]

theorem Framed.type (h : Framed b s p) (hx : x ∈ s.laid) (hlap : p ≤ x.1 + b.capacity) :
    s.cells (b.offset x.1 + offType) = x.2.frame.frameType := by
  refine h.kept x hx hlap offType _ ?_
  rw [Laid.image_eq, List.getElem?_append_right (by rw [length_le]; decide), length_le]
  rfl

/-- The frames from a position on. -/
structure Ahead (s : AppendLog) (pos : ℕ) (l : List Laid) : Prop where
  mem : ∀ x ∈ Tiling.place Laid.span pos l, x ∈ s.laid
  width : pos + Tiling.width Laid.span l = s.append

theorem Ahead.tail {pos : ℕ} {e : Laid} {l : List Laid} (h : Ahead s pos (e :: l)) :
    Ahead s (pos + e.span) l where
  mem x hx := h.mem x (List.mem_cons_of_mem _ hx)
  width := by rw [← h.width, width_cons, Nat.add_assoc]

theorem Framed.ahead (h : Framed b s s.append) {l₁ l₂ : List Laid} (hl : s.laid.map Prod.snd = l₁ ++ l₂) :
    Ahead s (Tiling.width Laid.span l₁) l₂ where
  mem x hx := by
    rw [h.tiled, hl, place_append, Nat.zero_add]
    exact mem_append_right _ hx
  width := by rw [h.width, hl, Tiling.width_append]

/-! ## The walk -/

/-- A padding is the last of a run. -/
def PaddingLast (m : List Laid) : Prop := ∀ m₁ e m₂, m = m₁ ++ e :: m₂ → e.isPadding = true → m₂ = []

theorem paddingLast_nil : PaddingLast [] := by
  intro m₁ e m₂ h
  cases m₁ <;> cases h

theorem paddingLast_singleton (e : Laid) : PaddingLast [e] := by
  intro m₁ e' m₂ h _
  cases m₁ with
  | nil =>
    cases h
    rfl
  | cons _ m₁ => cases m₁ <;> cases h

theorem PaddingLast.cons {e : Laid} {m : List Laid} (h : PaddingLast m) (he : e.isPadding = false) :
    PaddingLast (e :: m) := by
  intro m₁ e' m₂ hm hpad
  cases m₁ with
  | nil =>
    cases hm
    rw [he] at hpad
    cases hpad
  | cons _ m₁ =>
    rw [List.cons_append] at hm
    exact h m₁ e' m₂ (List.cons.inj hm).2 hpad

/-- What the walk copies: the frames from here on, up to some of them. -/
structure Walked (l : List Laid) (out : Bytes) (walked : ℕ) (res : Bytes × ℕ) (m : List Laid)
    (pieces : List Bytes) : Prop where
  frames : ∃ r, l = m ++ r
  result : res = (out ++ pieces.flatten, walked + Tiling.width Laid.span m)
  pieces : List.Forall₂ Laid.Piece m pieces
  padding : PaddingLast m

theorem walked_nil (l : List Laid) (out : Bytes) (walked : ℕ) : Walked l out walked (out, walked) [] [] where
  frames := ⟨l, rfl⟩
  result := by rw [List.flatten_nil, append_nil, width_nil, Nat.add_zero]
  pieces := .nil
  padding := paddingLast_nil

theorem Walked.cons {e : Laid} {l m : List Laid} {out piece : Bytes} {walked : ℕ} {res : Bytes × ℕ}
    {pieces : List Bytes} (h : Walked l (out ++ piece) (walked + e.span) res m pieces)
    (hpiece : e.Piece piece) (hpad : e.isPadding = true → m = []) :
    Walked (e :: l) out walked res (e :: m) (piece :: pieces) where
  frames := by
    obtain ⟨r, rfl⟩ := h.frames
    exact ⟨r, rfl⟩
  result := by
    rw [h.result, flatten_cons, append_assoc, width_cons, Nat.add_assoc]
  pieces := .cons hpiece h.pieces
  padding := by
    cases he : e.isPadding with
    | false => exact h.padding.cons he
    | true =>
      rw [hpad he]
      exact paddingLast_singleton e

theorem Framed.piece (h : Framed b s p) (hx : x ∈ s.laid) (hlap : p ≤ x.1 + b.capacity) :
    x.2.Piece (s.bytesFrom (b.offset x.1) (if x.2.isPadding then headerLen else x.2.span)) where
  image := by
    refine h.bytesFrom_of_le hx hlap ?_
    split
    · rename_i hpad
      rcases (h.whole x hx).kind with ⟨-, hbody, -⟩ | ⟨hno, -⟩
      · rw [Laid.length_image]
        unfold LogFrame.total
        rw [hbody]
        exact le_rfl
      · rw [hno] at hpad
        cases hpad
    · exact (h.whole x hx).length_image_le
  length := length_bytesFrom _ _

theorem walkRun_spec (h : Framed b s s.append) {start maxBytes : ℕ} (hstart : start < s.append)
    (hlap : s.append ≤ start + b.capacity) {fuel walked : ℕ} {out : Bytes} {l : List Laid}
    (hahead : Ahead s (start + walked) l) (hoff : b.offset start + walked ≤ b.capacity)
    (hfuel : min (s.append - start) (b.capacity - b.offset start) ≤ fuel + walked) :
    ∃ m pieces, Walked l out walked (s.walkRun (b.offset start)
        (min (s.append - start) (b.capacity - b.offset start)) maxBytes fuel walked out) m pieces ∧
      (out = [] → walked < min (s.append - start) (b.capacity - b.offset start) → m ≠ []) := by
  induction fuel generalizing walked out l with
  | zero => exact ⟨[], [], walked_nil l out walked, fun _ hlt => absurd hlt (by omega)⟩
  | succ fuel ih =>
    rw [walkRun]
    by_cases hlt : walked < min (s.append - start) (b.capacity - b.offset start)
    · rw [if_pos hlt]
      cases l with
      | nil =>
        -- there is a frame before the end of the log
        have := hahead.width
        rw [width_nil] at this
        omega
      | cons e l =>
        have hx : (start + walked, e) ∈ s.laid := hahead.mem _ mem_cons_self
        have hwhole := h.whole _ hx
        have hcell : b.offset (start + walked) = b.offset start + walked := b.offset_add (by omega)
        have hxlap : s.append ≤ (start + walked, e).1 + b.capacity := by
          omega
        have hword := h.word hx hxlap
        have htype := h.type hx hxlap
        have hpiece := h.piece hx hxlap
        have hend := h.end_le hx
        have hfit := hwhole.lap
        have hspan := hwhole.span_pos
        dsimp only at hword htype hpiece hend hfit hspan
        rw [hcell] at hword htype hpiece hfit
        have hlen : e.length ≠ 0 := by
          intro hzero
          unfold Laid.span at hspan
          rw [hzero] at hspan
          exact absurd hspan (by decide)
        dsimp only
        rw [hword, htype]
        rw [if_neg hlen, if_neg (by unfold Laid.span at hspan hend hfit; omega)]
        change e.Piece (s.bytesFrom (b.offset start + walked)
          (if e.frame.frameType == frameTypePadding then headerLen else alignFrameLen e.length)) at hpiece
        generalize (if e.frame.frameType == frameTypePadding then headerLen else alignFrameLen e.length) =
          copyLen at hpiece ⊢
        split
        · rename_i hfull
          exact ⟨[], [], walked_nil _ _ _, fun hout => by
            rw [hout] at hfull
            exact absurd hfull.1 (by decide)⟩
        · split
          · exact ⟨[e], [_], (walked_nil l _ _).cons hpiece fun _ => rfl, fun _ _ => List.cons_ne_nil _ _⟩
          · rename_i hmore
            have hnext : Ahead s (start + (walked + alignFrameLen e.length)) l := by
              rw [← Nat.add_assoc]
              exact hahead.tail
            obtain ⟨m, pieces, hwalked, -⟩ := ih hnext
              (by unfold Laid.span at hfit; omega) (by unfold Laid.span at hspan; omega)
            refine ⟨e :: m, _ :: pieces, hwalked.cons hpiece fun hpad => ?_, fun _ _ => List.cons_ne_nil _ _⟩
            exact absurd (.inl hpad) hmore
    · rw [if_neg hlt]
      exact ⟨[], [], walked_nil l out walked, fun _ hlt' => absurd hlt' hlt⟩

theorem readRunValidated_spec (h : Framed b s s.append) {l₁ l₂ : List Laid}
    (hl : s.laid.map Prod.snd = l₁ ++ l₂) {start : ℕ} (hpos : start = Tiling.width Laid.span l₁)
    (hlt : start < s.append) (maxBytes : ℕ) :
    s.readRunValidated b start maxBytes = .overrun ∨
      ∃ m r pieces, l₂ = m ++ r ∧ m ≠ [] ∧ List.Forall₂ Laid.Piece m pieces ∧ PaddingLast m ∧
        s.readRunValidated b start maxBytes = .run pieces.flatten (Tiling.width Laid.span m) := by
  have hahead := h.ahead hl
  rw [← hpos] at hahead
  unfold readRunValidated
  rw [if_neg (by omega)]
  by_cases hover : start + b.capacity < LogRing.writeExtent b s.append 0
  · rw [if_pos hover]
    exact .inl rfl
  · rw [if_neg hover]
    have hlap : s.append ≤ start + b.capacity := by
      unfold LogRing.writeExtent at hover
      omega
    have hoffset : b.offset start < b.capacity := Nat.mod_lt _ b.capacity_pos
    have hwalk : ∃ m pieces, Walked l₂ [] 0 (s.walkRun (b.offset start)
          (min (s.append - start) (b.capacity - b.offset start)) maxBytes
          (min (s.append - start) (b.capacity - b.offset start)) 0 []) m pieces ∧
        (([] : Bytes) = [] → 0 < min (s.append - start) (b.capacity - b.offset start) → m ≠ []) :=
      walkRun_spec h hlt hlap hahead (by omega) (by omega)
    obtain ⟨m, pieces, hwalked, hsome⟩ := hwalk
    have hne : m ≠ [] := hsome rfl (by omega)
    obtain ⟨r, hr⟩ := hwalked.frames
    refine .inr ⟨m, r, pieces, hr, hne, hwalked.pieces, hwalked.padding, ?_⟩
    have hwidth : Tiling.width Laid.span m ≠ 0 := by
      cases m with
      | nil => exact absurd rfl hne
      | cons e m =>
        have hx : (start, e) ∈ s.laid := hahead.mem _ (by rw [hr]; exact mem_cons_self)
        have hspan := (h.whole _ hx).span_pos
        dsimp only at hspan
        rw [width_cons]
        omega
    dsimp only
    rw [hwalked.result, List.nil_append, Nat.zero_add, if_neg hover, if_neg hwidth]

end AppendLog

/-! ## The frames of a run -/

theorem readHeader_append {a : Bytes} (h : 32 ≤ a.length) (rest : Bytes) :
    readHeader (a ++ rest) = readHeader a := by
  have hget : ∀ i < 32, (a ++ rest).getD i 0 = a.getD i 0 := by
    intro i hi
    rw [List.getD_eq_getElem?_getD, List.getD_eq_getElem?_getD, List.getElem?_append_left (by omega)]
  unfold readHeader
  rw [num_append_left (by omega), num_append_left (by omega),
    num_append_left (by omega), num_append_left (by omega),
    num_append_left (by omega), hget 4 (by omega), hget 5 (by omega)]

namespace Laid

variable {e : Laid}

theorem headerLen_le_image (e : Laid) : 32 ≤ e.image.length := by
  rw [length_image]
  exact Nat.le_add_right _ _

theorem readHeader_length (h : e.length < 256 ^ 4) : (readHeader e.image).length = e.length := by
  show num e.image 0 4 = e.length
  rw [image_eq, num_append_left (by rw [length_le]), Bytes.num_le h]

theorem readHeader_frameType (e : Laid) : (readHeader e.image).frameType = e.frame.frameType := by
  show e.image.getD 4 0 = e.frame.frameType
  rw [List.getD_eq_getElem?_getD, image_eq,
    List.getElem?_append_right (by rw [length_le]), length_le]
  rfl

theorem slice_image (h : e.length = e.frame.total) : slice e.image 32 e.length = e.frame.body := by
  have hlen : (le 4 e.length ++ e.frame.headerExceptLength).length = 32 := by
    have := length_image ⟨e.length, { e.frame with body := [] }⟩
    unfold image at this
    rw [append_nil] at this
    exact this
  unfold image
  rw [Bytes.slice_append_right (by rw [hlen]), hlen, Nat.sub_self]
  exact Bytes.slice_all (by rw [h, LogFrame.total, headerLen]; omega)

end Laid

namespace FrameIter

variable {it : FrameIter} {e : Laid} {piece rest : Bytes}

theorem next_end (h : it.buf.length ≤ it.boff) (fuel : ℕ) : it.next fuel = (none, it) := by
  cases fuel with
  | zero => rfl
  | succ fuel => rw [next, if_pos (.inr h)]

theorem next_frame (hdone : it.done = false) (hbuf : it.buf.drop it.boff = piece ++ rest)
    (hpiece : e.Piece piece) (hlen : e.length < 256 ^ 4) (fuel : ℕ) :
    it.next (fuel + 1) =
      if it.target < it.cursor + e.span then (none, { it with done := true })
      else if e.isPadding = true then
        next fuel { it with cursor := it.cursor + e.span, boff := it.boff + headerLen }
      else
        (some (it.cursor, readHeader e.image, slice (piece ++ rest) 32 e.length),
          { it with cursor := it.cursor + e.span, boff := it.boff + e.span }) := by
  obtain ⟨junk, rfl⟩ := hpiece.image
  have h32 := e.headerLen_le_image
  have hmore : it.boff < it.buf.length := by
    have hdrop := congrArg length hbuf
    rw [List.length_drop, length_append, length_append] at hdrop
    omega
  have hheader : readHeader (it.buf.drop it.boff) = readHeader e.image := by
    rw [hbuf, append_assoc, readHeader_append h32]
  have hslice : slice it.buf (it.boff + headerLen) (it.boff + e.length) =
      slice (e.image ++ junk ++ rest) 32 e.length := by
    rw [← hbuf]
    unfold slice
    rw [List.drop_drop]
    congr 1
    show it.boff + e.length - (it.boff + 32) = e.length - 32
    omega
  rw [next, if_neg (by rw [hdone]; simp; omega)]
  dsimp only
  rw [hheader, Laid.readHeader_length hlen, Laid.readHeader_frameType, hslice]
  congr 1
  unfold Laid.isPadding
  by_cases hpad : e.frame.frameType = frameTypePadding
  · rw [if_pos hpad, if_pos (beq_iff_eq.mpr hpad)]
    rfl
  · rw [if_neg hpad, if_neg (by rw [beq_iff_eq]; exact hpad)]
    rfl

/-- The frames of a run, up to the first that ends above the target. -/
structure Drained (start target : ℕ) (m : List Laid) (res : List FrameItem × FrameIter)
    (m₁ m₂ : List Laid) : Prop where
  frames : m = m₁ ++ m₂
  items : res.1 = (Tiling.place Laid.span start m₁).filterMap LogFollower.itemOf
  cursor : res.2.cursor = start + Tiling.width Laid.span m₁
  above : ∀ e r, m₂ = e :: r → target < start + Tiling.width Laid.span m₁ + e.span
  within : m₁ ≠ [] → start + Tiling.width Laid.span m₁ ≤ target

theorem drain_spec {m : List Laid} {pieces : List Bytes} (hp : List.Forall₂ Laid.Piece m pieces)
    (hpad : AppendLog.PaddingLast m) (hlen : ∀ e ∈ m, e.length < 256 ^ 4)
    (hkind : ∀ e ∈ m, e.isPadding = false → e.length = e.frame.total) (hdone : it.done = false)
    (hbuf : it.buf.drop it.boff = pieces.flatten) {fuel : ℕ} (hfuel : m.length < fuel) :
    ∃ m₁ m₂, Drained it.cursor it.target m (it.drain fuel) m₁ m₂ := by
  induction hp generalizing it fuel with
  | nil =>
    obtain ⟨fuel, rfl⟩ := Nat.exists_eq_add_of_lt hfuel
    have hend : it.buf.length ≤ it.boff := List.drop_eq_nil_iff.mp hbuf
    rw [drain, next_end hend]
    exact ⟨[], [], rfl, rfl, rfl, by rintro e r ⟨⟩, fun hne => absurd rfl hne⟩
  | @cons e piece m pieces hpiece hpieces ih =>
    obtain ⟨fuel, rfl⟩ : ∃ n, fuel = n + 1 := ⟨fuel - 1, by omega⟩
    rw [flatten_cons] at hbuf
    rw [drain, next_frame hdone hbuf hpiece (hlen e mem_cons_self)]
    by_cases habove : it.target < it.cursor + e.span
    · rw [if_pos habove]
      refine ⟨[], e :: m, rfl, rfl, rfl, ?_, fun hne => absurd rfl hne⟩
      rintro e' r ⟨⟩
      exact habove
    · rw [if_neg habove]
      by_cases hpadding : e.isPadding = true
      · -- a padding is the last of its run
        obtain rfl := hpad [] e m rfl hpadding
        cases hpieces
        have hend : it.buf.length ≤ it.boff + headerLen := by
          have hdrop := congrArg length hbuf
          rw [List.length_drop, length_append, hpiece.length, if_pos hpadding] at hdrop
          simp only [List.flatten_nil, List.length_nil] at hdrop
          omega
        rw [if_pos hpadding, next_end hend]
        refine ⟨[e], [], rfl, ?_, ?_, by rintro e' r ⟨⟩, fun _ => ?_⟩
        · show [] = List.filterMap _ [(it.cursor, e)]
          rw [List.filterMap_cons_none]
          · rfl
          · exact if_pos hpadding
        · rw [width_cons, width_nil]
          rfl
        · rw [width_cons, width_nil]
          omega
      · rw [if_neg hpadding]
        have hnopad : e.isPadding = false := Bool.eq_false_of_not_eq_true hpadding
        have hpl : piece.length = e.span := by rw [hpiece.length, if_neg hpadding]
        have hnext : it.buf.drop (it.boff + e.span) = pieces.flatten := by
          rw [← List.drop_drop, hbuf, List.drop_left' hpl]
        have hrest : AppendLog.PaddingLast m := fun m₁ e' m₂ hm => hpad (e :: m₁) e' m₂ (by rw [hm]; rfl)
        obtain ⟨it', hit'⟩ : ∃ it' : FrameIter,
            it' = { it with cursor := it.cursor + e.span, boff := it.boff + e.span } := ⟨_, rfl⟩
        have hdone' : it'.done = false := by rw [hit']; exact hdone
        have hnext' : it'.buf.drop it'.boff = pieces.flatten := by rw [hit']; exact hnext
        obtain ⟨m₁, m₂, hd⟩ := ih hrest (fun e' he' => hlen e' (List.mem_cons_of_mem e he'))
          (fun e' he' => hkind e' (List.mem_cons_of_mem e he')) hdone' hnext'
          (show m.length < fuel by rw [List.length_cons] at hfuel; omega)
        rw [hit'] at hd
        have hslice : slice (piece ++ pieces.flatten) 32 e.length = e.frame.body := by
          have hk := hkind e mem_cons_self hnopad
          obtain ⟨junk, rfl⟩ := hpiece.image
          have hle : e.length ≤ e.image.length := by rw [Laid.length_image, hk]
          rw [append_assoc, Bytes.slice_append_left hle, Laid.slice_image hk]
        have hitem : LogFollower.itemOf (it.cursor, e) =
            some (it.cursor, readHeader e.image, e.frame.body) := if_neg hpadding
        refine ⟨e :: m₁, m₂, by rw [hd.frames]; rfl, ?_, ?_, ?_, fun _ => ?_⟩
        · show _ :: _ = List.filterMap _ ((it.cursor, e) :: place Laid.span (it.cursor + e.span) m₁)
          rw [List.filterMap_cons_some hitem, hslice, hd.items]
        · rw [width_cons, ← Nat.add_assoc]
          exact hd.cursor
        · rw [width_cons, ← Nat.add_assoc]
          exact hd.above
        · rw [width_cons, ← Nat.add_assoc]
          by_cases hne : m₁ = []
          · rw [hne, width_nil]
            omega
          · exact hd.within hne

end FrameIter

/-! ## One batch -/

theorem length_le_flatten {m : List Laid} {pieces : List Bytes} (h : List.Forall₂ Laid.Piece m pieces) :
    m.length ≤ pieces.flatten.length := by
  induction h with
  | nil => exact le_rfl
  | @cons e piece m pieces hpiece _ ih =>
    obtain ⟨rest, rfl⟩ := hpiece.image
    have := e.headerLen_le_image
    rw [flatten_cons, List.length_cons, length_append, length_append]
    omega

namespace LogFollower

variable {b : LogBuffer} {w : LogFollower} {target : ℕ}

/-- What a batch is: nothing, behind the target; an overrun; or the next frames up to
    the target, one at least. -/
inductive Batched (w : LogFollower) (target : ℕ) : Batch × ℕ → Prop
  | caughtUp (h : target ≤ w.cursor) : Batched w target (.caughtUp, w.cursor)
  | overrun (h : w.cursor < target) : Batched w target (.overrun, w.cursor)
  | frames (l₁ m r : List Laid) (hl : w.log.laid.map Prod.snd = l₁ ++ (m ++ r))
      (hcursor : w.cursor = Tiling.width Laid.span l₁) (hm : m ≠ [])
      (htarget : w.cursor + Tiling.width Laid.span m ≤ target) :
      Batched w target
        (.frames ((Tiling.place Laid.span w.cursor m).filterMap itemOf), w.cursor + Tiling.width Laid.span m)

theorem batched (h : w.log.Framed b w.log.append) (hcursor : FrameEnd w.log w.cursor)
    (htarget : FrameEnd w.log target) : Batched w target (w.nextBatch b target) := by
  unfold nextBatch
  by_cases hle : target ≤ w.cursor
  · rw [if_pos hle]
    exact .caughtUp hle
  · rw [if_neg hle]
    obtain ⟨l₁, l₂, hl, hpos⟩ := hcursor
    rw [Nat.zero_add] at hpos
    have hahead := h.ahead hl
    rw [← hpos] at hahead
    -- the target is an end of a frame, and so within the log
    have hwithin : target ≤ w.log.append := by
      obtain ⟨t₁, t₂, ht, rfl⟩ := htarget
      rw [h.width, ht, Tiling.width_append, Nat.zero_add]
      exact Nat.le_add_right _ _
    have hbound : ∀ m r, l₂ = m ++ r → ∀ e ∈ m, ∃ pos, AppendLog.Whole b (pos, e) := by
      intro m r hm e he
      have hmem : e ∈ w.log.laid.map Prod.snd := by
        rw [hl, hm]
        exact mem_append_right _ (List.mem_append_left _ he)
      obtain ⟨x, hx, rfl⟩ := List.mem_map.mp hmem
      exact ⟨x.1, h.whole x hx⟩
    dsimp only
    rcases AppendLog.readRunValidated_spec h hl hpos (by omega) (min (target - w.cursor) maxRunBytes) with
      hread | ⟨m, r, pieces, hr, hne, hpieces, hpadding, hread⟩
    · rw [hread]
      exact .overrun (by omega)
    · rw [hread]
      have hwhole := hbound m r hr
      have hlen : ∀ e ∈ m, e.length < 256 ^ 4 := fun e he => by
        obtain ⟨pos, hw⟩ := hwhole e he
        exact hw.length_le
      have hkind : ∀ e ∈ m, e.isPadding = false → e.length = e.frame.total := fun e he hno => by
        obtain ⟨pos, hw⟩ := hwhole e he
        rcases hw.kind with ⟨hpad, -⟩ | ⟨-, hk⟩
        · rw [hno] at hpad
          cases hpad
        · exact hk
      obtain ⟨it, hit⟩ : ∃ it : FrameIter, it = ⟨pieces.flatten, 0, w.cursor, target, false⟩ := ⟨_, rfl⟩
      have hdone : it.done = false := by rw [hit]
      have hbuf : it.buf.drop it.boff = pieces.flatten := by
        rw [hit]
        rfl
      obtain ⟨m₁, m₂, hd⟩ := FrameIter.drain_spec hpieces hpadding hlen hkind hdone hbuf
        (Nat.lt_succ_of_le (length_le_flatten hpieces))
      rw [hit] at hd
      dsimp only at hd
      have hsome : m₁ ≠ [] := by
        rintro rfl
        obtain ⟨e, m', rfl⟩ := List.exists_cons_of_ne_nil hne
        have habove := hd.above e m' hd.frames.symm
        rw [width_nil, Nat.add_zero] at habove
        -- the target would lie in the first frame
        have hx : (w.cursor, e) ∈ place Laid.span 0 (w.log.laid.map Prod.snd) :=
          Tiling.mem_place.mpr ⟨l₁, m' ++ r, by rw [hl, hr]; rfl, by rw [Nat.zero_add]; exact hpos⟩
        rcases Tiling.edge_cases htarget hx with hcase | hcase
        · exact absurd habove (Nat.not_lt.mpr hcase)
        · exact hle hcase
      have hresult := Batched.frames l₁ m₁ (m₂ ++ r) (by rw [hl, hr, hd.frames, append_assoc]) hpos
        hsome (hd.within hsome)
      rw [← hd.items, ← hd.cursor] at hresult
      exact hresult

/-! ## Runs -/

variable (b) in
theorem laid_lay (s : AppendLog) (pos : ℕ) (e : Laid) : (s.lay b pos e).laid = s.laid ++ [(pos, e)] := rfl

theorem laid_appendFrame (s : AppendLog) (a : LogAppender) (time : ℕ) (f : LogFrame) :
    ∃ more, (s.appendFrame b a time f).1.laid = s.laid ++ more := by
  unfold AppendLog.appendFrame
  dsimp only
  generalize (if a.cachedDurable + b.capacity < _ then { a with cachedDurable := s.durable } else a) = a'
  by_cases hgate : a'.cachedDurable + b.capacity <
      a.pos + LogRing.padLen b a.pos f + alignFrameLen f.total
  · rw [if_pos hgate]
    exact ⟨[], (append_nil _).symm⟩
  · rw [if_neg hgate]
    by_cases hpad : 0 < LogRing.padLen b a.pos f
    · rw [if_pos hpad]
      exact ⟨_, by rw [laid_lay, AppendLog.writePadding, laid_lay, append_assoc]⟩
    · rw [if_neg hpad]
      exact ⟨_, laid_lay b _ _ _⟩

theorem laid_exec (s : AppendLog) (step : AppendStep) : ∃ more, (s.exec b step).laid = s.laid ++ more := by
  have hsame : ∃ more, s.laid = s.laid ++ more := ⟨[], (append_nil _).symm⟩
  unfold AppendLog.exec AppendLog.perform AppendLog.withAppender
  cases step with
  | openAppender _ _ | setNow _ | setPayloadCeiling _ | recorded _ => exact hsame
  | append clientId seq payload =>
    dsimp only
    split
    · exact hsame
    · unfold AppendLog.appendMessage
      split
      · exact hsame
      · exact laid_appendFrame s _ _ _
  | appendCluster term kind payload =>
    dsimp only
    split
    · exact hsame
    · unfold AppendLog.appendCluster
      split
      · exact hsame
      · exact laid_appendFrame s _ _ _
  | appendNewTerm | appendTimer _ _ | appendSnapshot _ _ =>
    dsimp only
    split
    · exact hsame
    · exact laid_appendFrame s _ _ _

variable (b) in
/-- The cursor is between frames, and what is behind it from its beginning on was
    yielded. -/
structure Follows (start : ℕ) (w : LogFollower) : Prop where
  log : AppendLog.Inv b w.log
  cursor : FrameEnd w.log w.cursor
  start_le : start ≤ w.cursor
  yielded : w.yielded = itemsBetween w.log start w.cursor

variable {start : ℕ}

variable {s t : AppendLog}

theorem FrameEnd.mono {more : List (ℕ × Laid)} (ht : t.laid = s.laid ++ more) {pos : ℕ}
    (h : FrameEnd s pos) : FrameEnd t pos := by
  obtain ⟨l₁, l₂, hl, hpos⟩ := h
  refine ⟨l₁, l₂ ++ more.map Prod.snd, ?_, hpos⟩
  rw [ht, map_append, hl, append_assoc]

theorem FrameEnd.le (hs : s.Framed b s.append) {pos : ℕ} (h : FrameEnd s pos) : pos ≤ s.append := by
  obtain ⟨l₁, l₂, hl, rfl⟩ := h
  rw [hs.width, hl, Tiling.width_append, Nat.zero_add]
  exact Nat.le_add_right _ _

theorem itemsBetween_append {more : List (ℕ × Laid)} (ht : t.laid = s.laid ++ more) {lo hi : ℕ}
    (hmore : ∀ x ∈ more, hi < x.1 + x.2.span) : itemsBetween t lo hi = itemsBetween s lo hi := by
  unfold itemsBetween
  rw [ht, List.filter_append, List.filterMap_append]
  have hnone : more.filter (fun x => decide (lo ≤ x.1 ∧ x.1 + x.2.span ≤ hi)) = [] := by
    refine List.filter_eq_nil_iff.mpr fun x hx => ?_
    have := hmore x hx
    simp only [decide_eq_true_eq]
    omega
  rw [hnone, List.filterMap_nil, append_nil]

theorem Follows.append (h : Follows b start w) {step : AppendStep} (hp : w.log.Possible step) :
    Follows b start { w with log := w.log.exec b step } := by
  have hinv : AppendLog.Inv b (w.log.exec b step) := (h.log.perform hp).1
  obtain ⟨more, hmore⟩ := laid_exec (b := b) w.log step
  have hbeyond : ∀ x ∈ more, w.log.append ≤ x.1 := by
    intro x hx
    have htiled := hinv.framed.tiled
    rw [hmore, map_append, place_append, ← h.log.framed.tiled, Nat.zero_add,
      ← h.log.framed.width, List.append_cancel_left_eq] at htiled
    rw [htiled] at hx
    exact le_of_mem_place hx
  refine ⟨hinv, h.cursor.mono hmore, h.start_le, ?_⟩
  rw [h.yielded, itemsBetween_append hmore]
  intro x hx
  have hle := h.cursor.le h.log.framed
  have hspan := (hinv.framed.whole x (hmore ▸ mem_append_right _ hx)).span_pos
  have := hbeyond x hx
  show w.cursor < _
  omega

theorem itemsBetween_frames (hs : s.Framed b s.append) {l₁ m r : List Laid}
    (hl : s.laid.map Prod.snd = l₁ ++ (m ++ r)) {lo hi : ℕ} (hhi : hi = Tiling.width Laid.span l₁)
    (hlo : lo ≤ hi) :
    itemsBetween s lo (hi + Tiling.width Laid.span m) =
      itemsBetween s lo hi ++ (place Laid.span hi m).filterMap itemOf := by
  have hlaid : s.laid = place Laid.span 0 l₁ ++ (place Laid.span hi m ++
      place Laid.span (hi + Tiling.width Laid.span m) r) := by
    rw [hs.tiled, hl, place_append, place_append, Nat.zero_add, ← hhi]
  have hspan : ∀ x ∈ s.laid, 0 < x.2.span := fun x hx => (hs.whole x hx).span_pos
  rw [hlaid] at hspan
  have hbefore : ∀ x ∈ place Laid.span 0 l₁, x.1 + x.2.span ≤ hi := fun x hx => by
    have := Tiling.end_le_of_mem_place hx
    omega
  have hnew : ∀ x ∈ place Laid.span hi m, hi ≤ x.1 ∧ x.1 + x.2.span ≤ hi + Tiling.width Laid.span m :=
    fun x hx => ⟨le_of_mem_place hx, Tiling.end_le_of_mem_place hx⟩
  have hbeyond : ∀ x ∈ place Laid.span (hi + Tiling.width Laid.span m) r,
      hi + Tiling.width Laid.span m < x.1 + x.2.span := fun x hx => by
    have := le_of_mem_place hx
    have := hspan x (mem_append_right _ (mem_append_right _ hx))
    omega
  have hnone : ∀ (l : List (ℕ × Laid)) (z : ℕ), (∀ x ∈ l, z < x.1 + x.2.span) →
      l.filter (fun x => decide (lo ≤ x.1 ∧ x.1 + x.2.span ≤ z)) = [] := by
    intro l z hz
    refine List.filter_eq_nil_iff.mpr fun x hx => ?_
    have := hz x hx
    simp only [decide_eq_true_eq]
    omega
  have hall : (place Laid.span hi m).filter
      (fun x => decide (lo ≤ x.1 ∧ x.1 + x.2.span ≤ hi + Tiling.width Laid.span m)) =
        place Laid.span hi m := by
    refine List.filter_eq_self.mpr fun x hx => decide_eq_true ?_
    have := hnew x hx
    omega
  have hsame : (place Laid.span 0 l₁).filter
      (fun x => decide (lo ≤ x.1 ∧ x.1 + x.2.span ≤ hi + Tiling.width Laid.span m)) =
        (place Laid.span 0 l₁).filter (fun x => decide (lo ≤ x.1 ∧ x.1 + x.2.span ≤ hi)) := by
    refine List.filter_congr fun x hx => ?_
    have := hbefore x hx
    refine decide_eq_decide.mpr ⟨?_, ?_⟩ <;> intro h <;> omega
  unfold itemsBetween
  rw [hlaid]
  simp only [List.filter_append, List.filterMap_append]
  rw [hsame, hall, hnone _ _ hbeyond, hnone (place Laid.span hi m) hi,
    hnone (place Laid.span (hi + Tiling.width Laid.span m) r) hi]
  · simp
  · intro x hx
    have := hbeyond x hx
    omega
  · intro x hx
    have := (hnew x hx).1
    have := hspan x (mem_append_right _ (List.mem_append_left _ hx))
    omega

theorem Follows.nextBatch (h : Follows b start w) (htarget : FrameEnd w.log target) :
    Follows b start (w.exec b (.nextBatch target)) ∧
      ((w.nextBatch b target).1 = .overrun ∧ (w.exec b (.nextBatch target)).cursor = w.cursor ∨
        target ≤ w.cursor ∧ (w.exec b (.nextBatch target)).cursor = w.cursor ∨
        w.cursor < (w.exec b (.nextBatch target)).cursor ∧
          (w.exec b (.nextBatch target)).cursor ≤ target) := by
  unfold exec
  dsimp only
  have hbatch := batched h.log.framed h.cursor htarget
  generalize w.nextBatch b target = res at hbatch
  cases hbatch with
  | caughtUp hle => exact ⟨⟨h.log, h.cursor, h.start_le, h.yielded⟩, .inr (.inl ⟨hle, rfl⟩)⟩
  | overrun hlt => exact ⟨⟨h.log, h.cursor, h.start_le, h.yielded⟩, .inl ⟨rfl, rfl⟩⟩
  | frames l₁ m r hl hcursor hm hle =>
    have hpos : 0 < Tiling.width Laid.span m := by
      obtain ⟨e, m', rfl⟩ := List.exists_cons_of_ne_nil hm
      have hmem : e ∈ w.log.laid.map Prod.snd := by
        rw [hl]
        exact mem_append_right _ (List.mem_append_left _ mem_cons_self)
      obtain ⟨x, hx, rfl⟩ := List.mem_map.mp hmem
      have := (h.log.framed.whole x hx).span_pos
      rw [width_cons]
      omega
    refine ⟨⟨h.log, ⟨l₁ ++ m, r, by rw [append_assoc]; exact hl, ?_⟩, ?_, ?_⟩, .inr (.inr ⟨?_, hle⟩)⟩
    · rw [Tiling.width_append, Nat.zero_add, ← hcursor]
    · exact h.start_le.trans (Nat.le_add_right _ _)
    · rw [h.yielded]
      exact (itemsBetween_frames h.log.framed hl hcursor h.start_le).symm
    · show w.cursor < w.cursor + _
      omega

theorem follows_run (h : Follows b start w) {steps : List FollowStep}
    (hsteps : Trace.Admits (exec b) Possible w steps) : Follows b start (run b w steps) := by
  refine Trace.Admits.rule (P := fun is => Follows b start (run b w is)) h ?_ hsteps
  intro is step hf hp
  unfold run
  rw [List.foldl_append]
  cases step with
  | append step => exact hf.append hp
  | nextBatch target => exact (hf.nextBatch hp).1

theorem log_nextBatch (w : LogFollower) (target : ℕ) : (w.exec b (.nextBatch target)).log = w.log := by
  unfold exec
  dsimp only
  split <;> rfl

theorem Follows.reaches (h : Follows b start w) (htarget : FrameEnd w.log target) :
    ∃ n, target ≤ (run b w (List.replicate n (.nextBatch target))).cursor ∨
      ((run b w (List.replicate n (.nextBatch target))).nextBatch b target).1 = .overrun := by
  induction hd : target - w.cursor using Nat.strongRecOn generalizing w with
  | ind d ih =>
    obtain ⟨hnext, hcases⟩ := h.nextBatch htarget
    rcases hcases with ⟨hover, -⟩ | ⟨hle, -⟩ | ⟨hlt, -⟩
    · exact ⟨0, .inr hover⟩
    · exact ⟨0, .inl hle⟩
    · by_cases hle : target ≤ w.cursor
      · exact ⟨0, .inl hle⟩
      · obtain ⟨n, hn⟩ := ih (target - (w.exec b (.nextBatch target)).cursor) (by omega) hnext
          (by rw [log_nextBatch]; exact htarget) rfl
        exact ⟨n + 1, hn⟩

/-- A follower of a buffer that appenders fill, with targets at ends of frames.  Its
    cursor is at the end of a frame, and it has yielded the frames from its beginning
    up to there, each once and in order, with their payloads, and no padding.  Every
    call that is not overrun brings it on towards the target and never beyond, and
    enough calls to the target. -/
theorem follows_log (b : LogBuffer) {appends : List AppendStep}
    (ha : Trace.Admits (AppendLog.exec b) AppendLog.Possible (AppendLog.fresh b) appends) {start : ℕ}
    (hstart : FrameEnd (AppendLog.run b (AppendLog.fresh b) appends) start) {steps : List FollowStep}
    (h : Trace.Admits (exec b) Possible ⟨AppendLog.run b (AppendLog.fresh b) appends, start, []⟩ steps)
    {w : LogFollower}
    (hw : w = run b ⟨AppendLog.run b (AppendLog.fresh b) appends, start, []⟩ steps) :
    FrameEnd w.log w.cursor ∧ w.yielded = itemsBetween w.log start w.cursor ∧
      ∀ target, FrameEnd w.log target →
        ((w.nextBatch b target).1 = .overrun ∧ (w.exec b (.nextBatch target)).cursor = w.cursor ∨
          target ≤ w.cursor ∧ (w.exec b (.nextBatch target)).cursor = w.cursor ∨
          w.cursor < (w.exec b (.nextBatch target)).cursor ∧
            (w.exec b (.nextBatch target)).cursor ≤ target) ∧
        ∃ n, target ≤ (run b w (List.replicate n (.nextBatch target))).cursor ∨
          ((run b w (List.replicate n (.nextBatch target))).nextBatch b target).1 = .overrun := by
  have hfirst : Follows b start ⟨AppendLog.run b (AppendLog.fresh b) appends, start, []⟩ := by
    have hinv := AppendLog.inv_run ha
    refine ⟨hinv, hstart, le_rfl, ?_⟩
    unfold itemsBetween
    rw [List.filter_eq_nil_iff.mpr, List.filterMap_nil]
    intro x hx
    have := (hinv.framed.whole x hx).span_pos
    simp only [decide_eq_true_eq]
    omega
  have hf := follows_run hfirst h
  rw [← hw] at hf
  exact ⟨hf.cursor, hf.yielded, fun target ht => ⟨(hf.nextBatch ht).2, hf.reaches ht⟩⟩

/-- A term and a message. -/
def oneMessage : List AppendStep := [.openAppender 1 0, .appendNewTerm, .append 7 1 [1, 2, 3]]

def oneMessageLog : AppendLog :=
  AppendLog.run AppendLog.shortBuffer (AppendLog.fresh AppendLog.shortBuffer) oneMessage

theorem follows_log_message :
    (run AppendLog.shortBuffer ⟨oneMessageLog, 0, []⟩ [.nextBatch 128]).cursor = 128 ∧
      (run AppendLog.shortBuffer ⟨oneMessageLog, 0, []⟩ [.nextBatch 128]).yielded =
        itemsBetween oneMessageLog 0 128 ∧
      (itemsBetween oneMessageLog 0 128).map (fun x => (x.1, x.2.2)) =
        [(0, List.replicate 8 0), (64, [1, 2, 3])] := by
  have hend : FrameEnd oneMessageLog 128 :=
    ⟨oneMessageLog.laid.map Prod.snd, [], (List.append_nil _).symm, by decide +kernel⟩
  have hall := follows_log AppendLog.shortBuffer
    (show Trace.Admits (AppendLog.exec AppendLog.shortBuffer) AppendLog.Possible
      (AppendLog.fresh AppendLog.shortBuffer) oneMessage by decide +kernel)
    (show FrameEnd oneMessageLog 0 from Tiling.edge_base)
    (show Trace.Admits (exec AppendLog.shortBuffer) Possible ⟨oneMessageLog, 0, []⟩ [.nextBatch 128] from
      ⟨hend, trivial⟩) rfl
  have hcursor : (run AppendLog.shortBuffer ⟨oneMessageLog, 0, []⟩ [.nextBatch 128]).cursor = 128 := by
    decide +kernel
  refine ⟨hcursor, ?_, by decide +kernel⟩
  have hyielded := hall.2.1
  have hlog : (run AppendLog.shortBuffer ⟨oneMessageLog, 0, []⟩ [.nextBatch 128]).log = oneMessageLog := by
    rw [run, List.foldl_cons, List.foldl_nil, log_nextBatch]
  change (run AppendLog.shortBuffer ⟨oneMessageLog, 0, []⟩ [.nextBatch 128]).yielded =
    itemsBetween (run AppendLog.shortBuffer ⟨oneMessageLog, 0, []⟩ [.nextBatch 128]).log 0
      (run AppendLog.shortBuffer ⟨oneMessageLog, 0, []⟩ [.nextBatch 128]).cursor at hyielded
  rw [hyielded, hlog, hcursor]

end LogFollower

end UltimaCluster
