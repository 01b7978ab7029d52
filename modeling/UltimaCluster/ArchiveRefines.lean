/-
  Replays of the archive, and what it keeps of the stream over every run.
-/
import UltimaCluster.ArchiveStream

namespace UltimaCluster

open StoredFrame

/-! ## A replay, frame by frame -/

section FromPosition

variable {origin pos : ℕ}

theorem replayedFrom_cons (f : StoredFrame) (fs : List StoredFrame) :
    replayedFrom origin (f :: fs) pos =
      if f.isPadding = true ∨ origin < pos then replayedFrom (origin + f.span) fs pos
      else ⟨origin, f.header, f.body⟩ :: replayedFrom (origin + f.span) fs pos := by
  unfold replayedFrom
  rw [Tiling.place, List.filter_cons]
  by_cases hskip : f.isPadding = true ∨ origin < pos
  · rw [if_pos hskip, if_neg]
    rcases hskip with hpad | hlow
    · simp [hpad]
    · simp only [Bool.and_eq_true, decide_eq_true_eq, not_and]
      omega
  · rw [if_neg hskip, if_pos]
    · rfl
    · rw [not_or] at hskip
      simp only [Bool.and_eq_true, Bool.not_eq_true', decide_eq_true_eq]
      exact ⟨Bool.not_eq_true _ ▸ hskip.1, Nat.not_lt.mp hskip.2⟩

theorem replayedFrom_append {fs gs : List StoredFrame} (h : origin + Tiling.width StoredFrame.span fs ≤ pos) :
    replayedFrom origin (fs ++ gs) pos = replayedFrom (origin + Tiling.width StoredFrame.span fs) gs pos := by
  induction fs generalizing origin with
  | nil => simp
  | cons f fs ih =>
    rw [Tiling.width_cons] at h
    have := f.span_pos
    rw [List.cons_append, replayedFrom_cons, if_pos (.inr (by omega)), ih (by omega), Tiling.width_cons,
      Nat.add_assoc]

theorem replayedFrom_end {fs : List StoredFrame} (h : origin + Tiling.width StoredFrame.span fs ≤ pos) :
    replayedFrom origin fs pos = [] := by
  rw [← List.append_nil fs, replayedFrom_append h]
  rfl

end FromPosition

namespace ArchiveReplay

variable {j : BlockJournal} {seq base pos : ℕ} {held : List (List StoredFrame)} {rest : List StoredFrame}
  {r : ArchiveReplay}

/-- Of the frames before it, some are left of the block and the others in the blocks
    from the next sequence on. -/
structure At (seq base : ℕ) (held : List (List StoredFrame)) (r : ArchiveReplay) (pos : ℕ)
    (rest : List StoredFrame) (i : ℕ) (left : List StoredFrame) : Prop where
  block : r.block.drop r.off = concat left
  next : r.seq = seq + i
  last : r.lastSeq = some (seq + held.length - 1)
  frames : rest = left ++ (held.drop i).flatten
  position : pos + Tiling.width StoredFrame.span left = baseAt base held i
  inBlock : left ≠ [] → r.blockBase + r.off = pos

variable {left : List StoredFrame}

theorem At.off_lt {i : ℕ} (h : At seq base held r pos rest i left) :
    r.off < r.block.length ↔ left ≠ [] := by
  have hlen := congrArg List.length h.block
  rw [List.length_drop, length_concat] at hlen
  constructor
  · rintro hlt rfl
    rw [Tiling.width_nil] at hlen
    omega
  · intro hne
    have := width_pos hne
    omega

theorem next_end {i : ℕ} (h : At seq base held r pos [] i left) (hne : ∀ fs ∈ held, fs ≠ [])
    (hheld : held ≠ []) (fuel : ℕ) : r.next j fuel = .ok (none, r) := by
  cases fuel with
  | zero => rfl
  | succ fuel =>
    obtain ⟨hleft, hflat⟩ := List.append_eq_nil_iff.mp h.frames.symm
    have hlast : held.length ≤ i := by
      by_contra hlt
      rw [Nat.not_le] at hlt
      rw [List.drop_eq_getElem_cons hlt, List.flatten_cons, List.append_eq_nil_iff] at hflat
      exact hne _ (List.getElem_mem hlt) hflat.1
    have hlen := List.length_pos_iff.mpr hheld
    rw [ArchiveReplay.next, load, if_neg (fun hlt => h.off_lt.mp hlt hleft), h.last]
    dsimp only
    rw [h.next, if_pos (by omega)]

theorem load_spec {i : ℕ} {f : StoredFrame} (hj : j.blocks = layBlocks seq base held)
    (hne : ∀ fs ∈ held, fs ≠ []) (h : At seq base held r pos (f :: rest) i left) :
    ∃ r' i' left', load j r = .ok (some r') ∧ At seq base held r' pos (f :: rest) i' (f :: left') ∧
      r'.skipBelow = r.skipBelow := by
  cases left with
  | cons g left =>
    obtain ⟨rfl, -⟩ := List.cons.inj h.frames
    exact ⟨r, i, left, by rw [load, if_pos (h.off_lt.mpr (List.cons_ne_nil _ _))], h, rfl⟩
  | nil =>
    have hframes := h.frames
    rw [List.nil_append] at hframes
    have hlt : i < held.length := by
      by_contra hle
      rw [List.drop_eq_nil_of_le (by omega), List.flatten_nil] at hframes
      cases hframes
    have hget := List.getElem?_eq_getElem hlt
    have hread := read_layBlocks hj hget
    obtain ⟨fs, hfs⟩ : ∃ fs, fs = held[i] := ⟨_, rfl⟩
    rw [List.drop_eq_getElem_cons hlt, List.flatten_cons, ← hfs] at hframes
    rw [← hfs] at hread hget
    cases fs with
    | nil => exact absurd rfl (hne [] (hfs ▸ List.getElem_mem hlt))
    | cons g fs =>
      obtain ⟨rfl, hrest⟩ := List.cons.inj hframes
      have hpos : pos = baseAt base held i := h.position
      refine ⟨{ r with
        blockBase := baseAt base held i, block := concat (f :: fs), off := 0, seq := r.seq + 1 },
        i + 1, fs, ?_, ⟨rfl, ?_, h.last, ?_, ?_, fun _ => hpos.symm⟩, rfl⟩
      · rw [load, if_neg (fun hoff => h.off_lt.mp hoff rfl), h.last]
        dsimp only
        rw [h.next, if_neg (by omega), hread]
      · rw [h.next, Nat.add_assoc]
      · rw [hrest]
        rfl
      · rw [hpos]
        unfold baseAt
        rw [List.take_add_one, hget]
        simp [Nat.add_assoc]

theorem next_frame {i : ℕ} {f : StoredFrame} (hj : j.blocks = layBlocks seq base held)
    (hne : ∀ fs ∈ held, fs ≠ []) (h : At seq base held r pos (f :: rest) i left) (fuel : ℕ) :
    ∃ r' i' left', At seq base held r' (pos + f.span) rest i' left' ∧ r'.skipBelow = r.skipBelow ∧
      r.next j (fuel + 1) =
        if f.isPadding = true ∨ pos < r.skipBelow then r'.next j fuel
        else .ok (some ⟨pos, f.header, f.body⟩, r') := by
  obtain ⟨r₁, i₁, left₁, hload, hat, hskip⟩ := load_spec hj hne h
  have hblock := hat.block
  rw [concat_cons] at hblock
  have hlen := congrArg List.length hblock
  rw [List.length_drop, List.length_append] at hlen
  have h32 := f.headerLen_le_span
  have hpos := hat.inBlock (List.cons_ne_nil _ _)
  have hrest := hat.frames
  rw [List.cons_append, List.cons.injEq] at hrest
  have hwidth := hat.position
  rw [Tiling.width_cons] at hwidth
  have halign : alignFrameLen f.header.length = f.span := f.length_eq.symm
  have hpayload : Bytes.slice r₁.block (r₁.off + headerLen) (r₁.off + f.header.length) = f.body := by
    unfold Bytes.slice
    rw [← List.drop_drop, hblock, Nat.add_sub_add_left]
    exact Bytes.slice_append_left f.length_le
  have hdrop : r₁.block.drop (r₁.off + f.span) = concat left₁ := by
    rw [← List.drop_drop, hblock]
    exact List.drop_left
  refine ⟨{ r₁ with off := r₁.off + f.span }, i₁, left₁,
    ⟨hdrop, hat.next, hat.last, hrest.2, by omega, fun _ => by dsimp only; omega⟩, hskip, ?_⟩
  rw [ArchiveReplay.next, hload]
  dsimp only
  rw [if_neg (by rw [headerLen]; omega), hblock, readHeader_concat, halign, if_neg (by
    rw [not_or, Nat.not_lt, Nat.not_lt]
    exact ⟨f.headerLen_le, by unfold StoredFrame.span; omega⟩), hpos, hskip, hpayload]
  unfold isPadding
  simp

/-- `next` goes to the next frame that is yielded. -/
theorem next_spec {i steps : ℕ} (hj : j.blocks = layBlocks seq base held)
    (hne : ∀ fs ∈ held, fs ≠ []) (hheld : held ≠ []) (h : At seq base held r pos rest i left)
    (hsteps : rest.length < steps) :
    (∃ r', r.next j steps = .ok (none, r') ∧ replayedFrom pos rest r.skipBelow = []) ∨
      ∃ x r' pos' rest' i' left', r.next j steps = .ok (some x, r') ∧ At seq base held r' pos' rest' i' left' ∧
        rest'.length < rest.length ∧ r'.skipBelow = r.skipBelow ∧
        replayedFrom pos rest r.skipBelow = x :: replayedFrom pos' rest' r.skipBelow := by
  induction rest generalizing steps r pos i left with
  | nil => exact .inl ⟨r, next_end h hne hheld steps, rfl⟩
  | cons f rest ih =>
    obtain ⟨steps, rfl⟩ : ∃ n, steps = n + 1 := ⟨steps - 1, by omega⟩
    obtain ⟨r₁, i₁, left₁, hat, hskip, hnext⟩ := next_frame hj hne h steps
    rw [hnext, replayedFrom_cons]
    by_cases hpass : f.isPadding = true ∨ pos < r.skipBelow
    · rw [if_pos hpass, if_pos hpass, ← hskip]
      rcases ih hat (Nat.lt_of_succ_lt_succ hsteps) with hnone |
        ⟨x, r', pos', rest', i', left', hx, hat', hlen,
        hskip', hlist⟩
      · exact .inl hnone
      · exact .inr ⟨x, r', pos', rest', i', left', hx, hat', Nat.lt_succ_of_lt hlen, hskip', hlist⟩
    · rw [if_neg hpass, if_neg hpass]
      exact .inr ⟨_, r₁, _, rest, i₁, left₁, rfl, hat, Nat.lt_succ_self _, hskip, rfl⟩

theorem drain_spec {i steps fuel : ℕ} (hj : j.blocks = layBlocks seq base held)
    (hne : ∀ fs ∈ held, fs ≠ []) (hheld : held ≠ []) (h : At seq base held r pos rest i left)
    (hsteps : rest.length < steps) (hfuel : rest.length < fuel) :
    r.drain j steps fuel = .ok (replayedFrom pos rest r.skipBelow) := by
  induction fuel generalizing r pos rest i left with
  | zero => cases hfuel
  | succ fuel ih =>
    rw [drain]
    rcases next_spec hj hne hheld h hsteps with ⟨r', hnone, hlist⟩ |
      ⟨x, r', pos', rest', i', left', hx, hat, hlen,
      hskip, hlist⟩
    · rw [hnone, hlist]
    · rw [hx, hlist]
      dsimp only
      rw [ih hat (by omega) (by omega), hskip]
      rfl

end ArchiveReplay

namespace Archive

/-- A replay from a position, to its end. -/
def replayAll (a : Archive) (pos fuel : ℕ) : Except ArchiveError (List ReplayFrame) :=
  match a.replayFrom pos with
  | .error e => .error e
  | .ok r => r.drain a.journal fuel fuel

end Archive

/-- Every block begins where the one before it ends. -/
def Contiguous : ℕ → List ArchivedBlock → ℕ → Prop
  | base, [], e => base = e
  | base, k :: ks, e => k.base = base ∧ Contiguous k.finish ks e

theorem contiguous_layBlocks (seq base : ℕ) (held : List (List StoredFrame)) :
    Contiguous base (layBlocks seq base held) (baseAt base held held.length) := by
  induction held generalizing seq base with
  | nil => exact (baseAt_zero base []).symm
  | cons fs held ih =>
    refine ⟨rfl, ?_⟩
    rw [List.length_cons, baseAt_succ_cons]
    show Contiguous (base + (concat fs).length) _ _
    rw [length_concat]
    exact ih _ _

namespace Recorder

variable {r : Recorder} {seq pos : ℕ} {gone : List StoredFrame} {held : List (List StoredFrame)}

theorem Holds.exec (h : Holds r) {step : ArchiveStep} (hp : r.Possible step) : Holds (r.exec step) := by
  obtain ⟨seq, gone, held, hlay⟩ := id h
  cases step with
  | doWork roll hard => exact h.doWork roll hard
  | truncateTo roll pos =>
    simp only [Recorder.exec]
    rcases hlay.truncate hp with ⟨a, ha, hholds⟩ | hrefused
    · rw [ha]
      exact hholds
    · rw [hrefused]
      exact h
  | purgeBelow pos => exact (hlay.purge pos).1
  | adoptFloor pos => exact hlay.adopt pos
  | drainObservations sent => exact hlay.drainObservations sent

theorem holds_run {maxBlockBytes segmentSize : ℕ} {steps : List ArchiveStep}
    (h : Trace.Admits Recorder.exec Possible (fresh maxBlockBytes segmentSize) steps) :
    Holds (run (fresh maxBlockBytes segmentSize) steps) := by
  refine Trace.Admits.rule (P := fun steps => Holds (run (fresh maxBlockBytes segmentSize) steps))
    (holds_fresh _ _) (fun steps step ih hok => ?_) h
  rw [run, List.foldl_append]
  exact ih.exec hok

theorem Layout.blocks_eq_nil (h : Layout r seq gone held) : r.archive.journal.blocks = [] ↔ held = [] := by
  rw [h.blocks, ← List.length_eq_zero_iff, length_layBlocks, List.length_eq_zero_iff]

theorem drain_exhausted (j : BlockJournal) (steps fuel : ℕ) :
    ArchiveReplay.drain j steps fuel ⟨1, none, [], 0, 0, 0⟩ = .ok [] := by
  cases fuel with
  | zero => rfl
  | succ fuel =>
    rw [ArchiveReplay.drain]
    cases steps with
    | zero => rfl
    | succ steps => rfl

theorem Layout.replayAll_none (h : Layout r seq gone held) (hheld : held = []) (p fuel : ℕ) :
    r.archive.replayAll p fuel = .ok [] := by
  unfold Archive.replayAll Archive.replayFrom
  rw [lastSeq_layBlocks h.blocks, if_pos hheld]
  by_cases hend : r.archive.durablePos ≤ p
  · rw [if_pos hend]
    exact drain_exhausted _ _ _
  · rw [if_neg hend]
    exact drain_exhausted _ _ _

theorem Layout.replayAll (h : Layout r seq gone held) {p fuel : ℕ} (hp : r.archive.firstBase ≤ p)
    (hfuel : r.frames.length < fuel) :
    r.archive.replayAll p fuel = .ok (replayedFrom r.origin r.frames p) := by
  by_cases hend : r.archive.durablePos ≤ p
  · unfold Archive.replayAll Archive.replayFrom
    rw [if_pos hend, replayedFrom_end (by rw [← h.durable]; exact hend)]
    exact drain_exhausted _ _ _
  have hheld : held ≠ [] := by
    rintro rfl
    rw [h.durable_eq, List.length_nil, baseAt_zero] at hend
    exact hend hp
  obtain ⟨i, hfind, hi, hlow, -⟩ := findBlock_eq h.blocks hheld hp
  have hparts : r.frames = gone ++ (held.take i).flatten ++ (held.drop i).flatten := by
    rw [h.frames, List.append_assoc, ← List.flatten_append, List.take_append_drop]
  have hbase : baseAt r.archive.firstBase held i =
      r.origin + Tiling.width StoredFrame.span (gone ++ (held.take i).flatten) := by
    rw [baseAt, h.floor, Tiling.width_append, Nat.add_assoc]
  have hshort : (held.drop i).flatten.length < fuel := by
    rw [hparts, List.length_append] at hfuel
    omega
  have hat : ArchiveReplay.At seq r.archive.firstBase held
      ⟨seq + i, some (seq + held.length - 1), [], 0, 0, p⟩ (baseAt r.archive.firstBase held i)
      (held.drop i).flatten i [] :=
    ⟨rfl, rfl, rfl, rfl, rfl, fun hne => absurd rfl hne⟩
  unfold Archive.replayAll Archive.replayFrom
  rw [if_neg hend, lastSeq_layBlocks h.blocks, if_neg hheld]
  rw [hfind]
  dsimp only
  rw [ArchiveReplay.drain_spec h.blocks h.nonempty hheld hat hshort hshort, hparts, hbase,
    replayedFrom_append (by rw [← hbase]; exact hlow)]

theorem Layout.replayFrom_purged (h : Layout r seq gone held) (p : ℕ) :
    r.archive.replayFrom p = .error (.positionPurged p r.archive.firstBase) ↔
      p < r.archive.firstBase ∧ r.archive.journal.blocks ≠ [] := by
  have hle : r.archive.firstBase ≤ r.archive.durablePos := by
    rw [h.durable_eq]
    exact Nat.le_add_right _ _
  rw [ne_eq, h.blocks_eq_nil]
  unfold Archive.replayFrom
  rw [lastSeq_layBlocks h.blocks]
  by_cases hend : r.archive.durablePos ≤ p
  · rw [if_pos hend]
    refine ⟨nofun, fun hlow => ?_⟩
    omega
  rw [if_neg hend]
  by_cases hheld : held = []
  · rw [if_pos hheld]
    exact ⟨nofun, fun hlow => absurd hheld hlow.2⟩
  rw [if_neg hheld]
  by_cases hlow : p < r.archive.firstBase
  · rw [findBlock_below h.blocks hlow]
    exact ⟨fun _ => ⟨hlow, hheld⟩, fun _ => rfl⟩
  · obtain ⟨i, hfind, -⟩ := findBlock_eq h.blocks hheld (Nat.not_lt.mp hlow)
    rw [hfind]
    exact ⟨nofun, fun h => absurd h.1 hlow⟩

/-- The archive is the stream from its floor on: its blocks are contiguous up to the
    durable position, a replay yields what is no padding from a position on, a purge
    goes no further than it was asked to, and every observation is of a frame of the
    stream. -/
theorem refines_stream (maxBlockBytes segmentSize : ℕ) {steps : List ArchiveStep}
    (h : Trace.Admits Recorder.exec Possible (fresh maxBlockBytes segmentSize) steps) :
    let r := run (fresh maxBlockBytes segmentSize) steps
    (Contiguous r.archive.firstBase r.archive.journal.blocks r.archive.durablePos ∧
      r.archive.durablePos = r.origin + Tiling.width StoredFrame.span r.frames) ∧
    (∀ p fuel, r.archive.firstBase ≤ p → r.frames.length < fuel →
      r.archive.replayAll p fuel = .ok (replayedFrom r.origin r.frames p)) ∧
    (∀ p, r.archive.replayFrom p = .error (.positionPurged p r.archive.firstBase) ↔
      p < r.archive.firstBase ∧ r.archive.journal.blocks ≠ []) ∧
    (r.archive.journal.blocks = [] → ∀ p fuel, r.archive.replayAll p fuel = .ok []) ∧
    (∀ p, (r.archive.purgeBelow p).2 = (r.archive.purgeBelow p).1.firstBase ∧
      ((r.archive.purgeBelow p).1.firstBase ≤ p ∨
        (r.archive.purgeBelow p).1.firstBase = r.archive.firstBase)) ∧
    (∀ o ∈ r.archive.termObservations, ∃ x ∈ Tiling.place StoredFrame.span r.origin r.frames, TermOf x o) ∧
    (∀ o ∈ r.archive.configObservations, ∃ x ∈ Tiling.place StoredFrame.span r.origin r.frames,
      ConfigOf x o) := by
  intro r
  obtain ⟨seq, gone, held, hlay⟩ := holds_run h
  refine ⟨⟨?_, hlay.durable⟩, fun p fuel hp hfuel => hlay.replayAll hp hfuel, hlay.replayFrom_purged,
    fun hnil => hlay.replayAll_none (hlay.blocks_eq_nil.mp hnil), fun p => (hlay.purge p).2, hlay.terms,
    hlay.configs⟩
  rw [hlay.blocks, hlay.durable_eq]
  exact contiguous_layBlocks _ _ _

/-- Three frames of a term, in two blocks. -/
def threeFrames : List ArchiveStep :=
  let frame : Bytes := Bytes.le 4 32 ++ [1, 0, 0, 0] ++ Bytes.le 4 7 ++ List.replicate 20 0
  [.doWork false (frame ++ frame), .doWork true frame, .truncateTo false 32, .doWork true frame,
    .purgeBelow 40]

theorem refines_stream_three :
    Trace.Admits Recorder.exec Possible (fresh 1024 4096) threeFrames ∧
      ((run (fresh 1024 4096) threeFrames).archive.firstBase = 32 ∧
        (run (fresh 1024 4096) threeFrames).frames.length = 2) ∧
      (run (fresh 1024 4096) threeFrames).archive.durablePos =
        (run (fresh 1024 4096) threeFrames).origin +
          Tiling.width StoredFrame.span (run (fresh 1024 4096) threeFrames).frames := by
  have h : Trace.Admits Recorder.exec Possible (fresh 1024 4096) threeFrames := by
    refine ⟨trivial, trivial, fun _ _ => ⟨[_], [_, _], rfl, by decide +kernel⟩, trivial, trivial, trivial⟩
  exact ⟨h, by decide +kernel, (refines_stream 1024 4096 h).1.2⟩

/-- The first of two frames is purged before its observation is drained. -/
def purgedFrame : List ArchiveStep :=
  let frame : Bytes := Bytes.le 4 32 ++ [1, 0, 0, 0] ++ Bytes.le 4 7 ++ List.replicate 20 0
  [.doWork false frame, .doWork true frame, .purgeBelow 32]

/-- Of an archive that holds no block, a replay from below its floor is not refused; and
    a purge keeps the observation of a frame that it takes away. -/
theorem adopted_replay_exhausted :
    Trace.Admits Recorder.exec Possible (fresh 1024 4096) [.adoptFloor 64] ∧
      0 < (run (fresh 1024 4096) [.adoptFloor 64]).archive.firstBase ∧
      (run (fresh 1024 4096) [.adoptFloor 64]).archive.replayFrom 0 ≠ .error (.positionPurged 0 64) ∧
      (run (fresh 1024 4096) [.adoptFloor 64]).archive.replayAll 0 1 = .ok [] ∧
    Trace.Admits Recorder.exec Possible (fresh 1024 4096) purgedFrame ∧
      (run (fresh 1024 4096) purgedFrame).archive.firstBase = 32 ∧
      (run (fresh 1024 4096) purgedFrame).archive.termObservations = [(7, 0)] := by
  refine ⟨⟨trivial, trivial⟩, by decide +kernel, ?_, rfl, ⟨trivial, trivial, trivial, trivial⟩,
    by decide +kernel, by decide +kernel⟩
  intro h
  cases h

end Recorder

end UltimaCluster
