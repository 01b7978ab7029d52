/-
  The journal is a map from sequences to records.

  The records are those of the segments, in order, and the pending ones.  What
  keeps the two bounds true to them is not kept everywhere: a truncation stores
  its argument as the last sequence, and a purge takes the first one from the
  base of a segment.
-/
import UltimaCluster.JournalParts

namespace UltimaCluster

/-! ## The journal -/

/-- The state under the lock and the channel to the writer. -/
structure Journal where
  st : WriterState
  queue : List AppendRequest
deriving DecidableEq

/-- A call on the journal, or its writer. -/
inductive JournalOp where
  | append (r : JournalRecord)
  | truncateAfter (keepSeq now : ℕ)
  | truncateAll (now : ℕ)
  | purgeBefore (seq : ℕ)
  /-- The writer takes the next requests of the channel as a batch. -/
  | write (n now : ℕ)

namespace Journal

section
variable (crc : Bytes → UInt32)

/-- One call, or the writer's turn. -/
def exec (j : Journal) : JournalOp → Journal
  | .append r =>
    match j.st.append r with
    | .ok (st, req) => ⟨st, j.queue ++ [req]⟩
    | .error _ => j
  | .truncateAfter keepSeq now => { j with st := (j.st.truncateAfter crc now keepSeq).1 }
  | .truncateAll now => { j with st := (j.st.truncateAll crc now).1 }
  | .purgeBefore seq => { j with st := j.st.purgeBefore seq }
  | .write n now =>
    match j.st.writeBatch crc now (j.queue.take n) with
    | (st, .ok _) => ⟨st, j.queue.drop n⟩
    -- the writer halts
    | (st, .error _) => ⟨{ st with poisoned := true }, []⟩

def run (j : Journal) (ops : List JournalOp) : Journal := ops.foldl (exec crc) j

def fresh (segmentSize : ℕ) (preallocate : Bool) : Journal :=
  ⟨WriterState.fresh segmentSize preallocate, []⟩

/-- The records of a segment file. -/
def recordsOf (seg : SegmentFile) : List JournalRecord :=
  match seg.scan crc with
  | .ok scan => scan.records
  | .error _ => []

/-- The records of the journal, stored or pending. -/
def present (j : Journal) : List JournalRecord :=
  j.st.segments.flatMap (recordsOf crc) ++ j.st.pending.map (·.record)

/-- The words of a record and of an argument have 64 bits. -/
def Possible : JournalOp → Prop
  | .append r => r.seq < 2 ^ 64 ∧ r.meta_ < 2 ^ 64
  | .truncateAfter keepSeq _ => keepSeq < 2 ^ 64
  | .purgeBefore seq => seq < 2 ^ 64
  | _ => True

/-- A truncation names a record, or drops all; the first segment that a purge
    keeps begins with its base; the length of a record fits its word. -/
def Safe (j : Journal) : JournalOp → Prop
  | .append r => r.total ≤ j.st.segmentSize → 16 + r.payload.length < 2 ^ 32
  | .truncateAfter keepSeq _ => keepSeq ≠ keepNoneSentinel ∧
      ((∃ r ∈ present crc j, r.seq = keepSeq) ∨ ∀ r ∈ present crc j, keepSeq < r.seq)
  | .purgeBefore seq => present crc j = [] ∨
      ∃ seg ∈ (WriterState.keepSegments seq j.st.segments).head?,
        ∃ r ∈ present crc j, r.seq = seg.baseSeq
  | _ => True

instance : (op : JournalOp) → Decidable (Possible op)
  | .append _ => inferInstanceAs (Decidable (_ ∧ _))
  | .truncateAfter _ _ | .purgeBefore _ => inferInstanceAs (Decidable (_ < _))
  | .truncateAll _ | .write _ _ => .isTrue trivial

instance (j : Journal) : (op : JournalOp) → Decidable (Safe crc j op)
  | .append _ => inferInstanceAs (Decidable (_ → _))
  | .truncateAfter _ _ => inferInstanceAs (Decidable (_ ∧ (_ ∨ _)))
  | .purgeBefore _ => inferInstanceAs (Decidable (_ ∨ ∃ seg ∈ List.head? _, _))
  | .truncateAll _ | .write _ _ => .isTrue trivial

/-- The range of a read. -/
def InRange (start stop : Bound) (seq : ℕ) : Prop :=
  (match start with
    | .included n => n ≤ seq
    | .excluded n => n < seq
    | .unbounded => True) ∧
  match stop with
    | .included n => seq ≤ n
    | .excluded n => seq < n
    | .unbounded => True

instance (start stop : Bound) (seq : ℕ) : Decidable (InRange start stop seq) :=
  match start, stop with
  | .included _, .included _ | .included _, .excluded _ | .included _, .unbounded
  | .excluded _, .included _ | .excluded _, .excluded _ | .excluded _, .unbounded
  | .unbounded, .included _ | .unbounded, .excluded _ | .unbounded, .unbounded =>
    inferInstanceAs (Decidable (_ ∧ _))

/-- An exclusive bound that does not saturate. -/
def SafeRange (start stop : Bound) : Prop :=
  (∀ n, start = .excluded n → n < 2 ^ 64 - 1) ∧ ∀ n, stop = .excluded n → 0 < n

/-- The map `m` is what the journal shows. -/
structure Shows (j : Journal) (m : List JournalRecord) : Prop where
  sorted : m.Pairwise (·.seq < ·.seq)
  first : j.st.firstSeq = m.head?.map (·.seq)
  last : j.st.lastSeq = m.getLast?.map (·.seq)
  read : ∀ seq, j.st.read crc seq = .ok (lookup m seq)
  readRange : ∀ start stop, SafeRange start stop →
    j.st.readRange crc start stop = .ok (m.filter fun r => InRange start stop r.seq)
  append : ∀ r : JournalRecord, r.total ≤ j.st.segmentSize →
    ((∃ res, j.st.append r = .ok res) ↔ ∀ x ∈ m, x.seq < r.seq)

/-- What an operation does to the map. -/
def MapStep (segmentSize : ℕ) (m : List JournalRecord) :
    JournalOp → List JournalRecord → Prop
  | .append r, m' =>
    m' = if r.total ≤ segmentSize ∧ ∀ x ∈ m, x.seq < r.seq then m ++ [r] else m
  | .truncateAfter keepSeq _, m' => m' = m.filter fun r => r.seq ≤ keepSeq
  | .truncateAll _, m' => m' = []
  | .purgeBefore seq, m' => ∃ dropped, m = dropped ++ m' ∧ ∀ r ∈ dropped, r.seq ≤ seq
  | .write _ _, m' => m' = m

/-- A run whose operations are possible and meet `P` where they are taken. -/
def Runs (P : Journal → JournalOp → Prop) (j : Journal) (ops : List JournalOp) : Prop :=
  Trace.Admits (exec crc) (fun j op => Possible op ∧ P j op) j ops

instance (P : Journal → JournalOp → Prop) [∀ j op, Decidable (P j op)] (j : Journal)
    (ops : List JournalOp) : Decidable (Runs crc P j ops) :=
  inferInstanceAs (Decidable (Trace.Admits _ _ _ _))

end

/-! ## The invariant -/

variable {crc : Bytes → UInt32}

/-- The invariant of a run. -/
structure Inv (crc : Bytes → UInt32) (j : Journal) (parts : List Part) : Prop where
  before : WriterState.BeforeBatch crc j.st parts
  size : segmentHeaderSize < j.st.segmentSize
  poisoned : j.st.poisoned = false
  first : j.st.firstSeq = (stored parts ++ j.st.pending.map (·.record)).head?.map (·.seq)
  last : j.st.lastSeq = (stored parts ++ j.st.pending.map (·.record)).getLast?.map (·.seq)
  queue : j.queue.Pairwise WriterState.Later
  pending : j.st.pending.Sublist j.queue
  generation : ∀ q ∈ j.queue, q.generation ≤ j.st.truncateGen
  /-- No request of this generation is above the last sequence. -/
  current : ∀ q ∈ j.queue, q.generation = j.st.truncateGen → ∃ last ∈ j.st.lastSeq, q.seq ≤ last

variable {j : Journal} {parts : List Part}

theorem recordsOf_eq {seg : SegmentFile} {rs : List JournalRecord} (h : SegOk crc seg rs) :
    recordsOf crc seg = rs := by
  obtain ⟨torn, hscan⟩ := h.scan
  unfold recordsOf
  rw [hscan]

theorem flatMap_recordsOf (h : ∀ p ∈ parts, SegOk crc p.1 p.2) :
    (parts.map Prod.fst).flatMap (recordsOf crc) = stored parts := by
  induction parts with
  | nil => rfl
  | cons p parts ih =>
    rw [List.map_cons, List.flatMap_cons, recordsOf_eq (h p List.mem_cons_self),
      ih fun q hq => h q (List.mem_cons_of_mem _ hq)]
    rfl

theorem Inv.present_eq (h : Inv crc j parts) :
    present crc j = stored parts ++ j.st.pending.map (·.record) := by
  unfold present
  rw [h.before.segs, flatMap_recordsOf h.before.ok]

theorem Inv.sorted (h : Inv crc j parts) :
    (stored parts ++ j.st.pending.map (·.record)).Pairwise (·.seq < ·.seq) := by
  rw [List.pairwise_append]
  refine ⟨h.before.placed.stored_sorted, ?_, fun r hr r' hr' => ?_⟩
  · rw [List.pairwise_map]
    exact h.before.sorted
  · obtain ⟨q, hq, rfl⟩ := List.mem_map.mp hr'
    exact h.before.above r hr q hq

variable {m : List JournalRecord} {x r : JournalRecord}

theorem le_getLast (hs : m.Pairwise (·.seq < ·.seq)) (hx : m.getLast? = some x) (hr : r ∈ m) :
    r.seq ≤ x.seq := by
  obtain ⟨ys, rfl⟩ := List.getLast?_eq_some_iff.mp hx
  rcases List.mem_snoc.mp hr with hr | rfl
  · exact ((List.pairwise_append.mp hs).2.2 r hr x (List.mem_singleton.mpr rfl)).le
  · rfl

theorem head_le (hs : m.Pairwise (·.seq < ·.seq)) (hx : m.head? = some x) (hr : r ∈ m) :
    x.seq ≤ r.seq := by
  obtain ⟨ys, rfl⟩ := List.head?_eq_some_iff.mp hx
  rcases List.mem_cons.mp hr with rfl | hr
  · exact le_rfl
  · exact ((List.pairwise_cons.mp hs).1 r hr).le

/-- The state with one more pending record. -/
def accept (st : WriterState) (r : JournalRecord) : WriterState :=
  { st with
    firstSeq := st.firstSeq.or (some r.seq)
    lastSeq := some r.seq
    pending := st.pending ++ [⟨r, st.truncateGen⟩] }

theorem Inv.append_iff (h : Inv crc j parts) (r : JournalRecord)
    (hfit : r.total ≤ j.st.segmentSize) :
    j.st.append r = .ok (accept j.st r, ⟨r, j.st.truncateGen⟩) ∧
        (∀ x ∈ stored parts ++ j.st.pending.map (·.record), x.seq < r.seq) ∨
    (∃ e, j.st.append r = .error e) ∧
      ¬ ∀ x ∈ stored parts ++ j.st.pending.map (·.record), x.seq < r.seq := by
  unfold WriterState.append
  rw [if_neg (by simp [h.poisoned]), if_neg (by omega)]
  cases hlast : (stored parts ++ j.st.pending.map (·.record)).getLast? with
  | none =>
    rw [List.getLast?_eq_none_iff] at hlast
    left
    have hpend : j.st.pending = [] := by simpa using (List.append_eq_nil_iff.mp hlast).2
    unfold accept
    rw [h.last, hlast, hpend]
    exact ⟨rfl, by simp⟩
  | some x =>
    rw [h.last, hlast]
    by_cases hle : r.seq ≤ x.seq
    · right
      refine ⟨⟨.nonMonotonicSeq x.seq r.seq, by simp [Option.filter, hle]⟩, fun hall => ?_⟩
      have := hall x (List.mem_of_getLast? hlast)
      omega
    · left
      have hall : ∀ y ∈ stored parts ++ j.st.pending.map (·.record), y.seq < r.seq := fun y hy =>
        (le_getLast h.sorted hlast hy).trans_lt (not_le.mp hle)
      have hkeep : j.st.pending.filter (·.seq ≠ r.seq) = j.st.pending := by
        rw [List.filter_eq_self]
        intro q hq
        have := hall q.record (List.mem_append_right _ (List.mem_map_of_mem hq))
        exact decide_eq_true this.ne
      have hfilter : (some x.seq).filter (r.seq ≤ ·) = none := by simp [Option.filter, hle]
      refine ⟨?_, hall⟩
      rw [Option.map_some, hfilter]
      rw [hkeep]
      rfl

/-! ## What the journal shows -/

theorem read_pending {ps : List AppendRequest} (seq : ℕ) :
    lookup (ps.map (·.record)) seq =
      (ps.find? (·.seq = seq)).map fun q => (q.record.meta_, q.record.payload) := by
  unfold lookup
  rw [List.find?_map, Option.map_map]
  rfl

theorem Inv.read (h : Inv crc j parts) (seq : ℕ) :
    j.st.read crc seq = .ok (lookup (stored parts ++ j.st.pending.map (·.record)) seq) := by
  unfold WriterState.read
  rw [lookup_append, read_pending]
  cases hfind : j.st.pending.find? (·.seq = seq) with
  | none =>
    have hstored := read_stored h.before.placed h.before.ok seq
    rw [h.before.segs]
    cases hseg : (parts.map Prod.fst).reverse.find? (·.baseSeq ≤ seq) with
    | none =>
      rw [hseg] at hstored
      simpa using hstored
    | some seg =>
      rw [hseg] at hstored
      simpa using hstored
  | some q =>
    have hmem := List.mem_of_find?_eq_some hfind
    have hseq : q.seq = seq := by simpa using List.find?_some hfind
    have hnone : lookup (stored parts) seq = none :=
      lookup_eq_none fun r hr => by
        have := h.before.above r hr q hmem
        omega
    rw [hnone]
    rfl

theorem between_inclusive (hs : m.Pairwise (·.seq < ·.seq)) {start stop : Bound}
    (hsafe : SafeRange start stop) (hfits : ∀ r ∈ m, r.seq < 2 ^ 64) {lo hi : ℕ}
    (hb : boundsToInclusive start stop (m.head?.map (·.seq)) (m.getLast?.map (·.seq)) =
      (lo, hi)) : between lo hi m = m.filter fun r => InRange start stop r.seq := by
  refine List.filter_congr fun r hr => ?_
  rw [decide_eq_decide]
  obtain ⟨x, hx⟩ : ∃ x, m.head? = some x := by
    cases m with
    | nil => cases hr
    | cons x m => exact ⟨x, rfl⟩
  obtain ⟨y, hy⟩ : ∃ y, m.getLast? = some y :=
    ⟨_, List.getLast?_eq_some_getLast (List.ne_nil_of_mem hr)⟩
  have hhead := head_le hs hx hr
  have hlast := le_getLast hs hy hr
  rw [hx, hy] at hb
  obtain ⟨hs1, hs2⟩ := hsafe
  cases start <;> cases stop <;>
    simp only [boundsToInclusive, Option.map_some, Option.getD_some, Prod.mk.injEq] at hb <;>
    obtain ⟨rfl, rfl⟩ := hb <;>
    simp only [InRange, Bound.excluded.injEq, forall_eq', reduceCtorEq, true_and, and_true,
      IsEmpty.forall_iff, implies_true, iff_true] at hs1 hs2 ⊢ <;> omega

theorem Inv.fits (h : Inv crc j parts) :
    ∀ r ∈ stored parts ++ j.st.pending.map (·.record), r.Fits := by
  intro r hr
  rcases List.mem_append.mp hr with hr | hr
  · obtain ⟨p, hp, hrp⟩ := mem_stored.mp hr
    exact (h.before.ok p hp).fits r hrp
  · obtain ⟨q, hq, rfl⟩ := List.mem_map.mp hr
    exact (h.before.fits q hq).1

theorem Inv.readRange (h : Inv crc j parts) {start stop : Bound} (hsafe : SafeRange start stop) :
    j.st.readRange crc start stop = .ok
      ((stored parts ++ j.st.pending.map (·.record)).filter fun r => InRange start stop r.seq) := by
  unfold WriterState.readRange
  cases hb : boundsToInclusive start stop j.st.firstSeq j.st.lastSeq with
  | mk lo hi =>
    have hrange := between_inclusive h.sorted hsafe (fun r hr => (h.fits r hr).seq)
      (h.first ▸ h.last ▸ hb)
    have hpend : ((j.st.pending.filter fun q => lo ≤ q.seq ∧ q.seq ≤ hi).map (·.record)) =
        between lo hi (j.st.pending.map (·.record)) := by
      unfold between
      rw [List.filter_map]
      rfl
    rw [← hrange, between_append]
    simp only [h.before.segs, readSegments_stored h.before.placed h.before.ok lo hi, hpend]
    split
    · have hsort : (between lo hi (stored parts) ++
          between lo hi (j.st.pending.map (·.record))).Pairwise
            fun r r' => decide (r.seq ≤ r'.seq) = true := by
        rw [← between_append]
        refine (h.sorted.sublist List.filter_sublist).imp fun hlt => ?_
        exact decide_eq_true hlt.le
      exact congrArg Except.ok (List.mergeSort_of_pairwise hsort)
    · have hnil : between lo hi (j.st.pending.map (·.record)) = [] := between_eq_nil fun r _ => by
        omega
      rw [hnil, List.append_nil]
      rfl

theorem Inv.shows (h : Inv crc j parts) : Shows crc j (present crc j) := by
  rw [h.present_eq]
  refine ⟨h.sorted, h.first, h.last, h.read, fun _ _ => h.readRange, fun r hfit => ?_⟩
  rcases h.append_iff r hfit with ⟨hok, hall⟩ | ⟨⟨e, he⟩, hnot⟩
  · exact ⟨fun _ => hall, fun _ => ⟨_, hok⟩⟩
  · refine ⟨fun ⟨res, hres⟩ => ?_, fun hall => absurd hall hnot⟩
    rw [he] at hres
    cases hres

/-! ## The operations -/

theorem inv_fresh {size : ℕ} (hsize : segmentHeaderSize < size) (preallocate : Bool) :
    Inv crc (fresh size preallocate) [] where
  before := ⟨rfl, by simp, ⟨by simp, by simp, by simp, List.Pairwise.nil⟩, List.Pairwise.nil,
    by simp [fresh, WriterState.fresh], by simp⟩
  size := hsize
  poisoned := rfl
  first := rfl
  last := rfl
  queue := List.Pairwise.nil
  pending := List.Sublist.refl _
  generation := by simp [fresh]
  current := by simp [fresh]

theorem Inv.append (h : Inv crc j parts) (hp : Possible (.append r))
    (hsafe : Safe crc j (.append r)) :
    Inv crc (exec crc j (.append r)) parts ∧
      MapStep j.st.segmentSize (present crc j) (.append r)
        (present crc (exec crc j (.append r))) := by
  by_cases hfit : r.total ≤ j.st.segmentSize
  · rcases h.append_iff r hfit with ⟨hok, hall⟩ | ⟨⟨e, he⟩, hnot⟩
    · have hexec : exec crc j (.append r) =
          ⟨accept j.st r, j.queue ++ [⟨r, j.st.truncateGen⟩]⟩ := by
        dsimp only [exec]
        rw [hok]
      have hinv : Inv crc (exec crc j (.append r)) parts := by
        rw [hexec]
        exact { h with
          before := { h.before with
            sorted := by
              dsimp only [accept]
              rw [List.pairwise_append]
              refine ⟨h.before.sorted, List.pairwise_singleton _ _, fun q hq q' hq' => ?_⟩
              rw [List.mem_singleton.mp hq']
              exact hall q.record (List.mem_append_right _ (List.mem_map_of_mem hq))
            fits := by
              refine List.forall_mem_snoc h.before.fits ?_
              exact ⟨⟨hp.1, hp.2, hsafe hfit⟩, hfit⟩
            above := by
              intro x hx q hq
              rcases List.mem_snoc.mp hq with hq | rfl
              · exact h.before.above x hx q hq
              · exact hall x (List.mem_append_left _ hx) }
          first := by
            dsimp only [accept]
            rw [List.map_append, ← List.append_assoc, List.head?_append, h.first, Option.map_or]
            rfl
          last := by
            dsimp only [accept]
            rw [List.map_append, ← List.append_assoc, List.map_singleton, List.getLast?_concat]
            rfl
          queue := by
            rw [List.pairwise_append]
            refine ⟨h.queue, List.pairwise_singleton _ _, fun q hq q' hq' => ?_⟩
            rw [List.mem_singleton.mp hq']
            rcases (h.generation q hq).lt_or_eq with hlt | heq
            · exact .inl hlt
            · refine .inr ⟨heq, ?_⟩
              obtain ⟨last, hlast, hle⟩ := h.current q hq heq
              rw [h.last] at hlast
              obtain ⟨x, hx, rfl⟩ := Option.map_eq_some_iff.mp hlast
              exact hle.trans_lt (hall x (List.mem_of_getLast? hx))
          pending := h.pending.append (List.Sublist.refl _)
          generation := by
            refine List.forall_mem_snoc h.generation ?_
            exact le_rfl
          current := by
            intro q hq hgen
            rcases List.mem_snoc.mp hq with hq | rfl
            · obtain ⟨last, hlast, hle⟩ := h.current q hq hgen
              rw [h.last] at hlast
              obtain ⟨x, hx, rfl⟩ := Option.map_eq_some_iff.mp hlast
              exact ⟨r.seq, rfl, hle.trans (hall x (List.mem_of_getLast? hx)).le⟩
            · exact ⟨r.seq, rfl, le_rfl⟩ }
      refine ⟨hinv, ?_⟩
      dsimp only [MapStep]
      rw [hinv.present_eq, h.present_eq, if_pos ⟨hfit, hall⟩, hexec]
      simp [accept]
    · have hsame : exec crc j (.append r) = j := by
        dsimp only [exec]
        rw [he]
      rw [hsame]
      refine ⟨h, ?_⟩
      dsimp only [MapStep]
      rw [h.present_eq, if_neg fun hh => hnot hh.2]
  · have hsame : exec crc j (.append r) = j := by
      dsimp only [exec]
      unfold WriterState.append
      rw [if_neg (by simp [h.poisoned]), if_pos (by omega)]
    rw [hsame]
    refine ⟨h, ?_⟩
    dsimp only [MapStep]
    rw [if_neg fun hh => hfit hh.1]

theorem Inv.write (h : Inv crc j parts) (n now : ℕ) :
    ∃ parts', Inv crc (exec crc j (.write n now)) parts' ∧
      stored parts' ++ (exec crc j (.write n now)).st.pending.map (·.record) =
        stored parts ++ j.st.pending.map (·.record) := by
  have hsplit : j.queue = j.queue.take n ++ j.queue.drop n := (List.take_append_drop n _).symm
  have hsub := h.pending
  rw [hsplit] at hsub
  obtain ⟨own, rest, hpend, hown, hrest⟩ := List.sublist_append_iff.mp hsub
  obtain ⟨st', res, parts', heq, ⟨hw, hp, hsegs, hok, hplaced, hstored⟩, -⟩ :=
    h.before.writeBatch (WriterState.batchRule_true crc now) trivial h.size (hsplit ▸ h.queue) hown
      hrest hpend
  have hexec : exec crc j (.write n now) = ⟨st', j.queue.drop n⟩ := by
    dsimp only [exec]
    rw [heq]
  have hsame : stored parts' ++ st'.pending.map (·.record) =
      stored parts ++ j.st.pending.map (·.record) := by
    rw [hstored, hp, hpend]
    simp
  have hrestsub : rest.Sublist j.st.pending := hpend ▸ List.sublist_append_right _ _
  have hqsub : (j.queue.drop n).Sublist j.queue := List.drop_sublist n _
  rw [hexec]
  refine ⟨parts', ?_, hsame⟩
  exact {
    before := {
      segs := hsegs
      ok := hok
      placed := hplaced
      sorted := by
        rw [hp]
        exact h.before.sorted.sublist hrestsub
      fits := by
        rw [hp, hw.segmentSize]
        exact fun q hq => h.before.fits q (hrestsub.subset hq)
      above := by
        have hsorted := h.sorted
        rw [← hsame, List.pairwise_append] at hsorted
        exact fun r hr q hq => hsorted.2.2 r hr q.record (List.mem_map_of_mem hq) }
    size := hw.segmentSize ▸ h.size
    poisoned := hw.poisoned ▸ h.poisoned
    first := by
      rw [hsame, hw.firstSeq]
      exact h.first
    last := by
      rw [hsame, hw.lastSeq]
      exact h.last
    queue := h.queue.sublist hqsub
    pending := by
      rw [hp]
      exact hrest
    generation := by
      rw [hw.truncateGen]
      exact fun q hq => h.generation q (hqsub.subset hq)
    current := by
      rw [hw.truncateGen, hw.lastSeq]
      exact fun q hq => h.current q (hqsub.subset hq) }

theorem filter_head (hs : m.Pairwise (·.seq < ·.seq)) {k : ℕ} (hx : m.head? = some x)
    (hk : x.seq ≤ k) : (m.filter fun r => r.seq ≤ k).head? = some x := by
  obtain ⟨ys, rfl⟩ := List.head?_eq_some_iff.mp hx
  rw [List.filter_cons_of_pos (by simpa using hk)]
  rfl

theorem filter_getLast (hs : m.Pairwise (·.seq < ·.seq)) (hx : x ∈ m) :
    (m.filter fun r => r.seq ≤ x.seq).getLast? = some x := by
  obtain ⟨ys, zs, rfl⟩ := List.append_of_mem hx
  obtain ⟨-, htail, hys⟩ := List.pairwise_append.mp hs
  have h1 : ys.filter (fun r => r.seq ≤ x.seq) = ys := by
    rw [List.filter_eq_self]
    intro r hr
    exact decide_eq_true (hys r hr x List.mem_cons_self).le
  have h2 : zs.filter (fun r => r.seq ≤ x.seq) = [] := by
    rw [List.filter_eq_nil_iff]
    intro r hr
    have := (List.pairwise_cons.mp htail).1 r hr
    simpa using this
  rw [List.filter_append, List.filter_cons_of_pos (by simp), h1, h2, List.getLast?_concat]

theorem truncate_bounds (hs : m.Pairwise (·.seq < ·.seq)) {k : ℕ}
    (hk : (∃ r ∈ m, r.seq = k) ∨ ∀ r ∈ m, k < r.seq) :
    let lastSeq := if (m.head?.map (·.seq)).any (· ≤ k) then some k else none
    lastSeq = (m.filter fun r => r.seq ≤ k).getLast?.map (·.seq) ∧
      (if lastSeq = none then none else m.head?.map (·.seq)) =
        (m.filter fun r => r.seq ≤ k).head?.map (·.seq) := by
  intro lastSeq
  rcases hk with ⟨x, hx, rfl⟩ | hall
  · obtain ⟨y, hy⟩ : ∃ y, m.head? = some y := by
      cases m with
      | nil => cases hx
      | cons y m => exact ⟨y, rfl⟩
    have hle := head_le hs hy hx
    have hlast : lastSeq = some x.seq := by simp [lastSeq, hy, hle]
    rw [hlast, filter_getLast hs hx, filter_head hs hy hle, hy]
    simp
  · have hnil : m.filter (fun r => r.seq ≤ k) = [] := by
      rw [List.filter_eq_nil_iff]
      intro r hr
      have := hall r hr
      simpa using this
    have hlast : lastSeq = none := by
      cases hm : m.head? with
      | none => simp [lastSeq, hm]
      | some y =>
        have := hall y (List.mem_of_mem_head? hm)
        simp [lastSeq, hm]
        omega
    rw [hlast, hnil]
    simp

theorem Inv.truncateAfter (h : Inv crc j parts) {k now : ℕ}
    (hsafe : Safe crc j (.truncateAfter k now)) :
    ∃ parts', Inv crc (exec crc j (.truncateAfter k now)) parts' ∧
      stored parts' ++ (exec crc j (.truncateAfter k now)).st.pending.map (·.record) =
        (stored parts ++ j.st.pending.map (·.record)).filter fun r => r.seq ≤ k := by
  obtain ⟨hk, hkeep⟩ := hsafe
  rw [h.present_eq] at hkeep
  obtain ⟨parts', happ, hplaced, hok, hstored⟩ :=
    applyTruncate_stored h.before.placed h.before.ok hk now
  have hpend : (j.st.pending.filter (·.seq ≤ k)).map (·.record) =
      (j.st.pending.map (·.record)).filter fun r => r.seq ≤ k := by
    rw [List.filter_map]
    rfl
  obtain ⟨hlast, hfirst⟩ := truncate_bounds h.sorted hkeep
  rw [← h.first] at hlast hfirst
  have hsub : (j.st.pending.filter (·.seq ≤ k)).Sublist j.st.pending := List.filter_sublist
  have hmap : stored parts' ++ (j.st.pending.filter (·.seq ≤ k)).map (·.record) =
      (stored parts ++ j.st.pending.map (·.record)).filter fun r => r.seq ≤ k := by
    rw [hstored, hpend, List.filter_append]
  dsimp only [exec]
  unfold WriterState.truncateAfter
  rw [if_neg (by simp [h.poisoned])]
  dsimp only
  rw [h.before.segs, happ]
  refine ⟨parts', ?_, hmap⟩
  exact { h with
    before := {
      segs := rfl
      ok := hok
      placed := hplaced
      sorted := h.before.sorted.sublist hsub
      fits := fun q hq => h.before.fits q (hsub.subset hq)
      above := by
        have hsorted := h.sorted.sublist
          (List.filter_sublist (p := fun r : JournalRecord => decide (r.seq ≤ k)))
        rw [← hmap, List.pairwise_append] at hsorted
        exact fun r hr q hq => hsorted.2.2 r hr q.record (List.mem_map_of_mem hq) }
    first := by
      rw [hmap]
      exact hfirst
    last := by
      rw [hmap]
      exact hlast
    pending := hsub.trans h.pending
    generation := fun q hq => (h.generation q hq).trans (Nat.le_succ _)
    current := by
      intro q hq hgen
      have := h.generation q hq
      dsimp only at hgen
      omega }

theorem Inv.truncateAll (h : Inv crc j parts) (now : ℕ) :
    Inv crc (exec crc j (.truncateAll now)) [(SegmentFile.create crc 0 now, [])] := by
  dsimp only [exec]
  unfold WriterState.truncateAll
  rw [if_neg (by simp [h.poisoned])]
  dsimp only
  unfold WriterState.applyTruncateToSegments
  rw [if_pos rfl]
  exact { h with
    before := {
      segs := rfl
      ok := by
        intro p hp
        rw [List.mem_singleton.mp hp]
        exact WriterState.segOk_create 0 now
      placed := ⟨by simp, by simp, by simp [SegmentFile.create], List.pairwise_singleton _ _⟩
      sorted := List.Pairwise.nil
      fits := by simp
      above := by simp }
    first := rfl
    last := rfl
    pending := List.nil_sublist _
    generation := fun q hq => (h.generation q hq).trans (Nat.le_succ _)
    current := by
      intro q hq hgen
      have := h.generation q hq
      dsimp only at hgen
      omega }

/-- A safe purge keeps a record, if there is one: that with the base of the
    first segment it keeps. -/
theorem Inv.purge_keeps {ps qs : List Part} (h : Inv crc j (ps ++ qs)) {seq : ℕ}
    (hkeep : WriterState.keepSegments seq ((ps ++ qs).map Prod.fst) = qs.map Prod.fst)
    (hsafe : Safe crc j (.purgeBefore seq)) :
    stored ps ++ (stored qs ++ j.st.pending.map (·.record)) = [] ∨
      ∃ q ∈ qs.head?, ∃ r ∈ stored qs ++ j.st.pending.map (·.record), r.seq = q.1.baseSeq := by
  have hpresent := h.present_eq
  rw [stored_append, List.append_assoc] at hpresent
  dsimp only [Safe] at hsafe
  rw [hpresent, h.before.segs, hkeep] at hsafe
  refine hsafe.imp_right ?_
  rintro ⟨seg, hseg, r, hr, hbase⟩
  obtain ⟨q, hq, rfl⟩ : ∃ q, qs.head? = some q ∧ q.1 = seg := by simpa using hseg
  refine ⟨q, hq, r, ?_, hbase⟩
  rcases List.mem_append.mp hr with hr | hr
  · obtain ⟨p, hp, hrp⟩ := mem_stored.mp hr
    have hlt := ((List.pairwise_append.mp h.before.placed.order).2.2 p hp q
      (List.mem_of_mem_head? hq)).2 r hrp
    omega
  · exact hr

theorem base_le {st : WriterState} (h : WriterState.BeforeBatch crc st parts) {q : Part}
    (hq : parts.head? = some q) :
    ∀ x ∈ stored parts ++ st.pending.map (·.record), q.1.baseSeq ≤ x.seq := by
  obtain ⟨qs, rfl⟩ := List.head?_eq_some_iff.mp hq
  have hplaced := h.placed
  intro x hx
  rcases List.mem_append.mp hx with hx | hx
  · obtain ⟨p, hp, hxp⟩ := mem_stored.mp hx
    rcases List.mem_cons.mp hp with rfl | hp
    · exact hplaced.base _ List.mem_cons_self x hxp
    · exact ((List.pairwise_cons.mp hplaced.order).1 p hp).1.le.trans
        (hplaced.base p (List.mem_cons_of_mem _ hp) x hxp)
  · obtain ⟨w, hw, rfl⟩ := List.mem_map.mp hx
    rcases hplaced.start q List.mem_cons_self with h0 | ⟨y, hy, hyq⟩
    · omega
    · exact hyq ▸ (h.above y (mem_stored.mpr ⟨q, List.mem_cons_self, hy⟩) w hw).le

theorem Inv.purgeBefore (h : Inv crc j parts) {seq : ℕ} (hsafe : Safe crc j (.purgeBefore seq)) :
    ∃ ps qs, parts = ps ++ qs ∧ (∀ r ∈ stored ps, r.seq ≤ seq) ∧
      Inv crc (exec crc j (.purgeBefore seq)) qs := by
  obtain ⟨ps, qs, rfl, hkeep, hdrop⟩ := keepSegments_stored h.before.placed seq
  refine ⟨ps, qs, rfl, hdrop, ?_⟩
  have hkeeps := h.purge_keeps hkeep hsafe
  have hsorted := h.sorted
  rw [stored_append, List.append_assoc] at hsorted
  have hlast := h.last
  rw [stored_append, List.append_assoc] at hlast
  have hlast' : j.st.lastSeq = (stored qs ++ j.st.pending.map (·.record)).getLast?.map (·.seq) := by
    rcases hkeeps with hnil | ⟨q, -, r, hr, -⟩
    · rw [hlast, hnil, (List.append_eq_nil_iff.mp hnil).2]
    · rw [hlast, List.getLast?_append_of_ne_nil _ (List.ne_nil_of_mem hr)]
  have hbefore : WriterState.BeforeBatch crc (j.st.purgeBefore seq) qs := { h.before with
    segs := by
      dsimp only [WriterState.purgeBefore]
      rw [h.before.segs, hkeep]
    ok := fun p hp => h.before.ok p (List.mem_append_right _ hp)
    placed := h.before.placed.right
    above := fun r hr => h.before.above r (by
      rw [stored_append]
      exact List.mem_append_right _ hr) }
  have hfirst : ((qs.map Prod.fst).head?.map (·.baseSeq)).filter
        (fun b => j.st.lastSeq.any (b ≤ ·)) =
      (stored qs ++ j.st.pending.map (·.record)).head?.map (·.seq) := by
    rcases hkeeps with hnil | ⟨q, hq, r, hr, hbase⟩
    · rw [hlast, hnil, (List.append_eq_nil_iff.mp hnil).2]
      cases (qs.map Prod.fst).head? <;> rfl
    · have hs := (List.pairwise_append.mp hsorted).2.1
      have hhead : qs.head? = some q := hq
      have hne := List.ne_nil_of_mem hr
      obtain ⟨x, hx⟩ : ∃ x, (stored qs ++ j.st.pending.map (·.record)).head? = some x :=
        ⟨_, List.head?_eq_some_head hne⟩
      obtain ⟨y, hy⟩ : ∃ y, (stored qs ++ j.st.pending.map (·.record)).getLast? = some y :=
        ⟨_, List.getLast?_eq_some_getLast hne⟩
      have hxr := head_le hs hx hr
      have hry := le_getLast hs hy hr
      have hbx : q.1.baseSeq ≤ x.seq := base_le hbefore hhead x (List.mem_of_mem_head? hx)
      have hxb : x.seq = q.1.baseSeq := by omega
      have hby : q.1.baseSeq ≤ y.seq := by omega
      rw [hlast', hy, hx]
      simp [Option.filter, hhead, hxb, hby]
  exact { h with
    before := hbefore
    first := by
      dsimp only [exec, WriterState.purgeBefore]
      rw [h.before.segs, hkeep]
      exact hfirst
    last := hlast' }

/-! ## Runs -/

theorem Inv.exec (h : Inv crc j parts) {op : JournalOp} (hp : Possible op)
    (hsafe : Safe crc j op) :
    (∃ parts', Inv crc (exec crc j op) parts') ∧
      MapStep j.st.segmentSize (present crc j) op (present crc (exec crc j op)) := by
  cases op with
  | append r =>
    obtain ⟨hinv, hmap⟩ := h.append hp hsafe
    exact ⟨⟨parts, hinv⟩, hmap⟩
  | truncateAfter k now =>
    obtain ⟨parts', hinv, hmap⟩ := h.truncateAfter hsafe
    refine ⟨⟨parts', hinv⟩, ?_⟩
    dsimp only [MapStep]
    rw [hinv.present_eq, hmap, h.present_eq]
  | truncateAll now =>
    have hinv := h.truncateAll now
    refine ⟨⟨_, hinv⟩, ?_⟩
    rw [hinv.present_eq]
    dsimp only [Journal.exec]
    unfold WriterState.truncateAll
    rw [if_neg (by simp [h.poisoned])]
    rfl
  | purgeBefore seq =>
    obtain ⟨ps, qs, rfl, hdrop, hinv⟩ := h.purgeBefore hsafe
    refine ⟨⟨qs, hinv⟩, stored ps, ?_, hdrop⟩
    rw [hinv.present_eq, h.present_eq, stored_append, List.append_assoc]
    rfl
  | write n now =>
    obtain ⟨parts', hinv, hmap⟩ := h.write n now
    refine ⟨⟨parts', hinv⟩, ?_⟩
    dsimp only [MapStep]
    rw [hinv.present_eq, hmap, h.present_eq]

theorem inv_run {size : ℕ} (hsize : segmentHeaderSize < size) {preallocate : Bool}
    {ops : List JournalOp} (h : Runs crc (Safe crc) (fresh size preallocate) ops) :
    ∃ parts, Inv crc (run crc (fresh size preallocate) ops) parts := by
  refine Trace.Admits.rule (P := fun ops => ∃ parts, Inv crc (run crc (fresh size preallocate) ops) parts)
    ⟨[], inv_fresh hsize preallocate⟩ ?_ h
  rintro ops op ⟨parts, hinv⟩ ⟨hp, hsafe⟩
  unfold run
  rw [List.foldl_append]
  exact (hinv.exec hp hsafe).1

/-- **The journal refines a map** from sequences to records, in every run whose
    truncations name a record or drop all, and whose purges leave a segment that
    begins with its base. -/
theorem journal_refines_map (crc : Bytes → UInt32) (size : ℕ) (hsize : segmentHeaderSize < size)
    (preallocate : Bool) (ops : List JournalOp)
    (h : Runs crc (Safe crc) (fresh size preallocate) ops) :
    Shows crc (run crc (fresh size preallocate) ops)
        (present crc (run crc (fresh size preallocate) ops)) ∧
      ∀ op, Possible op → Safe crc (run crc (fresh size preallocate) ops) op →
        MapStep (run crc (fresh size preallocate) ops).st.segmentSize
          (present crc (run crc (fresh size preallocate) ops)) op
          (present crc (exec crc (run crc (fresh size preallocate) ops) op)) := by
  obtain ⟨parts, hinv⟩ := inv_run hsize h
  exact ⟨hinv.shows, fun op hp hsafe => (hinv.exec hp hsafe).2⟩

/-- Two records, one of them written, and a truncation to the first. -/
def twoRecords : List JournalOp :=
  [.append ⟨3, 7, [1]⟩, .write 1 0, .append ⟨9, 8, [2]⟩, .truncateAfter 3 0]

theorem journal_refines_map_twoRecords :
    Runs (fun _ => 0) (Safe fun _ => 0) (fresh 64 true) twoRecords ∧
      Shows (fun _ => 0) (run (fun _ => 0) (fresh 64 true) twoRecords) [⟨3, 7, [1]⟩] := by
  have hpresent : present (fun _ => 0) (run (fun _ => 0) (fresh 64 true) twoRecords) =
      [⟨3, 7, [1]⟩] := by decide +kernel
  have hruns : Runs (fun _ => 0) (Safe fun _ => 0) (fresh 64 true) twoRecords := by decide +kernel
  have hshows := (journal_refines_map (fun _ => 0) 64 (by decide) true twoRecords hruns).1
  rw [hpresent] at hshows
  exact ⟨hruns, hshows⟩

/-- A truncation above the last record makes its argument the last sequence. -/
theorem last_seq_above_records :
    ¬ ∀ (crc : Bytes → UInt32) (size : ℕ), segmentHeaderSize < size →
      ∀ (preallocate : Bool) (ops : List JournalOp),
        Runs crc (fun _ _ => True) (fresh size preallocate) ops →
          Shows crc (run crc (fresh size preallocate) ops)
            (present crc (run crc (fresh size preallocate) ops)) := by
  intro hall
  have hruns : Runs (fun _ => 0) (fun _ _ => True) (fresh 64 false)
      [.append ⟨5, 0, []⟩, .truncateAfter 9 0] := by decide +kernel
  have hlast := (hall (fun _ => 0) 64 (by decide) false _ hruns).last
  revert hlast
  decide +kernel

end Journal

end UltimaCluster
