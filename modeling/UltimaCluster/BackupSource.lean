/-
  What the steps of a running node keep of its instance directory: the records of the
  journal lie end to end in segments named by their first sequence, a cut leaves the log
  at its position, and the committed log is under every artifact.
-/
import Mathlib.Data.List.TakeWhile
import UltimaCluster.Backup

namespace UltimaCluster

open List (append_nil append_of_mem cons_append dropLast_concat flatMap_cons foldl_append
  foldl_cons length_cons map_cons map_id mem_append_left nil_append pairwise_singleton prefix_rfl
  singleton_append)

namespace HotBackup

open Instance

variable {V : Type}

/-! ## Records end to end -/

@[simp] theorem bytesOf_nil : bytesOf [] = [] := rfl

@[simp] theorem bytesOf_cons (k : ArchivedBlock) (ks : List ArchivedBlock) :
    bytesOf (k :: ks) = k.bytes ++ bytesOf ks := rfl

@[simp] theorem bytesOf_append (ks ls : List ArchivedBlock) :
    bytesOf (ks ++ ls) = bytesOf ks ++ bytesOf ls := List.flatMap_append

/-- The records are numbered from `seq` and lie end to end from `base`. -/
def LaidFrom (seq base : ℕ) : List ArchivedBlock → Prop
  | [] => True
  | k :: ks => k.seq = seq ∧ k.base = base ∧ k.bytes ≠ [] ∧ LaidFrom (seq + 1) (base + k.bytes.length) ks

variable {ks ls : List ArchivedBlock} {seq base : ℕ}

theorem laidFrom_append : LaidFrom seq base (ks ++ ls) ↔
      LaidFrom seq base ks ∧ LaidFrom (seq + ks.length) (base + (bytesOf ks).length) ls := by
  induction ks generalizing seq base with
  | nil => simp [LaidFrom]
  | cons k ks ih =>
    simp only [cons_append, LaidFrom, ih, bytesOf_cons, List.length_append, length_cons, and_assoc]
    rw [Nat.add_right_comm seq 1, ← Nat.add_assoc base, Nat.add_assoc seq]

theorem LaidFrom.at {k : ArchivedBlock} (h : LaidFrom seq base (ks ++ k :: ls)) :
    k.seq = seq + ks.length ∧ k.base = base + (bytesOf ks).length := by
  obtain ⟨-, hk⟩ := laidFrom_append.mp h
  exact ⟨hk.1, hk.2.1⟩

theorem LaidFrom.seq_mem (h : LaidFrom seq base ks) {k : ArchivedBlock} (hk : k ∈ ks) :
    seq ≤ k.seq ∧ k.seq < seq + ks.length := by
  obtain ⟨l, r, rfl⟩ := append_of_mem hk
  obtain ⟨hs, -⟩ := h.at
  rw [hs, List.length_append, length_cons]
  omega

theorem LaidFrom.takeWhile {k : ArchivedBlock} (h : LaidFrom seq base (ks ++ k :: ls)) :
    (ks ++ k :: ls).takeWhile (·.seq ≤ k.seq) = ks ++ [k] := by
  have hk := h.at.1
  have hlow : ∀ x ∈ ks ++ [k], decide (x.seq ≤ k.seq) = true := by
    intro x hx
    rcases List.mem_snoc.mp hx with hx | rfl
    · have := ((laidFrom_append.mp h).1.seq_mem hx).2
      exact decide_eq_true (by omega)
    · exact decide_eq_true le_rfl
  rw [← singleton_append, ← List.append_assoc, List.takeWhile_append_of_pos hlow]
  cases ls with
  | nil => simp
  | cons l ls =>
    rw [← singleton_append, ← List.append_assoc] at h
    have hl := h.at.1
    rw [List.takeWhile_cons_of_neg, append_nil]
    rw [List.length_append] at hl
    simp only [List.length_singleton] at hl
    simp only [decide_eq_true_eq]
    omega

/-! ## The segments -/

/-- Each segment is named by its first sequence. -/
def NamedFrom (seq : ℕ) : List SegFile → Prop
  | [] => True
  | f :: fs => f.baseSeq = seq ∧ NamedFrom (seq + f.recs.length) fs

theorem namedFrom_append {fs gs : List SegFile} : NamedFrom seq (fs ++ gs) ↔
      NamedFrom seq fs ∧ NamedFrom (seq + (fs.flatMap SegFile.recs).length) gs := by
  induction fs generalizing seq with
  | nil => simp [NamedFrom]
  | cons f fs ih =>
    simp only [cons_append, NamedFrom, ih, flatMap_cons, List.length_append, and_assoc]
    rw [Nat.add_assoc seq]

theorem NamedFrom.le {fs : List SegFile} (h : NamedFrom seq fs) {f : SegFile} (hf : f ∈ fs) :
    seq ≤ f.baseSeq := by
  obtain ⟨l, r, rfl⟩ := append_of_mem hf
  obtain ⟨-, hr⟩ := namedFrom_append.mp h
  rw [hr.1]
  omega

theorem NamedFrom.end_le {fs : List SegFile} (h : NamedFrom seq fs) {f : SegFile} (hf : f ∈ fs) :
    f.baseSeq + f.recs.length ≤ seq + (fs.flatMap SegFile.recs).length := by
  obtain ⟨l, r, rfl⟩ := append_of_mem hf
  obtain ⟨-, hr⟩ := namedFrom_append.mp h
  rw [hr.1, List.flatMap_append, flatMap_cons, List.length_append, List.length_append]
  omega

theorem NamedFrom.pairwise {fs : List SegFile} (h : NamedFrom seq fs)
    (hfull : ∀ f ∈ fs.dropLast, f.recs ≠ []) : fs.Pairwise fun f g => f.baseSeq < g.baseSeq := by
  induction fs generalizing seq with
  | nil => exact .nil
  | cons f fs ih =>
    cases fs with
    | nil => exact pairwise_singleton _ _
    | cons g gs =>
      have hf : f.recs ≠ [] := hfull f (by simp)
      refine List.pairwise_cons.mpr ⟨?_, ih h.2 fun x hx => hfull x (by simp [hx])⟩
      intro x hx
      have hx' := h.2.le hx
      have := List.length_pos_iff.mpr hf
      have := h.1
      omega

theorem writeLast_append (k : ArchivedBlock) (fs : List SegFile) (f : SegFile) :
    writeLast k (fs ++ [f]) = fs ++ [{ f with recs := f.recs ++ [k] }] := by
  induction fs with
  | nil => rfl
  | cons g fs ih =>
    cases fs with
    | nil => rfl
    | cons g' fs => exact congrArg (g :: ·) ih

/-- The journal directory while no cut is under way. -/
structure Files (s : Instance V) : Prop where
  laid : LaidFrom 0 s.below.length s.records
  named : NamedFrom 0 (s.purged ++ s.segs)
  gone : ∀ f ∈ s.purged, f.recs ≠ []
  full : ∀ f ∈ s.segs.dropLast, f.recs ≠ []
  inos : (s.purged ++ s.segs).Pairwise fun f g => f.ino < g.ino
  fresh : ∀ f ∈ s.purged ++ s.segs, f.ino < s.nextIno
  durable : s.durablePos = s.log.length
  next : s.nextBlockSeq = s.records.length
  base : s.firstBase ≤ s.floor
  intent : s.intent = none

theorem records_eq (s : Instance V) : s.records = s.purged.flatMap SegFile.recs ++ s.retained :=
  List.flatMap_append

theorem length_log (s : Instance V) : s.log.length = s.below.length + (bytesOf s.records).length :=
  List.length_append

namespace Files

variable {s : Instance V}

theorem dropLast (h : Files s) : ∀ f ∈ (s.purged ++ s.segs).dropLast, f.recs ≠ [] := by
  intro f hf
  by_cases hs : s.segs = []
  · rw [hs, append_nil] at hf
    exact h.gone f (List.mem_of_mem_dropLast hf)
  · rw [List.dropLast_append_of_ne_nil hs, List.mem_append] at hf
    exact hf.elim (h.gone f) (h.full f)

theorem laid_retained (h : Files s) :
    LaidFrom (s.purged.flatMap SegFile.recs).length s.firstBase s.retained := by
  have hl := h.laid
  rw [records_eq, laidFrom_append, Nat.zero_add] at hl
  exact hl.2

theorem roll (h : Files s) (hlast : s.segs.getLast?.all (·.recs ≠ []) = true) :
    Files (s.apply (.create s.nextBlockSeq)) := by
  have hrecs : (s.apply (.create s.nextBlockSeq)).records = s.records := by
    simp [records, Instance.apply]
  refine ⟨?_, ?_, h.gone, ?_, ?_, ?_, ?_, ?_, h.base, h.intent⟩
  · rw [hrecs]
    exact h.laid
  · show NamedFrom 0 (s.purged ++ (s.segs ++ _))
    rw [← List.append_assoc, namedFrom_append]
    refine ⟨h.named, ?_, trivial⟩
    rw [h.next, Nat.zero_add]
    rfl
  · intro f hf
    rw [apply, dropLast_concat] at hf
    by_cases hd : f ∈ s.segs.dropLast
    · exact h.full f hd
    · obtain ⟨l, x, hx⟩ : ∃ l x, s.segs = l ++ [x] := by
        rcases List.eq_nil_or_concat s.segs with h0 | ⟨l, x, hx⟩
        · rw [h0] at hf
          cases hf
        · exact ⟨l, x, by rw [hx, List.concat_eq_append]⟩
      rw [hx] at hf hd hlast
      rw [dropLast_concat] at hd
      rw [List.getLast?_concat, Option.all_some, decide_eq_true_eq] at hlast
      rcases List.mem_snoc.mp hf with hf | rfl
      · exact absurd hf hd
      · exact hlast
  · show (s.purged ++ (s.segs ++ _)).Pairwise _
    rw [← List.append_assoc, List.pairwise_append]
    refine ⟨h.inos, pairwise_singleton _ _, ?_⟩
    intro f hf g hg
    rw [List.mem_singleton.mp hg]
    exact h.fresh f hf
  · intro f hf
    have hf' : f ∈ s.purged ++ (s.segs ++ [(⟨s.nextIno, s.nextBlockSeq, []⟩ : SegFile)]) := hf
    rw [← List.append_assoc, List.mem_append] at hf'
    rcases hf' with hf | hf
    · exact Nat.lt_succ_of_lt (h.fresh f hf)
    · rw [List.mem_singleton.mp hf]
      exact Nat.lt_succ_self _
  · refine h.durable.trans ?_
    rw [length_log, length_log, hrecs]
    rfl
  · rw [hrecs]
    exact h.next

theorem records_write (s : Instance V) {k : ArchivedBlock} (hne : s.segs ≠ []) :
    (s.apply (.write k)).records = s.records ++ [k] := by
  obtain ⟨l, x, hx⟩ : ∃ l x, s.segs = l ++ [x] :=
    ⟨_, _, (List.dropLast_append_getLast hne).symm⟩
  show (s.purged ++ writeLast k s.segs).flatMap SegFile.recs = (s.purged ++ s.segs).flatMap SegFile.recs ++ [k]
  rw [hx, writeLast_append]
  simp

theorem log_write (s : Instance V) {k : ArchivedBlock} (hne : s.segs ≠ []) :
    (s.apply (.write k)).log = s.log ++ k.bytes := by
  show s.below ++ bytesOf (s.apply (.write k)).records = s.below ++ bytesOf s.records ++ k.bytes
  rw [records_write s hne, bytesOf_append, List.append_assoc, bytesOf_cons, bytesOf_nil, append_nil]

theorem record (h : Files s) {bytes : Bytes} (hne : s.segs ≠ []) (hb : bytes ≠ []) :
    Files (s.apply (.write ⟨s.nextBlockSeq, s.durablePos, bytes⟩)) := by
  obtain ⟨l, x, hx⟩ : ∃ l x, s.segs = l ++ [x] :=
    ⟨_, _, (List.dropLast_append_getLast hne).symm⟩
  have hsegs : (s.apply (.write ⟨s.nextBlockSeq, s.durablePos, bytes⟩)).segs =
      l ++ [{ x with recs := x.recs ++ [⟨s.nextBlockSeq, s.durablePos, bytes⟩] }] := by
    show writeLast _ s.segs = _
    rw [hx, writeLast_append]
  have hrecs := records_write s (k := ⟨s.nextBlockSeq, s.durablePos, bytes⟩) hne
  have hnamed := h.named
  have hinos := h.inos
  have hfresh := h.fresh
  rw [hx, ← List.append_assoc] at hnamed hinos hfresh
  refine ⟨?_, ?_, h.gone, ?_, ?_, ?_, ?_, ?_, h.base, h.intent⟩
  · rw [hrecs]
    refine laidFrom_append.mpr ⟨h.laid, ?_, ?_, hb, trivial⟩
    · exact h.next.trans (Nat.zero_add _).symm
    · exact h.durable.trans (length_log s)
  · rw [hsegs, ← List.append_assoc, namedFrom_append]
    obtain ⟨h1, h2⟩ := namedFrom_append.mp hnamed
    exact ⟨h1, h2.1, trivial⟩
  · rw [hsegs, dropLast_concat]
    have hfull := h.full
    rw [hx, dropLast_concat] at hfull
    exact hfull
  · rw [hsegs, ← List.append_assoc, List.pairwise_append]
    obtain ⟨h1, -, h3⟩ := List.pairwise_append.mp hinos
    refine ⟨h1, pairwise_singleton _ _, ?_⟩
    intro f hf g hg
    rw [List.mem_singleton.mp hg]
    exact h3 f hf x (List.mem_singleton_self x)
  · rw [hsegs, ← List.append_assoc]
    intro f hf
    rcases List.mem_snoc.mp hf with hf | rfl
    · exact hfresh f (mem_append_left _ hf)
    · exact hfresh x (by simp)
  · rw [log_write s hne, List.length_append, ← h.durable]
    rfl
  · rw [hrecs, List.length_append, ← h.next]
    rfl

/-- A purge: the journal begins at the second segment, which starts at or below the
    block that covers the floor. -/
theorem purge (h : Files s) {pos : ℕ} (hpos : pos ≤ s.floor) (hp : s.Purges pos) :
    Files { s with segs := s.segs.tail, purged := s.purged ++ s.segs.take 1 } := by
  obtain ⟨f, g, fs, k, hsegs, hk, hfirst, hg⟩ : ∃ f g fs k, s.segs = f :: g :: fs ∧
      covering s.retained pos = some k ∧ s.retained.head?.any (·.seq < k.seq) = true ∧
      g.baseSeq - 1 ≤ k.seq - 1 := by
    unfold Purges at hp
    split at hp
    · rename_i f g fs k hsegs hk
      exact ⟨f, g, fs, k, hsegs, hk, hp⟩
    · exact hp.elim
  have hall : s.purged ++ s.segs.take 1 ++ s.segs.tail = s.purged ++ s.segs := by
    rw [hsegs]
    simp
  have hrecs : ({ s with segs := s.segs.tail, purged := s.purged ++ s.segs.take 1 } :
      Instance V).records = s.records := by
    show (s.purged ++ s.segs.take 1 ++ s.segs.tail).flatMap SegFile.recs = _
    rw [hall]
    rfl
  have hf : f.recs ≠ [] := h.full f (by rw [hsegs]; simp)
  refine ⟨?_, ?_, ?_, ?_, ?_, ?_, ?_, ?_, ?_, h.intent⟩
  · rw [hrecs]
    exact h.laid
  · rw [hall]
    exact h.named
  · intro x hx
    rw [hsegs] at hx
    rcases List.mem_snoc.mp hx with hx | rfl
    · exact h.gone x hx
    · exact hf
  · intro x hx
    rw [hsegs] at hx
    exact h.full x (by rw [hsegs]; exact List.mem_cons_of_mem f hx)
  · rw [hall]
    exact h.inos
  · rw [hall]
    exact h.fresh
  · rw [length_log, hrecs]
    exact h.durable.trans (length_log s)
  · rw [hrecs]
    exact h.next
  · -- the block that covers `pos` is no record of the first segment
    obtain ⟨hmem, hle⟩ : k ∈ s.retained ∧ k.base ≤ pos := by
      have hlast := List.mem_of_getLast? hk
      exact ⟨(List.takeWhile_sublist _).subset hlast,
        by simpa using List.all_eq_true.mp List.all_takeWhile k hlast⟩
    obtain ⟨ks, ls, hsplit⟩ := append_of_mem hmem
    have hlaid := h.laid_retained
    rw [hsplit] at hlaid
    obtain ⟨hseq, hbase⟩ := hlaid.at
    have hnamed := h.named
    rw [hsegs, namedFrom_append] at hnamed
    have hgn : g.baseSeq = 0 + (s.purged.flatMap SegFile.recs).length + f.recs.length := hnamed.2.2.1
    have hretained : s.retained = f.recs ++ (g :: fs).flatMap SegFile.recs := by
      rw [retained, hsegs, flatMap_cons]
    have hk0 : 0 < k.seq := by
      cases hr : s.retained.head? with
      | none => simp [hr] at hfirst
      | some x =>
        rw [hr, Option.any_some, decide_eq_true_eq] at hfirst
        omega
    have hlong : f.recs.length ≤ ks.length := by omega
    have hpre : f.recs <+: ks := by
      refine List.prefix_of_prefix_length_le ?_ ⟨k :: ls, hsplit.symm⟩ hlong
      rw [hretained]
      exact List.prefix_append f.recs _
    obtain ⟨ks', rfl⟩ := hpre
    show s.below.length + (bytesOf ((s.purged ++ s.segs.take 1).flatMap SegFile.recs)).length ≤ s.floor
    have hbytes : bytesOf ((s.purged ++ s.segs.take 1).flatMap SegFile.recs) =
        bytesOf (s.purged.flatMap SegFile.recs) ++ bytesOf f.recs := by
      rw [hsegs]
      simp
    rw [hbytes, List.length_append]
    rw [bytesOf_append, List.length_append, firstBase] at hbase
    omega

end Files

/-! ## Cuts -/

variable {s : Instance V} {roll : Bool}

theorem foldl_unlink (s : Instance V) (fs : List SegFile) : ∃ u,
    (fs.map fun f => FileOp.unlink f.baseSeq).foldl apply s =
      { s with segs := s.segs.filter (·.baseSeq ∉ fs.map SegFile.baseSeq), unlinked := u } := by
  induction fs generalizing s with
  | nil => exact ⟨s.unlinked, by simp⟩
  | cons g fs ih =>
    obtain ⟨u, hu⟩ := ih (s.apply (.unlink g.baseSeq))
    refine ⟨u, ?_⟩
    rw [map_cons, foldl_cons, hu]
    simp only [Instance.apply, List.filter_filter, map_cons, List.mem_cons, not_or, Bool.decide_and,
      ne_eq]
    congr 2
    funext f
    rw [Bool.and_comm]

theorem covering_spec {seq base pos : ℕ} (h : LaidFrom seq base ks) (hlo : base ≤ pos)
    (hhi : pos < base + (bytesOf ks).length) :
    ∃ l k r, ks = l ++ k :: r ∧ covering ks pos = some k ∧ k.base ≤ pos ∧
      pos < k.base + k.bytes.length := by
  induction ks generalizing seq base with
  | nil => simp at hhi; omega
  | cons k ks ih =>
    obtain ⟨hs, hb, hne, hrest⟩ := h
    have htake : (k :: ks).takeWhile (·.base ≤ pos) = k :: ks.takeWhile (·.base ≤ pos) :=
      List.takeWhile_cons_of_pos (decide_eq_true (hb ▸ hlo))
    rw [bytesOf_cons, List.length_append] at hhi
    by_cases hin : pos < base + k.bytes.length
    · refine ⟨[], k, ks, rfl, ?_, by omega, by omega⟩
      have hnil : ks.takeWhile (·.base ≤ pos) = [] := by
        cases ks with
        | nil => rfl
        | cons l ls =>
          refine List.takeWhile_cons_of_neg ?_
          rw [decide_eq_true_eq, hrest.2.1]
          omega
      rw [covering, htake, hnil]
      rfl
    · obtain ⟨l, k', r, rfl, hcov, hk'⟩ := ih hrest (by omega) (by omega)
      refine ⟨k :: l, k', r, rfl, ?_, hk'⟩
      rw [covering, htake]
      rw [covering] at hcov
      cases htw : (l ++ k' :: r).takeWhile (·.base ≤ pos) with
      | nil =>
        rw [htw] at hcov
        cases hcov
      | cons a as =>
        rw [htw] at hcov
        exact hcov

theorem finish_frame (s : Instance V) : s.finish.committed = s.committed ∧ s.finish.floor = s.floor ∧
    s.finish.arts = s.arts ∧ s.finish.dirs = s.dirs ∧ s.finish.vote = s.vote := by
  have hfold : ∀ (ops : List FileOp) (s : Instance V), (ops.foldl apply s).committed = s.committed ∧
      (ops.foldl apply s).floor = s.floor ∧ (ops.foldl apply s).arts = s.arts ∧
      (ops.foldl apply s).dirs = s.dirs ∧ (ops.foldl apply s).vote = s.vote := by
    intro ops
    induction ops with
    | nil => exact fun s => ⟨rfl, rfl, rfl, rfl, rfl⟩
    | cons op ops ih =>
      intro s
      obtain ⟨h1, h2, h3, h4, h5⟩ := ih (s.apply op)
      rw [foldl_cons, h1, h2, h3, h4, h5]
      cases op <;> exact ⟨rfl, rfl, rfl, rfl, rfl⟩
  exact hfold s.pending { s with pending := [] }

theorem log_take (h : Files s) {l r : List ArchivedBlock} {k : ArchivedBlock} {pos : ℕ}
    (hsplit : s.retained = l ++ k :: r) (hlo : k.base ≤ pos) (hhi : pos < k.base + k.bytes.length) :
    s.log.take pos = s.below ++ bytesOf (s.purged.flatMap SegFile.recs ++ l) ++ k.bytes.take (pos - k.base) ∧
      k.base = s.below.length + (bytesOf (s.purged.flatMap SegFile.recs ++ l)).length := by
  have hlaid := h.laid
  rw [records_eq, hsplit, ← List.append_assoc] at hlaid
  have hbase := hlaid.at.2
  refine ⟨?_, hbase⟩
  have hlog : s.log = (s.below ++ bytesOf (s.purged.flatMap SegFile.recs ++ l)) ++ (k.bytes ++ bytesOf r) := by
    rw [log, records_eq, hsplit]
    simp
  rw [hlog, List.take_append, List.take_of_length_le (by rw [List.length_append]; omega),
    List.length_append, ← hbase, List.take_append_of_le_length (by omega)]

theorem Files.head (h : Files s) (hne : s.segs ≠ [])
    (hlast : s.segs.getLast?.all (·.recs ≠ []) = true ∨ roll = false)
    {k : ArchivedBlock} {pos : ℕ} (hk : k.base = s.durablePos) (hlo : k.base ≤ pos)
    (hhi : pos < k.base + k.bytes.length) :
    Files ((headOf k s.nextBlockSeq pos roll).foldl apply s) ∧
      ((headOf k s.nextBlockSeq pos roll).foldl apply s).log = s.log ++ k.bytes.take (pos - k.base) := by
  unfold headOf
  by_cases hb : k.base = pos
  · rw [if_pos hb, hb, Nat.sub_self, List.take_zero, append_nil]
    exact ⟨h, rfl⟩
  · have hbytes : k.bytes.take (pos - k.base) ≠ [] := by
      rw [ne_eq, List.take_eq_nil_iff, not_or]
      refine ⟨by omega, ?_⟩
      rintro hnil
      rw [hnil] at hhi
      exact hb (Nat.le_antisymm hlo (by simpa using Nat.le_of_lt_succ (Nat.lt_succ_of_lt hhi)))
    rw [hk] at hbytes
    rw [if_neg hb, hk]
    cases roll with
    | false => exact ⟨h.record hne hbytes, Files.log_write s hne⟩
    | true =>
      have hr := h.roll (hlast.resolve_right (by simp))
      have hne' : (s.apply (.create s.nextBlockSeq)).segs ≠ [] := by simp [Instance.apply]
      have hlog : (s.apply (.create s.nextBlockSeq)).log = s.log := by
        simp [log, records, Instance.apply]
      refine ⟨hr.record hne' hbytes, ?_⟩
      rw [← hlog]
      exact Files.log_write _ hne'

theorem Files.wiped (h : Files s) {u : List SegFile} {pos : ℕ} (hpos : pos = s.firstBase) :
    Files { s with
      segs := [⟨s.nextIno, 0, []⟩], intent := none, pending := [], nextIno := s.nextIno + 1
      nextBlockSeq := 0, durablePos := pos
      below := s.below ++ bytesOf (s.purged.flatMap SegFile.recs), purged := [], unlinked := u } := by
  have hlen : (s.below ++ bytesOf (s.purged.flatMap SegFile.recs)).length = s.firstBase :=
    List.length_append
  refine ⟨trivial, ⟨rfl, trivial⟩, by simp, by simp, pairwise_singleton _ _, by simp, ?_, rfl, ?_, rfl⟩
  · rw [length_log]
    rw [hlen, hpos]
    rfl
  · show (s.below ++ bytesOf (s.purged.flatMap SegFile.recs)).length + 0 ≤ s.floor
    rw [hlen]
    exact h.base

/-- A cut behind a record of the segment `f`. -/
theorem Files.shrunk (h : Files s) {u before after : List SegFile} {f : SegFile} {rs ls : List ArchivedBlock}
    {k : ArchivedBlock} (hsegs : s.segs = before ++ f :: after) (hrecs : f.recs = rs ++ k :: ls) :
    Files { s with
      segs := before ++ [{ f with recs := rs ++ [k] }], intent := none, pending := []
      nextBlockSeq := k.seq + 1, durablePos := k.finish, unlinked := u } := by
  have hkept : (s.purged ++ (before ++ [{ f with recs := rs ++ [k] }])).flatMap SegFile.recs =
      ((s.purged ++ before).flatMap SegFile.recs ++ rs) ++ [k] := by simp
  have hall : s.records = ((s.purged ++ before).flatMap SegFile.recs ++ rs) ++ k ::
      (ls ++ after.flatMap SegFile.recs) := by
    rw [records, hsegs]
    simp [hrecs]
  have hlaid := h.laid
  rw [hall] at hlaid
  obtain ⟨hseq, hbase⟩ := hlaid.at
  have hnamed := h.named
  have hinos := h.inos
  have hfresh := h.fresh
  rw [hsegs, ← List.append_assoc] at hnamed hinos hfresh
  refine ⟨?_, ?_, h.gone, ?_, ?_, ?_, ?_, ?_, h.base, rfl⟩
  · show LaidFrom 0 s.below.length ((s.purged ++ _).flatMap SegFile.recs)
    rw [hkept]
    rw [← singleton_append, ← List.append_assoc] at hlaid
    exact (laidFrom_append.mp hlaid).1
  · rw [← List.append_assoc, namedFrom_append]
    obtain ⟨h1, h2⟩ := namedFrom_append.mp hnamed
    exact ⟨h1, h2.1, trivial⟩
  · rw [dropLast_concat]
    intro x hx
    refine h.full x ?_
    rw [hsegs, List.dropLast_append_of_ne_nil (List.cons_ne_nil f after)]
    exact mem_append_left _ hx
  · rw [← List.append_assoc, List.pairwise_append]
    obtain ⟨h1, -, h3⟩ := List.pairwise_append.mp hinos
    refine ⟨h1, pairwise_singleton _ _, ?_⟩
    intro x hx y hy
    rw [List.mem_singleton.mp hy]
    exact h3 x hx f List.mem_cons_self
  · rw [← List.append_assoc]
    intro x hx
    rcases List.mem_snoc.mp hx with hx | rfl
    · exact hfresh x (mem_append_left _ hx)
    · exact hfresh f (by simp)
  · rw [length_log]
    show k.finish = s.below.length + (bytesOf ((s.purged ++ _).flatMap SegFile.recs)).length
    rw [hkept, bytesOf_append, List.length_append, bytesOf_cons, bytesOf_nil, append_nil,
      ArchivedBlock.finish, hbase, Nat.add_assoc]
  · show k.seq + 1 = ((s.purged ++ _).flatMap SegFile.recs).length
    rw [hkept, List.length_append, hseq, Nat.zero_add]
    rfl

theorem foldl_truncateAll (s : Instance V) : ∃ u, (truncateAll s.segs).foldl apply s = { s with
      segs := [⟨s.nextIno, 0, []⟩], intent := none, nextIno := s.nextIno + 1, unlinked := u } := by
  obtain ⟨u, hu⟩ := foldl_unlink (s.apply (.putIntent none)) s.segs
  refine ⟨u, ?_⟩
  have hnone : s.segs.filter (·.baseSeq ∉ s.segs.map SegFile.baseSeq) = [] := by
    refine List.filter_eq_nil_iff.mpr ?_
    intro f hf
    rw [decide_eq_true_eq, not_not]
    exact List.mem_map_of_mem hf
  simp only [truncateAll, foldl_append, foldl_cons, List.foldl_nil, hu]
  simp only [Instance.apply, hnone, nil_append]

theorem foldl_truncateAfter {before after : List SegFile} {f : SegFile} {keep : ℕ}
    (hsegs : s.segs = before ++ f :: after)
    (hbefore : ∀ g ∈ before, g.baseSeq ≤ keep ∧ ∀ x ∈ g.recs, x.seq ≤ keep)
    (hf : f.baseSeq ≤ keep) (hafter : ∀ g ∈ after, keep < g.baseSeq) : ∃ u,
    (truncateAfter keep s.segs).foldl apply s = { s with
      segs := before ++ [{ f with recs := f.recs.takeWhile (·.seq ≤ keep) }]
      intent := none, unlinked := u } := by
  have hdoomed : s.segs.filter (keep < ·.baseSeq) = after := by
    rw [hsegs, List.filter_append, List.filter_eq_nil_iff.mpr, nil_append, List.filter_cons_of_neg,
      List.filter_eq_self.mpr]
    · exact fun g hg => decide_eq_true (hafter g hg)
    · simpa using hf
    · intro g hg
      simpa using (hbefore g hg).1
  have hshrunk : ((s.apply (.putIntent (some keep))).apply (.shrink keep)).segs =
      before ++ { f with recs := f.recs.takeWhile (·.seq ≤ keep) } :: after := by
    show s.segs.map _ = _
    rw [hsegs, List.map_append, map_cons, if_pos hf]
    refine congrArg₂ (· ++ ·) ?_ (congrArg (_ :: ·) ?_)
    · refine (List.map_congr_left ?_).trans (map_id before)
      intro g hg
      rw [if_pos (hbefore g hg).1,
        List.takeWhile_eq_self_iff.mpr fun x hx => decide_eq_true ((hbefore g hg).2 x hx)]
      rfl
    · refine (List.map_congr_left ?_).trans (map_id after)
      intro g hg
      rw [if_neg (Nat.not_le.mpr (hafter g hg))]
      rfl
  obtain ⟨u, hu⟩ := foldl_unlink ((s.apply (.putIntent (some keep))).apply (.shrink keep)) after
  refine ⟨u, ?_⟩
  have hleft : (before ++ { f with recs := f.recs.takeWhile (·.seq ≤ keep) } :: after).filter
      (·.baseSeq ∉ after.map SegFile.baseSeq) =
      before ++ [{ f with recs := f.recs.takeWhile (·.seq ≤ keep) }] := by
    have hlow : ∀ n ≤ keep, n ∉ after.map SegFile.baseSeq := by
      intro n hn hmem
      obtain ⟨g, hg, rfl⟩ := List.mem_map.mp hmem
      exact absurd hn (Nat.not_le.mpr (hafter g hg))
    rw [List.filter_append, List.filter_eq_self.mpr, List.filter_cons_of_pos, List.filter_eq_nil_iff.mpr]
    · intro g hg
      rw [decide_eq_true_eq, not_not]
      exact List.mem_map_of_mem hg
    · exact decide_eq_true (hlow _ hf)
    · exact fun g hg => decide_eq_true (hlow _ (hbefore g hg).1)
  rw [hshrunk, hleft] at hu
  simp only [truncateAfter, hdoomed, foldl_append, foldl_cons, List.foldl_nil, hu]
  rfl

theorem Files.cut (h : Files s) {pos : ℕ} (hlo : s.firstBase ≤ pos) (hhi : pos < s.durablePos) :
    Files (s.startCut pos roll).finish ∧ (s.startCut pos roll).finish.log = s.log.take pos := by
  have hlaid := h.laid_retained
  obtain ⟨l, k, r, hsplit, hcov, hklo, hkhi⟩ := covering_spec hlaid hlo (by
    rw [h.durable, length_log, records_eq, bytesOf_append, List.length_append] at hhi
    rw [firstBase]
    omega)
  obtain ⟨htake, hbase⟩ := log_take h hsplit hklo hkhi
  rw [hsplit] at hlaid
  have hseq := hlaid.at.1
  rcases List.eq_nil_or_concat l with rfl | ⟨l, k', rfl⟩
  · -- the journal is cleared
    rw [append_nil] at htake hbase
    have hfirst : k.base = s.firstBase := hbase
    have hstart : s.startCut pos roll = { s with
        pending := truncateAll s.segs ++ headOf k 0 pos false
        nextBlockSeq := 0
        durablePos := k.base
        below := s.below ++ bytesOf (s.purged.flatMap SegFile.recs)
        purged := []
        unlinked := s.unlinked ++ s.purged } := by
      unfold Instance.startCut
      rw [hcov]
      dsimp only
      rw [if_pos (by rw [hsplit]; rfl)]
    obtain ⟨u, hu⟩ := foldl_truncateAll { s with
      pending := []
      nextBlockSeq := 0
      durablePos := k.base
      below := s.below ++ bytesOf (s.purged.flatMap SegFile.recs)
      purged := []
      unlinked := s.unlinked ++ s.purged }
    rw [hstart, finish, foldl_append, hu]
    obtain ⟨hfiles, hlog⟩ := (h.wiped (u := u) hfirst).head (List.cons_ne_nil _ _) (.inr rfl) rfl hklo hkhi
    refine ⟨hfiles, ?_⟩
    rw [htake]
    refine hlog.trans ?_
    simp [log, records]
  · -- the block and all behind it are dropped
    rw [List.concat_eq_append] at hsplit hseq htake hbase hlaid
    have hk' := hlaid
    rw [List.append_assoc, singleton_append] at hk'
    have hseq' := hk'.at.1
    have hkeep : k.seq - 1 = k'.seq := by
      rw [hseq, hseq', List.length_append]
      rfl
    have hmem : k' ∈ s.retained := by
      rw [hsplit]
      simp
    obtain ⟨f, hf, hkf⟩ := List.mem_flatMap.mp hmem
    obtain ⟨before, after, hsegs⟩ := append_of_mem hf
    obtain ⟨rs, ls, hrecs⟩ := append_of_mem hkf
    have hretained : s.retained = (before.flatMap SegFile.recs ++ rs) ++
        k' :: (ls ++ after.flatMap SegFile.recs) := by
      rw [retained, hsegs]
      simp [hrecs]
    have hlaid' := h.laid_retained
    rw [hretained] at hlaid'
    have hseq'' := hlaid'.at.1
    have hl : before.flatMap SegFile.recs ++ rs = l := by
      rw [hsplit, List.append_assoc, singleton_append] at hretained
      exact (List.append_inj hretained.symm (by omega)).1
    rw [List.append_assoc, laidFrom_append] at hlaid'
    obtain ⟨hlaidB, hlaidF⟩ := hlaid'
    rw [← cons_append, ← List.append_assoc, laidFrom_append] at hlaidF
    have hnamed := h.named
    rw [hsegs, namedFrom_append, namedFrom_append, Nat.zero_add] at hnamed
    obtain ⟨-, hnamedB, hnamedF, hnamedA⟩ := hnamed
    rw [List.length_append] at hseq''
    have hbefore : ∀ g ∈ before, g.baseSeq ≤ k'.seq ∧ ∀ x ∈ g.recs, x.seq ≤ k'.seq := by
      intro g hg
      refine ⟨?_, ?_⟩
      · have := hnamedB.end_le hg
        omega
      · intro x hx
        have := hlaidB.seq_mem (List.mem_flatMap.mpr ⟨g, hg, hx⟩)
        omega
    have hafter : ∀ g ∈ after, k'.seq < g.baseSeq := by
      intro g hg
      have := hnamedA.le hg
      rw [hrecs, List.length_append, length_cons] at this
      omega
    have hstart : s.startCut pos roll = { s with
        pending := truncateAfter k'.seq s.segs ++ headOf k k.seq pos roll
        nextBlockSeq := k.seq
        durablePos := k.base } := by
      have hhead : s.retained.head?.map ArchivedBlock.seq ≠ some k.seq := by
        rw [hsplit]
        cases l with
        | nil =>
          rw [nil_append, singleton_append, List.head?_cons, Option.map_some, ne_eq,
            Option.some.injEq, hseq, hseq']
          simp
        | cons a l =>
          have ha : a.seq = _ := hlaid.1
          rw [cons_append, cons_append, List.head?_cons, Option.map_some, ne_eq,
            Option.some.injEq, ha, hseq, List.length_append, length_cons]
          omega
      unfold Instance.startCut
      rw [hcov]
      dsimp only
      rw [if_neg hhead, hkeep]
    obtain ⟨u, hu⟩ := @foldl_truncateAfter V { s with
      pending := []
      nextBlockSeq := k.seq
      durablePos := k.base } before after f k'.seq hsegs hbefore (by omega) hafter
    have hshrunk := h.shrunk (u := u) hsegs hrecs
    have hnext : k'.seq + 1 = k.seq := by
      rw [hseq, hseq', List.length_append]
      rfl
    have hdur : k'.finish = k.base := by
      have hb' := hk'.at.2
      have hb := hlaid.at.2
      rw [ArchivedBlock.finish, hb, hb', bytesOf_append, List.length_append]
      simp [Nat.add_assoc]
    rw [hnext, hdur, ← hlaidF.1.takeWhile, ← hrecs] at hshrunk
    rw [hstart, finish, foldl_append, hu]
    have hlast : (before ++ [({ f with recs := f.recs.takeWhile (·.seq ≤ k'.seq) } : SegFile)]).getLast?.all
        (·.recs ≠ []) = true := by
      rw [List.getLast?_concat, Option.all_some, hrecs, hlaidF.1.takeWhile]
      simp
    obtain ⟨hfiles, hlog⟩ := @Files.head V _ roll hshrunk (by simp) (.inl hlast) k pos rfl hklo hkhi
    refine ⟨hfiles, ?_⟩
    rw [htake]
    refine hlog.trans ?_
    rw [hrecs, hlaidF.1.takeWhile]
    simp [log, records, ← hl]

/-! ## The running node -/

/-- The artifacts hold the committed log below their positions, and the floor is the
    position of a complete set. -/
structure Held (rows : List ℕ) (s : Instance V) : Prop where
  arts : ∀ f, ∀ x ∈ s.arts f, x.1 ≤ s.committed.length ∧ x.2 = s.committed.take x.1
  floor : s.floor ≤ s.committed.length
  complete : 0 < s.floor → ∀ f ∈ families rows, s.floor ∈ (s.arts f).map Prod.fst
  dirs : ∀ f, s.arts f ≠ [] → f ∈ s.dirs

/-- The last store that returned is in the slot that is not written next. -/
structure VoteFile.Sound (v : VoteFile V) : Prop where
  last : ∃ x, v.slot (!v.nextSlot) = some (v.gen, x)
  stored : ∀ b g x, v.slot b = some (g, x) → v.stored[g]? = some x
  length : v.stored.length = v.gen + 1

/-- The invariant of the node. -/
structure Sound (rows : List ℕ) (s : Instance V) : Prop where
  files : Files s.finish
  committed : s.committed <+: s.finish.log
  held : Held rows s
  vote : s.vote.Sound

theorem sound_fresh (rows : List ℕ) : Sound rows (fresh : Instance V) := by
  refine ⟨⟨trivial, trivial, ?_, ?_, .nil, ?_, rfl, rfl, Nat.le_refl 0, rfl⟩, List.nil_prefix,
    ⟨?_, Nat.le_refl 0, ?_, ?_⟩, ⟨⟨none, rfl⟩, ?_, rfl⟩⟩
  · exact fun f hf => nomatch hf
  · exact fun f hf => nomatch hf
  · exact fun f hf => nomatch hf
  · exact fun f x hx => nomatch hx
  · exact fun h => absurd h (Nat.lt_irrefl 0)
  · exact fun f hf => absurd rfl hf
  · intro b g x hb
    cases hb
    rfl

theorem apply_pending (s : Instance V) (p : List FileOp) (op : FileOp) :
    apply { s with pending := p } op = { apply s op with pending := p } := by
  cases op <;> rfl

theorem finish_of_idle (h : s.pending = []) : s.finish = s := by
  rw [finish, h]
  cases s
  cases h
  rfl

theorem finish_cutOp (s : Instance V) : s.cutOp.finish = s.finish := by
  cases hp : s.pending with
  | nil => simp only [cutOp, hp]
  | cons op ops =>
    simp only [cutOp, hp, finish, foldl_cons]
    rw [apply_pending s ops op, apply_pending s [] op]

theorem finish_update (s : Instance V) (floor : ℕ) (dirs : List Family)
    (arts : Family → List (ℕ × Bytes)) (vote : VoteFile V) (committed : Bytes) :
    ({ s with floor, dirs, arts, vote, committed } : Instance V).finish =
      { s.finish with floor, dirs, arts, vote, committed } := by
  have hfold : ∀ (ops : List FileOp) (s : Instance V),
      ops.foldl apply { s with floor, dirs, arts, vote, committed } =
        { ops.foldl apply s with floor, dirs, arts, vote, committed } := by
    intro ops
    induction ops with
    | nil => exact fun s => rfl
    | cons op ops ih =>
      intro s
      rw [foldl_cons, foldl_cons, ← ih]
      cases op <;> rfl
  exact hfold s.pending { s with pending := [] }

theorem Files.update (h : Files s) {floor : ℕ} (hfloor : s.floor ≤ floor) (dirs : List Family)
    (arts : Family → List (ℕ × Bytes)) (vote : VoteFile V) (committed : Bytes) :
    Files ({ s with floor, dirs, arts, vote, committed } : Instance V) :=
  { h with base := h.base.trans hfloor }

variable {rows : List ℕ}

theorem Sound.update (h : Sound rows s) {floor : ℕ} (hfloor : s.floor ≤ floor) {dirs : List Family}
    {arts : Family → List (ℕ × Bytes)} {vote : VoteFile V} {committed : Bytes}
    (hc : committed <+: s.finish.log)
    (hheld : Held rows ({ s with floor, dirs, arts, vote, committed } : Instance V)) (hvote : vote.Sound) :
    Sound rows ({ s with floor, dirs, arts, vote, committed } : Instance V) := by
  refine ⟨?_, ?_, hheld, hvote⟩
  · rw [finish_update]
    refine h.files.update ?_ dirs arts vote committed
    rw [(finish_frame s).2.1]
    exact hfloor
  · rw [finish_update]
    exact hc

theorem Sound.journal (h : Sound rows s) (hs : s.pending = []) {s' : Instance V} (hs' : s'.pending = [])
    (hfiles : Files s') (hlog : s.log <+: s'.log) (hc : s'.committed = s.committed)
    (hheld : Held rows s') (hv : s'.vote = s.vote) : Sound rows s' := by
  refine ⟨?_, ?_, hheld, hv ▸ h.vote⟩
  · rw [finish_of_idle hs']
    exact hfiles
  · rw [finish_of_idle hs', hc]
    have hpre := h.committed
    rw [finish_of_idle hs] at hpre
    exact hpre.trans hlog

theorem VoteFile.Sound.startStore {v : VoteFile V} (h : v.Sound) (x : V) : (v.startStore x).Sound := by
  obtain ⟨y, hy⟩ := h.last
  refine ⟨⟨y, ?_⟩, ?_, h.length⟩
  · show Function.update v.slot v.nextSlot none (!v.nextSlot) = _
    rw [Function.update_of_ne (by simp), hy]
    rfl
  · intro b g z hb
    dsimp only [VoteFile.startStore] at hb
    by_cases hbn : b = v.nextSlot
    · rw [hbn, Function.update_self] at hb
      cases hb
    · rw [Function.update_of_ne hbn] at hb
      exact h.stored b g z hb

theorem VoteFile.Sound.endStore {v : VoteFile V} (h : v.Sound) : v.endStore.Sound := by
  unfold VoteFile.endStore
  cases hw : v.writing with
  | none => exact h
  | some x =>
    refine ⟨⟨some x, by simp⟩, ?_, by simp [h.length]⟩
    intro b g z hb
    dsimp only at hb ⊢
    by_cases hbn : b = v.nextSlot
    · rw [hbn, Function.update_self, Option.some.injEq, Prod.mk.injEq] at hb
      rw [← hb.1, ← hb.2, ← h.length, List.getElem?_concat_length]
    · rw [Function.update_of_ne hbn] at hb
      have hg := h.stored b g z hb
      rw [List.getElem?_append_left (List.getElem?_eq_some_iff.mp hg).1]
      exact hg

theorem Held.publish (h : Held rows s) {f : Family} {pos : ℕ} (hpos : pos ≤ s.committed.length) :
    Held rows (s.publish f pos) := by
  have hmem : ∀ g x, x ∈ s.arts g → x ∈ (s.publish f pos).arts g := by
    intro g x hx
    by_cases hg : g = f
    · subst hg
      simp [Instance.publish, hx]
    · simpa [Instance.publish, hg] using hx
  refine ⟨?_, h.floor, ?_, ?_⟩
  · intro g x hx
    by_cases hg : g = f
    · subst hg
      simp only [Instance.publish, Function.update_self, List.mem_append, List.mem_singleton] at hx
      rcases hx with hx | rfl
      · exact h.arts g x hx
      · exact ⟨hpos, rfl⟩
    · simp only [Instance.publish, Function.update_of_ne hg] at hx
      exact h.arts g x hx
  · intro h0 g hg
    obtain ⟨x, hx, hfloor⟩ := List.mem_map.mp (h.complete h0 g hg)
    exact List.mem_map.mpr ⟨x, hmem g x hx, hfloor⟩
  · intro g hne
    show g ∈ if f ∈ s.dirs then s.dirs else s.dirs ++ [f]
    by_cases hg : g = f
    · subst hg
      split
      · assumption
      · simp
    · simp only [Instance.publish, Function.update_of_ne hg] at hne
      split
      · exact h.dirs g hne
      · exact mem_append_left _ (h.dirs g hne)

theorem mem_retain {f g : Family} {pos : ℕ} {x : ℕ × Bytes} :
    x ∈ (s.retain f pos).arts g ↔ x ∈ s.arts g ∧ (g = f → x.1 ≠ pos) := by
  by_cases hg : g = f
  · subst hg
    simp [Instance.retain]
  · simp [Instance.retain, hg]

theorem Held.retain (h : Held rows s) {f : Family} {pos : ℕ} (hpos : pos < s.floor) :
    Held rows (s.retain f pos) := by
  refine ⟨?_, h.floor, ?_, ?_⟩
  · intro g x hx
    exact h.arts g x (mem_retain.mp hx).1
  · intro h0 g hg
    obtain ⟨x, hx, hfloor⟩ := List.mem_map.mp (h.complete h0 g hg)
    refine List.mem_map.mpr ⟨x, mem_retain.mpr ⟨hx, ?_⟩, hfloor⟩
    rintro -
    omega
  · intro g hne
    obtain ⟨x, hx⟩ := List.exists_mem_of_ne_nil _ hne
    exact h.dirs g (List.ne_nil_of_mem (mem_retain.mp hx).1)

theorem take_of_prefix {c c' : Bytes} (h : c <+: c') {x : ℕ × Bytes}
    (hx : x.1 ≤ c.length ∧ x.2 = c.take x.1) : x.1 ≤ c'.length ∧ x.2 = c'.take x.1 := by
  obtain ⟨t, rfl⟩ := h
  refine ⟨hx.1.trans (by simp), ?_⟩
  rw [hx.2, List.take_append_of_le_length hx.1]

theorem startCut_frame (s : Instance V) (pos : ℕ) (roll : Bool) :
    (s.startCut pos roll).committed = s.committed ∧ (s.startCut pos roll).floor = s.floor ∧
      (s.startCut pos roll).arts = s.arts ∧ (s.startCut pos roll).dirs = s.dirs ∧
      (s.startCut pos roll).vote = s.vote := by
  unfold Instance.startCut
  split
  · exact ⟨rfl, rfl, rfl, rfl, rfl⟩
  · split <;> exact ⟨rfl, rfl, rfl, rfl, rfl⟩

theorem Held.congr (h : Held rows s) {s' : Instance V} (hc : s'.committed = s.committed)
    (hf : s'.floor = s.floor) (ha : s'.arts = s.arts) (hd : s'.dirs = s.dirs) : Held rows s' := by
  refine ⟨?_, ?_, ?_, ?_⟩
  · rw [ha, hc]
    exact h.arts
  · rw [hf, hc]
    exact h.floor
  · rw [hf, ha]
    exact h.complete
  · rw [ha, hd]
    exact h.dirs

theorem cutOp_frame (s : Instance V) : s.cutOp.committed = s.committed ∧ s.cutOp.floor = s.floor ∧
    s.cutOp.arts = s.arts ∧ s.cutOp.dirs = s.dirs ∧ s.cutOp.vote = s.vote := by
  unfold cutOp
  split
  · exact ⟨rfl, rfl, rfl, rfl, rfl⟩
  · rename_i op ops _
    cases op <;> exact ⟨rfl, rfl, rfl, rfl, rfl⟩

theorem Sound.step {w : World V} (h : Sound rows w.src) {st : BackupStep V}
    (hp : w.Possible rows st) :
    Sound rows (w.exec st).src ∧ w.src.committed <+: (w.exec st).src.committed := by
  have hidle : w.src.pending = [] → Files w.src := fun hpend => finish_of_idle hpend ▸ h.files
  cases st with
  | roll =>
    obtain ⟨hpend, hlast⟩ := hp
    refine ⟨h.journal hpend hpend ((hidle hpend).roll hlast) ?_ rfl ?_ rfl, prefix_rfl⟩
    · have hlog : (w.src.apply (.create w.src.nextBlockSeq)).log = w.src.log := by
        simp [log, records, Instance.apply]
      exact hlog ▸ prefix_rfl
    · exact h.held.congr rfl rfl rfl rfl
  | record bytes =>
    obtain ⟨hpend, hne, hb⟩ := hp
    refine ⟨h.journal hpend hpend ((hidle hpend).record hne hb) ?_ rfl ?_ rfl, prefix_rfl⟩
    · exact (Files.log_write w.src hne).symm ▸ List.prefix_append _ _
    · exact h.held.congr rfl rfl rfl rfl
  | startCut pos roll =>
    obtain ⟨hpend, hc, hlt, hlo⟩ := hp
    obtain ⟨hfiles, hlog⟩ := @Files.cut V w.src roll (hidle hpend) pos hlo hlt
    obtain ⟨h1, h2, h3, h4, h5⟩ := startCut_frame w.src pos roll
    have hpre : (w.src.startCut pos roll).committed = w.src.committed := h1
    refine ⟨⟨hfiles, ?_, h.held.congr h1 h2 h3 h4, ?_⟩, ?_⟩
    · show (w.src.startCut pos roll).committed <+: _
      rw [hpre]
      show _ <+: (w.src.startCut pos roll).finish.log
      rw [hlog, List.prefix_take_iff]
      have hsc := h.committed
      rw [finish_of_idle hpend] at hsc
      exact ⟨hsc, hc⟩
    · show (w.src.startCut pos roll).vote.Sound
      rw [h5]
      exact h.vote
    · show _ <+: (w.src.startCut pos roll).committed
      rw [hpre]
  | cutOp =>
    obtain ⟨h1, h2, h3, h4, h5⟩ := cutOp_frame w.src
    refine ⟨⟨?_, ?_, h.held.congr h1 h2 h3 h4, ?_⟩, ?_⟩
    · show Files w.src.cutOp.finish
      rw [finish_cutOp]
      exact h.files
    · show w.src.cutOp.committed <+: w.src.cutOp.finish.log
      rw [finish_cutOp, h1]
      exact h.committed
    · show w.src.cutOp.vote.Sound
      rw [h5]
      exact h.vote
    · show _ <+: w.src.cutOp.committed
      rw [h1]
  | purge below =>
    obtain ⟨hpend, hle, hpurge⟩ := hp
    refine ⟨h.journal hpend hpend ((hidle hpend).purge hle hpurge) ?_ rfl ?_ rfl, prefix_rfl⟩
    · have hall : w.src.purged ++ w.src.segs.take 1 ++ w.src.segs.tail = w.src.purged ++ w.src.segs := by
        rw [List.append_assoc, ← List.drop_one, List.take_append_drop]
      have hlog : w.src.log = w.src.below ++ bytesOf
          ((w.src.purged ++ w.src.segs.take 1 ++ w.src.segs.tail).flatMap SegFile.recs) := by
        rw [hall]
        rfl
      rw [hlog]
      exact prefix_rfl
    · exact h.held.congr rfl rfl rfl rfl
  | commit pos =>
    obtain ⟨hlo, hhi⟩ := hp
    have hgrow : w.src.committed <+: w.src.finish.log.take pos :=
      List.prefix_take_iff.mpr ⟨h.committed, hlo⟩
    refine ⟨h.update le_rfl (List.take_prefix _ _) ?_ h.vote, hgrow⟩
    refine ⟨?_, h.held.floor.trans hgrow.length_le, h.held.complete, h.held.dirs⟩
    exact fun f x hx => take_of_prefix hgrow (h.held.arts f x hx)
  | publish f pos =>
    exact ⟨h.update le_rfl h.committed (h.held.publish hp) h.vote, prefix_rfl⟩
  | moveFloor pos =>
    obtain ⟨hle, hall⟩ := hp
    refine ⟨h.update hle h.committed ⟨h.held.arts, ?_, fun _ => hall, h.held.dirs⟩ h.vote,
      prefix_rfl⟩
    obtain ⟨x, hx, hpos⟩ := List.mem_map.mp (hall .cluster (by simp [families]))
    exact hpos ▸ (h.held.arts .cluster x hx).1
  | retain f pos =>
    exact ⟨h.update le_rfl h.committed (h.held.retain hp) h.vote, prefix_rfl⟩
  | startVote v =>
    exact ⟨h.update le_rfl h.committed ⟨h.held.arts, h.held.floor, h.held.complete, h.held.dirs⟩
      (h.vote.startStore v), prefix_rfl⟩
  | endVote =>
    exact ⟨h.update le_rfl h.committed ⟨h.held.arts, h.held.floor, h.held.complete, h.held.dirs⟩
      h.vote.endStore, prefix_rfl⟩
  | copy torn => exact ⟨h, prefix_rfl⟩

end HotBackup

end UltimaCluster
