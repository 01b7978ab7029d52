/-
  What a tail scan visits.

  * A listed segment that a purge has unlinked is passed over, also when records of
    the segments before it were visited (`visited_over_hole`).
  * If that does not happen, no head is probed while it is written, the listing has
    no hole and no record looks like a sentinel, then the committed records that are
    visited are consecutive and as the journal holds them, and the first one is not
    above the record that covers the start (`visited_without_holes`).
-/
import UltimaCluster.TailReader

namespace UltimaCluster

open List (append_nil find?_some mem_append_left mem_cons_of_mem mem_map mem_of_head? mem_range'_1
  ne_nil_of_mem range' take)

variable {crc : Bytes → UInt32}

/-! ## Reads -/

theorem scanBytesTolerant_eq {rs : List JournalRecord} (hrs : ∀ r ∈ rs, r.Fits) (base now : ℕ) {tail : Bytes}
    (htail : ∀ off r k, decodeRecord crc tail off ≠ .ok (some (r, k))) :
    ∃ scan, scanBytesTolerant crc (encodeHeader crc base now ++ encodeAll crc rs ++ tail) = .ok scan ∧
      scan.records = rs := by
  have hdrop : (encodeHeader crc base now ++ encodeAll crc rs ++ tail).drop segmentHeaderSize =
      encodeAll crc rs ++ tail := by
    rw [List.append_assoc, List.drop_left' (length_encodeHeader crc base now)]
  have hfuel : ∃ fuel, (encodeAll crc rs ++ tail).length + 1 = rs.length + (fuel + 1) := by
    have hle := length_le_span rs
    rw [List.length_append, length_encodeAll]
    exact ⟨span rs + tail.length - rs.length, by omega⟩
  obtain ⟨fuel, hfuel⟩ := hfuel
  rw [scanBytesTolerant]
  rw [hdrop, hfuel, scanStart, scanLoop_encodeAll crc hrs, scanLoop]
  cases hdecode : decodeRecord crc tail (segmentHeaderSize + span rs) with
  | error e => exact ⟨_, rfl, List.nil_append _⟩
  | ok res =>
    cases res with
    | none => exact ⟨_, rfl, List.nil_append _⟩
    | some res => exact absurd hdecode (htail _ res.1 res.2)

theorem openForRead_bytes {bytes : Bytes} {seg : SegmentFile}
    (h : SegmentFile.openForRead crc bytes = .ok seg) :
    seg.bytes = bytes ∧ segmentHeaderSize ≤ bytes.length := by
  unfold SegmentFile.openForRead at h
  split at h
  · cases h
  rename_i hlen
  cases hdecode : decodeHeader crc (bytes.take segmentHeaderSize) with
  | error e =>
    rw [hdecode] at h
    cases h
  | ok res =>
    rw [hdecode] at h
    dsimp only [bind, Except.bind] at h
    split at h
    · cases h
    · obtain rfl := Except.ok.inj h
      exact ⟨rfl, Nat.not_lt.mp hlen⟩

theorem readRecords_eq {base : ℕ} {file : List JournalRecord × List JournalRecord} {bytes : Bytes}
    {rs : List JournalRecord} (hseen : TailScan.Readable crc base file bytes)
    (hfits : ∀ r ∈ file.1 ++ file.2, r.Fits) (hplain : ∀ r ∈ file.1 ++ file.2, isSentinel r = false)
    (h : readRecords crc bytes = .ok rs) : ∃ n, rs = file.1 ++ file.2.take n := by
  unfold readRecords at h
  cases hopen : SegmentFile.openForRead crc bytes with
  | error e =>
    rw [hopen] at h
    cases h
  | ok seg =>
    obtain ⟨hbytes, hlen⟩ := openForRead_bytes hopen
    obtain ⟨-, hshort⟩ | ⟨now, n, tail, rfl, htail⟩ := hseen
    · omega
    have hsub : ∀ r ∈ file.1 ++ file.2.take n, r ∈ file.1 ++ file.2 := by
      intro r hr
      obtain hr | hr := List.mem_append.mp hr
      · exact mem_append_left _ hr
      · exact List.mem_append_right _ (List.mem_of_mem_take hr)
    obtain ⟨scan, hscan, hrecords⟩ := scanBytesTolerant_eq (fun r hr => hfits r (hsub r hr)) base now htail
    rw [hopen] at h
    dsimp only [bind, Except.bind] at h
    rw [hbytes, hscan] at h
    obtain rfl := Except.ok.inj h
    refine ⟨n, ?_⟩
    rw [hrecords]
    refine List.filter_eq_self.mpr fun r hr => ?_
    rw [hplain r (hsub r hr)]
    rfl

/-! ## The directory -/

namespace TailDir

/-- The segments are in order, and the records are at their sequences; what a truncation
    leaves behind lies above what it keeps. -/
structure Ok (commit : ℕ) (d : TailDir) : Prop where
  sorted : d.bases.Pairwise (· < ·)
  le_end : ∀ b ∈ d.bases, b ≤ d.end_
  held : ∀ s < d.end_ + d.flying, (d.held s).seq = s ∧ (d.held s).Fits
  empty : d.bases = [] → d.flying = 0
  settled : d.stale ≠ [] → d.flying = 0
  stale : ∀ f ∈ d.stale, commit ≤ f.1 ∧ d.end_ ≤ f.1 ∧ ∀ r ∈ f.2, f.1 ≤ r.seq ∧ r.Fits

variable {d : TailDir} {commit : ℕ} {step : Step} {a b s : ℕ}

theorem mem_range {start stop : ℕ} {r : JournalRecord} :
    r ∈ d.range start stop ↔ ∃ s, start ≤ s ∧ s < stop ∧ d.held s = r := by
  rw [range, mem_map]
  constructor
  · rintro ⟨s, hs, rfl⟩
    rw [mem_range'_1] at hs
    exact ⟨s, by omega, by omega, rfl⟩
  · rintro ⟨s, hge, hlt, rfl⟩
    exact ⟨s, List.mem_range'_1.mpr (by omega), rfl⟩

theorem Ok.fileEnd (h : d.Ok commit) (hb : b ∈ d.bases) :
    (d.bases.getLast? = some b ∧ d.fileEnd b = d.end_ ∧ ∀ z ∈ d.bases, z ≤ b) ∨
      (d.bases.getLast? ≠ some b ∧ b < d.fileEnd b ∧ d.fileEnd b ∈ d.bases ∧
        ∀ z ∈ d.bases, b < z → d.fileEnd b ≤ z) := by
  rw [TailDir.fileEnd]
  cases hfind : d.bases.find? (b < ·) with
  | none =>
    left
    rw [List.find?_eq_none] at hfind
    have hle : ∀ z ∈ d.bases, z ≤ b := fun z hz => by simpa using hfind z hz
    refine ⟨?_, rfl, hle⟩
    obtain ⟨l, last, hl⟩ := (List.eq_nil_or_concat d.bases).resolve_left (ne_nil_of_mem hb)
    rw [List.concat_eq_append] at hl
    have hsorted := h.sorted
    rw [hl] at hb hle hsorted ⊢
    rw [List.getLast?_concat]
    rcases List.mem_snoc.mp hb with hb | rfl
    · have hlt := (List.pairwise_append.mp hsorted).2.2 b hb last (List.mem_singleton_self _)
      have := hle last (by simp)
      omega
    · rfl
  | some e =>
    right
    obtain ⟨hlt, l₁, l₂, hl, hbefore⟩ := List.find?_eq_some_iff_append.mp hfind
    have hlt : b < e := of_decide_eq_true hlt
    have hsorted := h.sorted
    rw [hl] at hsorted
    have hafter := (List.pairwise_cons.mp (List.pairwise_append.mp hsorted).2.1).1
    refine ⟨?_, hlt, by rw [hl]; simp, ?_⟩
    · intro hlast
      have hmax : ∀ z ∈ d.bases, z ≤ b := by
        intro z hz
        obtain ⟨l, hl'⟩ := List.getLast?_eq_some_iff.mp hlast
        have hs := h.sorted
        rw [hl'] at hs hz
        obtain hz | hz := List.mem_append.mp hz
        · exact Nat.le_of_lt ((List.pairwise_append.mp hs).2.2 z hz b (List.mem_singleton_self _))
        · exact Nat.le_of_eq (List.mem_singleton.mp hz)
      have := hmax e (by rw [hl]; simp)
      omega
    · intro z hz hbz
      rw [hl] at hz
      obtain hz | hz := List.mem_append.mp hz
      · have := hbefore z hz
        simp at this
        omega
      · obtain rfl | hz := List.mem_cons.mp hz
        · exact le_rfl
        · exact Nat.le_of_lt (hafter z hz)

theorem range_take (start stop n : ℕ) :
    (d.range start stop).take n = d.range start (min stop (start + n)) := by
  rw [range, range, ← List.map_take]
  obtain hle | hle := Nat.le_total (stop - start) n
  · rw [List.take_range'_of_length_le hle]
    congr 2
    omega
  · rw [List.take_range'_of_length_ge hle]
    congr 2
    omega

theorem range_append {start mid stop : ℕ} (hmid : start ≤ mid) (hstop : mid ≤ stop) :
    d.range start mid ++ d.range mid stop = d.range start stop := by
  have h := List.range'_append_1 (s := start) (m := mid - start) (n := stop - mid)
  rw [range, range, range, ← List.map_append]
  rw [Nat.add_sub_cancel' hmid] at h
  rw [h]
  congr 2
  omega

theorem Ok.fileEnd_le (h : d.Ok commit) (hb : b ∈ d.bases) : b ≤ d.fileEnd b ∧ d.fileEnd b ≤ d.end_ := by
  obtain ⟨-, heq, -⟩ | ⟨-, hlt, hmem, -⟩ := h.fileEnd hb
  · rw [heq]
    exact ⟨h.le_end b hb, le_rfl⟩
  · exact ⟨Nat.le_of_lt hlt, h.le_end _ hmem⟩

/-- What can be read of a segment of the journal is a range of its records. -/
theorem Ok.file (h : d.Ok commit) (hb : b ∈ d.bases) :
    ∃ e z, d.file b = some (d.range b (d.fileEnd b), d.range e z) ∧ z ≤ d.end_ + d.flying ∧
      (e < z → e = d.fileEnd b ∧ d.bases.getLast? = some b) := by
  obtain ⟨hlast, heq, -⟩ | ⟨hlast, -⟩ := h.fileEnd hb
  · refine ⟨d.end_, d.end_ + d.flying, ?_, le_rfl, fun _ => ⟨heq.symm, hlast⟩⟩
    rw [TailDir.file, if_pos hb, if_pos hlast]
  · refine ⟨0, 0, ?_, Nat.zero_le _, fun hlt => absurd hlt (Nat.lt_irrefl _)⟩
    rw [TailDir.file, if_pos hb, if_neg hlast]
    rfl

theorem held_write {rs : List JournalRecord} (hseq : rs.map (·.seq) = range' d.end_ rs.length) (s : ℕ) :
    (s < d.end_ ∧ (d.exec (.write rs)).held s = d.held s) ∨
      (d.end_ ≤ s ∧ s < d.end_ + rs.length ∧ (d.exec (.write rs)).held s ∈ rs ∧
        ((d.exec (.write rs)).held s).seq = s) ∨
      (d.end_ + rs.length ≤ s ∧ (d.exec (.write rs)).held s = d.held s) := by
  have hmem : ∀ s, (∃ r ∈ rs, r.seq = s) ↔ d.end_ ≤ s ∧ s < d.end_ + rs.length := by
    intro s
    rw [← mem_range'_1, ← hseq, mem_map]
  show _ ∨ (_ ∧ _ ∧ (rs.find? (·.seq = s)).getD (d.held s) ∈ rs ∧ _) ∨ _
  cases hfind : rs.find? (·.seq = s) with
  | none =>
    have hout : ¬ (d.end_ ≤ s ∧ s < d.end_ + rs.length) := by
      rw [← hmem]
      rintro ⟨r, hr, hrs⟩
      have := List.find?_eq_none.mp hfind r hr
      simp [hrs] at this
    have heq : (d.exec (.write rs)).held s = d.held s := by
      show (rs.find? (·.seq = s)).getD (d.held s) = _
      rw [hfind]
      rfl
    obtain hlt | hge := Nat.lt_or_ge s d.end_
    · exact .inl ⟨hlt, heq⟩
    · exact .inr (.inr ⟨by omega, heq⟩)
  | some r =>
    have heq : (d.exec (.write rs)).held s = r := by
      show (rs.find? (·.seq = s)).getD (d.held s) = _
      rw [hfind]
      rfl
    have hr := List.mem_of_find?_eq_some hfind
    have hrs : r.seq = s := by simpa using find?_some hfind
    obtain ⟨hge, hlt⟩ := (hmem s).mp ⟨r, hr, hrs⟩
    exact .inr (.inl ⟨hge, hlt, hr, by rw [heq, hrs]⟩)

theorem Ok.exec (h : d.Ok commit) (hstep : d.Allowed commit step) : (d.exec step).Ok commit := by
  cases step with
  | write rs =>
    obtain ⟨hfly, hstale, hbases, hseq, hfits⟩ := hstep
    refine ⟨h.sorted, h.le_end, fun s hs => ?_, fun hnil => absurd hnil hbases, fun hne => absurd hstale hne,
      h.stale⟩
    obtain ⟨hlt, heq⟩ | ⟨-, -, hmem, heq⟩ | ⟨hge, -⟩ := held_write hseq s
    · rw [heq]
      exact h.held s (Nat.lt_of_lt_of_le hlt (Nat.le_add_right _ _))
    · exact ⟨heq, hfits _ hmem⟩
    · exact absurd hs (Nat.not_lt.mpr hge)
  | written =>
    refine ⟨h.sorted, fun b hb => Nat.le_trans (h.le_end b hb) (Nat.le_add_right _ _), h.held, fun _ => rfl,
      fun _ => rfl, fun f hf => ?_⟩
    have hfly := h.settled (ne_nil_of_mem hf)
    obtain ⟨hcommit, hle, hrs⟩ := h.stale f hf
    refine ⟨hcommit, ?_, hrs⟩
    show d.end_ + d.flying ≤ f.1
    omega
  | roll =>
    obtain ⟨hfly, hstale, hlt⟩ := hstep
    refine ⟨?_, ?_, h.held, fun _ => hfly, h.settled, h.stale⟩
    · refine List.pairwise_append.mpr ⟨h.sorted, List.pairwise_singleton _ _, fun b hb z hz => ?_⟩
      rw [List.mem_singleton.mp hz]
      exact hlt b hb
    · intro b hb
      obtain hb | hb := List.mem_append.mp hb
      · exact h.le_end b hb
      · exact Nat.le_of_eq (List.mem_singleton.mp hb)
  | unlink =>
    refine ⟨h.sorted.tail, fun b hb => h.le_end b (List.mem_of_mem_tail hb), h.held, fun hnil => ?_, h.settled,
      h.stale⟩
    have hlen : d.bases.tail.length = 0 := congrArg List.length hnil
    rw [List.length_tail] at hlen
    have : 2 ≤ d.bases.length := hstep
    omega
  | cut keep =>
    obtain ⟨hfly, hstale, hcommit, hkeep⟩ := hstep
    refine ⟨h.sorted.filter _, fun b hb => ?_, fun s hs => ?_, fun _ => hfly, fun _ => hfly, fun f hf => ?_⟩
    · exact Nat.le_of_lt (of_decide_eq_true (List.mem_filter.mp hb).2)
    · have hs : s < keep + d.flying := hs
      exact h.held s (by omega)
    · obtain ⟨b, hb, rfl⟩ := List.mem_map.mp hf
      obtain ⟨hb, hle⟩ := List.mem_filter.mp hb
      have hle : keep ≤ b := of_decide_eq_true hle
      refine ⟨Nat.le_trans hcommit hle, hle, fun r hr => ?_⟩
      obtain ⟨s, hge, hlt, rfl⟩ := mem_range.mp hr
      have hend := (h.fileEnd_le hb).2
      obtain ⟨hseq, hfits⟩ := h.held s (by omega)
      exact ⟨by rw [hseq]; exact hge, hfits⟩
  | drop base =>
    refine ⟨h.sorted, h.le_end, h.held, h.empty, fun hne => h.settled fun hnil => hne ?_, fun f hf =>
      h.stale f (List.mem_filter.mp hf).1⟩
    show d.stale.filter _ = []
    rw [hnil]
    rfl

/-! ## Names -/

/-- What is known of listed names below the commit frontier: the segments are there, or
    were purged. -/
def Known (commit : ℕ) (d : TailDir) (l : List ℕ) : Prop :=
  ∀ b ∈ l, b < commit → b ∈ d.bases ∨ (b < d.end_ ∧ ∀ z ∈ d.bases, b < z)

/-- The listed names, in order and with no segment left out between them. -/
structure Names (commit : ℕ) (d : TailDir) (l : List ℕ) : Prop where
  sorted : l.Pairwise (· < ·)
  known : Known commit d l
  convex : ∀ b ∈ d.bases, ∀ a ∈ l, ∀ z ∈ l, a < b → b < z → z < commit → b ∈ l

variable {l : List ℕ}

theorem Known.exec (hd : d.Ok commit) (h : Known commit d l) (hstep : d.Allowed commit step) :
    Known commit (d.exec step) l := by
  intro b hb hlt
  have hb := h b hb hlt
  cases step with
  | write rs => exact hb
  | written =>
    exact hb.imp_right fun ⟨hend, hall⟩ => ⟨Nat.lt_of_lt_of_le hend (Nat.le_add_right _ _), hall⟩
  | roll =>
    obtain hb | ⟨hend, hall⟩ := hb
    · exact .inl (mem_append_left _ hb)
    · refine .inr ⟨hend, fun z hz => ?_⟩
      rcases List.mem_snoc.mp hz with hz | rfl
      · exact hall z hz
      · exact hend
  | unlink =>
    have hlen : 2 ≤ d.bases.length := hstep
    have hsorted := hd.sorted
    have hend := hd.le_end
    show b ∈ d.bases.tail ∨ (b < d.end_ ∧ ∀ z ∈ d.bases.tail, b < z)
    cases hbases : d.bases with
    | nil =>
      rw [hbases] at hlen
      simp at hlen
    | cons first bases =>
      rw [hbases] at hb hsorted hlen hend
      obtain hb | ⟨hend', hall⟩ := hb
      · obtain rfl | hb := List.mem_cons.mp hb
        · -- it is the one that is purged
          have hfirst := (List.pairwise_cons.mp hsorted).1
          refine .inr ⟨?_, hfirst⟩
          obtain ⟨z, hz⟩ := List.exists_mem_of_ne_nil bases (by
            rintro rfl
            simp at hlen)
          exact Nat.lt_of_lt_of_le (hfirst z hz) (hend z (mem_cons_of_mem _ hz))
        · exact .inl hb
      · exact .inr ⟨hend', fun z hz => hall z (mem_cons_of_mem _ hz)⟩
  | cut keep =>
    obtain ⟨-, -, hcommit, -⟩ := hstep
    have hkeep : b < keep := Nat.lt_of_lt_of_le hlt hcommit
    obtain hb | ⟨-, hall⟩ := hb
    · exact .inl (List.mem_filter.mpr ⟨hb, decide_eq_true hkeep⟩)
    · exact .inr ⟨hkeep, fun z hz => hall z (List.mem_filter.mp hz).1⟩
  | drop base => exact hb

theorem Names.exec (hd : d.Ok commit) (h : Names commit d l) (hstep : d.Allowed commit step) :
    Names commit (d.exec step) l := by
  refine ⟨h.sorted, h.known.exec hd hstep, fun b hb a ha z hz hab hbz hzc => ?_⟩
  have hold : b ∈ d.bases → b ∈ l := fun hb => h.convex b hb a ha z hz hab hbz hzc
  cases step with
  | write rs => exact hold hb
  | written => exact hold hb
  | roll =>
    obtain hb | hb := List.mem_append.mp hb
    · exact hold hb
    · -- the new segment lies above what was listed
      have hb := List.mem_singleton.mp hb
      obtain hz | ⟨hend, -⟩ := h.known z hz hzc
      · have := hd.le_end z hz
        omega
      · omega
  | unlink => exact hold (List.mem_of_mem_tail hb)
  | cut keep => exact hold (List.mem_filter.mp hb).1
  | drop base => exact hold hb

theorem Names.tail {path : ℕ} (h : Names commit d (path :: l)) : Names commit d l where
  sorted := (List.pairwise_cons.mp h.sorted).2
  known b hb := h.known b (mem_cons_of_mem _ hb)
  convex b hb a ha z hz hab hbz hzc := by
    have hmem := h.convex b hb a (mem_cons_of_mem _ ha) z (mem_cons_of_mem _ hz) hab hbz hzc
    obtain rfl | hmem := List.mem_cons.mp hmem
    · have := (List.pairwise_cons.mp h.sorted).1 a ha
      omega
    · exact hmem

theorem Names.next {path b : ℕ} (hd : d.Ok commit) (h : Names commit d (path :: l)) (hpath : path ∈ d.bases)
    (hb : b ∈ l.head?) (hlt : b < commit) : b = d.fileEnd path ∧ d.bases.getLast? ≠ some path := by
  have hbl : b ∈ l := mem_of_head? hb
  have hpb := (List.pairwise_cons.mp h.sorted).1 b hbl
  have hbase : b ∈ d.bases := by
    obtain hbase | ⟨-, hall⟩ := h.known b (mem_cons_of_mem _ hbl) hlt
    · exact hbase
    · have := hall path hpath
      omega
  obtain ⟨-, -, hmax⟩ | ⟨hlast, hpe, hmem, hmin⟩ := hd.fileEnd hpath
  · have := hmax b hbase
    omega
  · refine ⟨?_, hlast⟩
    have hle := hmin b hbase hpb
    obtain heq | hlt' := Nat.eq_or_lt_of_le hle
    · exact heq.symm
    · have hin := h.convex _ hmem path List.mem_cons_self b (mem_cons_of_mem _ hbl) hpe hlt' hlt
      obtain heq | hin := List.mem_cons.mp hin
      · omega
      · -- the head is the least of the rest
        cases l with
        | nil => cases hbl
        | cons b' l =>
          obtain rfl : b' = b := Option.some.inj hb
          obtain heq | hin := List.mem_cons.mp hin
          · exact heq.symm
          · have := (List.pairwise_cons.mp (List.pairwise_cons.mp h.sorted).2).1 _ hin
            omega

end TailDir

/-! ## What is visited -/

namespace TailScan

variable {w : TailScan} {commit : ℕ} {step : TailStep}

/-- The sequences below the commit frontier that were visited. -/
def committed (commit : ℕ) (visited : List JournalRecord) : List ℕ :=
  (visited.map (·.seq)).filter (· < commit)

theorem committed_append (rs rs' : List JournalRecord) :
    committed commit (rs ++ rs') = committed commit rs ++ committed commit rs' := by
  simp [committed]

theorem committed_range {d : TailDir} (hd : d.Ok commit) {start stop : ℕ} (hstop : stop ≤ d.end_ + d.flying) :
    committed commit (d.range start stop) = range' start (min stop commit - start) := by
  have hseq : (d.range start stop).map (·.seq) = range' start (stop - start) := by
    rw [TailDir.range, List.map_map]
    refine List.map_congr_left (fun s hs => ?_) |>.trans (List.map_id _)
    rw [mem_range'_1] at hs
    exact (hd.held s (by omega)).1
  rw [committed, hseq]
  obtain hle | hle := Nat.le_total start (min stop commit)
  · have hsplit : range' start (stop - start) =
        range' start (min stop commit - start) ++ range' (min stop commit) (stop - min stop commit) := by
      have h := List.range'_append_1 (s := start) (m := min stop commit - start) (n := stop - min stop commit)
      rw [Nat.add_sub_cancel' hle] at h
      rw [h]
      congr 1
      omega
    rw [hsplit, List.filter_append, List.filter_eq_self.mpr, List.filter_eq_nil_iff.mpr, append_nil]
    · intro s hs
      rw [mem_range'_1] at hs
      simp
      omega
    · intro s hs
      rw [mem_range'_1] at hs
      simp
      omega
  · rw [Nat.sub_eq_zero_of_le hle, List.range'_zero, List.filter_eq_nil_iff]
    intro s hs
    rw [mem_range'_1] at hs
    simp
    omega

/-- Where a scan has come to. -/
def Reached (commit : ℕ) (w : TailScan) : TailPhase → Prop
  | .idle => w.visited = []
  | .listing ever _ => w.visited = [] ∧ TailDir.Known commit w.dir ever
  | .probing l => w.visited = [] ∧ TailDir.Names commit w.dir l
  | .scanning l => TailDir.Names commit w.dir l ∧ (w.visited ≠ [] → ∀ b ∈ l.head?, b < commit →
      ∃ lo ≤ b, committed commit w.visited = List.range' lo (b - lo))
  | .ended _ => True

/-- The invariant of a run. -/
structure Inv (commit : ℕ) (w : TailScan) : Prop where
  dir : w.dir.Ok commit
  held : ∀ r ∈ w.visited, r.seq < commit → r.seq < w.dir.end_ + w.dir.flying ∧ w.dir.held r.seq = r
  consecutive : ∃ lo n, committed commit w.visited = List.range' lo n
  reached : Reached commit w w.phase

theorem known_names {d : TailDir} (hd : d.Ok commit) : TailDir.Known commit d d.names := by
  intro b hb hlt
  obtain hb | hb := List.mem_append.mp hb
  · exact .inl hb
  · obtain ⟨f, hf, rfl⟩ := List.mem_map.mp hb
    have := (hd.stale f hf).1
    omega

theorem Inv.owner (h : Inv commit w) {o : TailDir.Step} (ho : w.dir.Allowed commit o) :
    Inv commit (w.exec crc (.owner o)) := by
  have hd := h.dir.exec ho
  refine ⟨hd, fun r hr hlt => ?_, h.consecutive, ?_⟩
  · obtain ⟨hend, heq⟩ := h.held r hr hlt
    cases o with
    | write rs =>
      obtain ⟨hfly, -, -, hseq, -⟩ := ho
      rw [hfly, Nat.add_zero] at hend
      obtain ⟨-, hsame⟩ | ⟨hge, -⟩ | ⟨hge, -⟩ := TailDir.held_write hseq r.seq
      · refine ⟨Nat.lt_of_lt_of_le hend (Nat.le_add_right _ _), ?_⟩
        exact hsame.trans heq
      · omega
      · omega
    | cut keep =>
      obtain ⟨-, -, hcommit, -⟩ := ho
      exact ⟨Nat.lt_of_lt_of_le hlt (Nat.le_trans hcommit (Nat.le_add_right _ _)), heq⟩
    | written | roll | unlink | drop => exact ⟨hend, heq⟩
  · have hreached := h.reached
    show Reached commit _ (meet (w.dir.exec o).names w.phase)
    cases hphase : w.phase with
    | idle =>
      rw [hphase] at hreached
      exact hreached
    | listing ever kept =>
      rw [hphase] at hreached
      refine ⟨hreached.1, fun b hb => ?_⟩
      obtain hb | hb := List.mem_append.mp hb
      · exact (hreached.2.exec h.dir ho) b hb
      · exact known_names hd b hb
    | probing l =>
      rw [hphase] at hreached
      exact ⟨hreached.1, hreached.2.exec h.dir ho⟩
    | scanning l =>
      rw [hphase] at hreached
      exact ⟨hreached.1.exec h.dir ho, hreached.2⟩
    | ended => trivial

theorem opened_range {d : TailDir} (hd : d.Ok commit) {path : ℕ} (hpath : path ∈ d.bases) {seen : Bytes}
    {file : List JournalRecord × List JournalRecord} (hfile : d.file path = some file)
    (hseen : Readable crc path file seen) (hplain : ∀ r ∈ file.1 ++ file.2, isSentinel r = false)
    {rs : List JournalRecord} (hread : readRecords crc seen = .ok rs) :
    ∃ stop, rs = d.range path stop ∧ d.fileEnd path ≤ stop ∧ stop ≤ d.end_ + d.flying ∧
      (d.bases.getLast? ≠ some path → stop = d.fileEnd path) := by
  obtain ⟨e, z, hf, hz, hfly⟩ := hd.file hpath
  obtain ⟨hge, hle⟩ := hd.fileEnd_le hpath
  rw [hf] at hfile
  obtain rfl := Option.some.inj hfile
  have hfits : ∀ r ∈ d.range path (d.fileEnd path) ++ d.range e z, r.Fits := by
    intro r hr
    obtain hr | hr := List.mem_append.mp hr
    · obtain ⟨s, -, hlt, rfl⟩ := TailDir.mem_range.mp hr
      exact (hd.held s (by omega)).2
    · obtain ⟨s, -, hlt, rfl⟩ := TailDir.mem_range.mp hr
      exact (hd.held s (by omega)).2
  obtain ⟨n, rfl⟩ := readRecords_eq hseen hfits hplain hread
  rw [TailDir.range_take]
  obtain hlt | hnone := Nat.lt_or_ge e (min z (e + n))
  · obtain ⟨rfl, hlast⟩ := hfly (by omega)
    rw [TailDir.range_append hge (Nat.le_of_lt hlt)]
    exact ⟨_, rfl, by omega, by omega, fun hne => absurd hlast hne⟩
  · have hnil : d.range e (min z (e + n)) = [] := by
      rw [TailDir.range, Nat.sub_eq_zero_of_le hnone]
      rfl
    rw [hnil, append_nil]
    exact ⟨_, rfl, le_rfl, by omega, fun _ => rfl⟩

theorem Inv.opened (h : Inv commit w) {path : ℕ} {l : List ℕ} (hphase : w.phase = .scanning (path :: l))
    {seen : Bytes} {file : List JournalRecord × List JournalRecord} (hfile : w.dir.file path = some file)
    (hseen : Readable crc path file seen) (hplain : ∀ r ∈ file.1 ++ file.2, isSentinel r = false)
    {rs : List JournalRecord} (hread : readRecords crc seen = .ok rs) (n : ℕ) :
    (∀ r ∈ rs, r.seq < commit → r.seq < w.dir.end_ + w.dir.flying ∧ w.dir.held r.seq = r) ∧
      (∃ lo m, committed commit (w.visited ++ rs.take n) = range' lo m) ∧
      (∀ b ∈ l.head?, b < commit →
        ∃ lo ≤ b, committed commit (w.visited ++ rs) = range' lo (b - lo)) := by
  have hreached := h.reached
  rw [hphase] at hreached
  obtain ⟨hnames, hjoined⟩ := hreached
  by_cases hbase : path ∈ w.dir.bases
  · obtain ⟨stop, rfl, hge, hend, hlast⟩ := opened_range h.dir hbase hfile hseen hplain hread
    have hge : path ≤ stop := Nat.le_trans (h.dir.fileEnd_le hbase).1 hge
    have hfrom : path < commit → ∃ lo ≤ path, committed commit w.visited = range' lo (path - lo) := by
      intro hlt
      by_cases hnil : w.visited = []
      · refine ⟨path, le_rfl, ?_⟩
        rw [hnil, Nat.sub_self]
        rfl
      · exact hjoined hnil path rfl hlt
    -- up to any end, the visited ones go on from the lower end
    have hon : path < commit → ∃ lo ≤ path, ∀ stop' ≤ w.dir.end_ + w.dir.flying, path ≤ stop' →
        committed commit (w.visited ++ w.dir.range path stop') = range' lo (min stop' commit - lo) := by
      intro hlt
      obtain ⟨lo, hlo, hvisited⟩ := hfrom hlt
      refine ⟨lo, hlo, fun stop' hend' hge' => ?_⟩
      have happ := List.range'_append_1 (s := lo) (m := path - lo) (n := min stop' commit - path)
      rw [Nat.add_sub_cancel' hlo] at happ
      rw [committed_append, hvisited, committed_range h.dir hend', happ]
      congr 1
      omega
    refine ⟨fun r hr _ => ?_, ?_, fun b hb hlt => ?_⟩
    · obtain ⟨s, -, hlt, rfl⟩ := TailDir.mem_range.mp hr
      rw [(h.dir.held s (by omega)).1]
      exact ⟨by omega, rfl⟩
    · rw [TailDir.range_take]
      by_cases hlt : path < commit
      · obtain ⟨lo, -, hall⟩ := hon hlt
        exact ⟨lo, _, hall _ (by omega) (by omega)⟩
      · rw [committed_append, committed_range h.dir (by omega),
          Nat.sub_eq_zero_of_le (by omega), List.range'_zero, append_nil]
        exact h.consecutive
    · have hpath := (List.pairwise_cons.mp hnames.sorted).1 b (mem_of_head? hb)
      obtain ⟨rfl, hne⟩ := hnames.next h.dir hbase hb hlt
      obtain ⟨lo, hlo, hall⟩ := hon (by omega)
      refine ⟨lo, by omega, ?_⟩
      rw [hall stop hend hge, hlast hne]
      congr 1
      omega
  · -- what a truncation has left behind
    rw [TailDir.file, if_neg hbase] at hfile
    obtain ⟨f, hf, rfl⟩ := Option.map_eq_some_iff.mp hfile
    obtain rfl : f.1 = path := by simpa using find?_some hf
    obtain ⟨hcommit, -, hrecords⟩ := h.dir.stale f (List.mem_of_find?_eq_some hf)
    obtain ⟨k, rfl⟩ := readRecords_eq hseen (fun r hr => (hrecords r (by simpa using hr)).2) hplain hread
    have habove : ∀ r ∈ f.2 ++ take k [], commit ≤ r.seq := by
      intro r hr
      exact Nat.le_trans hcommit (hrecords r (by simpa using hr)).1
    refine ⟨fun r hr hlt => absurd (habove r hr) (Nat.not_le.mpr hlt), ?_, fun b hb hlt => ?_⟩
    · have hnil : committed commit ((f.2 ++ take k []).take n) = [] := by
        rw [committed, List.filter_eq_nil_iff]
        intro s hs
        obtain ⟨r, hr, rfl⟩ := List.mem_map.mp hs
        simpa using habove r (List.mem_of_mem_take hr)
      rw [committed_append, hnil, append_nil]
      exact h.consecutive
    · have := (List.pairwise_cons.mp hnames.sorted).1 b (mem_of_head? hb)
      omega

theorem Inv.exec (h : Inv commit w) (hstep : w.Allowed crc commit step) (hsteady : w.Steady commit step) :
    Inv commit (w.exec crc step) := by
  have hreached := h.reached
  cases step with
  | owner o => exact h.owner hstep
  | list_ =>
    rw [TailScan.exec]
    split
    · rename_i hphase
      rw [hphase] at hreached
      exact ⟨h.dir, h.held, h.consecutive, hreached, known_names h.dir⟩
    · exact h
  | listed names =>
    rw [TailScan.exec]
    split
    · rename_i ever kept hphase
      rw [hphase] at hreached
      obtain ⟨hsorted, hever, -⟩ := hstep ever kept hphase
      refine ⟨h.dir, h.held, h.consecutive, hreached.1, hsorted, fun b hb => hreached.2 b (hever hb), ?_⟩
      exact fun b hb a ha z hz hab hbz _ => hsteady b hb a ha z hz hab hbz
    · exact h
  | probe seen =>
    rw [TailScan.exec]
    split
    · rename_i path next paths hphase
      rw [hphase] at hreached
      split
      · exact { h with reached := trivial }
      · split
        · exact ⟨h.dir, h.held, h.consecutive, hreached.1, hreached.2.tail⟩
        · exact ⟨h.dir, h.held, h.consecutive, hreached.2, fun hne => absurd hreached.1 hne⟩
    · rename_i paths _ hphase
      rw [hphase] at hreached
      exact ⟨h.dir, h.held, h.consecutive, hreached.2, fun hne => absurd hreached.1 hne⟩
    · exact h
  | open_ seen halt =>
    rw [TailScan.exec]
    split
    · exact { h with reached := trivial }
    · rename_i path paths hphase
      obtain ⟨hthere, hplain⟩ := hsteady path paths hphase
      have hseen := hstep path paths hphase
      rw [hphase] at hreached
      split
      · rename_i hnone
        refine ⟨h.dir, h.held, h.consecutive, hreached.1.tail, fun hne b hb hlt => ?_⟩
        -- a segment that is not there holds no committed record, or nothing was visited
        have hpath := (List.pairwise_cons.mp hreached.1.sorted).1 b (mem_of_head? hb)
        have hin := hthere hne (Nat.lt_trans hpath hlt)
        rw [TailDir.file, if_pos hin] at hnone
        cases hnone
      · rename_i file hfile
        split
        · exact { h with reached := trivial }
        · rename_i rs hread
          have hopened := h.opened hphase hfile (hseen file hfile) (hplain file hfile) hread
          have hheld : ∀ n, ∀ r ∈ w.visited ++ rs.take n, r.seq < commit →
              r.seq < w.dir.end_ + w.dir.flying ∧ w.dir.held r.seq = r := by
            intro n r hr hlt
            obtain hr | hr := List.mem_append.mp hr
            · exact h.held r hr hlt
            · exact (hopened 0).1 r (List.mem_of_mem_take hr) hlt
          split
          · exact ⟨h.dir, hheld _, (hopened _).2.1, trivial⟩
          · have hall := hopened rs.length
            have hheld := hheld rs.length
            rw [List.take_length] at hall hheld
            exact ⟨h.dir, hheld, hall.2.1, hreached.1.tail, fun _ => hall.2.2⟩
    · exact h

end TailScan

/-! ## Where a scan begins -/

namespace TailDir

variable {d : TailDir} {commit m k b : ℕ} {step : Step}

/-- The record with the sequence `k` is in the journal, and the last one that starts at
    or below `m`. -/
structure Covers (m k : ℕ) (d : TailDir) : Prop where
  there : ∃ b ∈ d.bases, b ≤ k
  written : k < d.end_
  at_ : (d.held k).meta_ ≤ m
  above : ∀ s, k < s → s < d.end_ + d.flying → m < (d.held s).meta_
  stale : ∀ f ∈ d.stale, ∀ r ∈ f.2, m < r.meta_

/-- The segment of a record. -/
def Home (d : TailDir) (k b : ℕ) : Prop := b ∈ d.bases ∧ b ≤ k ∧ ∀ z ∈ d.bases, z ≤ k → z ≤ b

theorem Covers.home (h : d.Covers m k) : ∃ b, d.Home k b := by
  obtain ⟨b, hb, hle⟩ := h.there
  have hne : (d.bases.filter (· ≤ k)) ≠ [] :=
    ne_nil_of_mem (List.mem_filter.mpr ⟨hb, decide_eq_true hle⟩)
  obtain ⟨z, hz⟩ := Option.isSome_iff_exists.mp (List.isSome_max?_of_ne_nil hne)
  obtain ⟨hmem, hmax⟩ := List.max?_eq_some_iff.mp hz
  obtain ⟨hmem, hle⟩ := List.mem_filter.mp hmem
  exact ⟨z, hmem, of_decide_eq_true hle, fun y hy hyk =>
    hmax y (List.mem_filter.mpr ⟨hy, decide_eq_true hyk⟩)⟩

theorem Home.exec (hd : d.Ok commit) (h : d.Home k b) (hcov : d.Covers m k)
    (hcov' : (d.exec step).Covers m k) :
    (d.exec step).Home k b := by
  obtain ⟨hb, hle, hmax⟩ := h
  cases step with
  | write | written | drop => exact ⟨hb, hle, hmax⟩
  | roll =>
    refine ⟨mem_append_left _ hb, hle, fun z hz hzk => ?_⟩
    obtain hz | hz := List.mem_append.mp hz
    · exact hmax z hz hzk
    · have := hcov.written
      have := List.mem_singleton.mp hz
      omega
  | unlink =>
    refine ⟨?_, hle, fun z hz => hmax z (List.mem_of_mem_tail hz)⟩
    obtain ⟨z, hz, hzk⟩ := hcov'.there
    have hz : z ∈ d.bases.tail := hz
    show b ∈ d.bases.tail
    have hsorted := hd.sorted
    cases hbases : d.bases with
    | nil =>
      rw [hbases] at hz
      cases hz
    | cons first bases =>
      rw [hbases] at hb hz hsorted
      obtain rfl | hb := List.mem_cons.mp hb
      · have := (List.pairwise_cons.mp hsorted).1 z hz
        have := hmax z (by rw [hbases]; exact mem_cons_of_mem _ hz) hzk
        omega
      · exact hb
  | cut keep =>
    have hkeep : k < keep := hcov'.written
    refine ⟨List.mem_filter.mpr ⟨hb, decide_eq_true (by omega)⟩, hle,
      fun z hz => hmax z (List.mem_filter.mp hz).1⟩

theorem Home.lt_fileEnd (hd : d.Ok commit) (hcov : d.Covers m k) (h : d.Home k b) : k < d.fileEnd b := by
  obtain ⟨-, heq, -⟩ | ⟨-, hlt, hmem, -⟩ := hd.fileEnd h.1
  · rw [heq]
    exact hcov.written
  · by_contra hle
    have := h.2.2 _ hmem (Nat.not_lt.mp hle)
    omega

/-- No record above the covering one starts at or below `m`. -/
theorem Covers.lt_meta (hd : d.Ok commit) (hcov : d.Covers m k) {next : ℕ} (hnext : next ∈ d.bases → k < next)
    {file : List JournalRecord × List JournalRecord} (hfile : d.file next = some file) {r : JournalRecord}
    (hr : r ∈ file.1 ++ file.2) : m < r.meta_ := by
  by_cases hbase : next ∈ d.bases
  · obtain ⟨e, z, hf, hz, hfly⟩ := hd.file hbase
    obtain ⟨hge, hle⟩ := hd.fileEnd_le hbase
    have hk := hnext hbase
    rw [hf] at hfile
    obtain rfl := Option.some.inj hfile
    obtain hr | hr := List.mem_append.mp hr
    · obtain ⟨s, hs, hlt, rfl⟩ := mem_range.mp hr
      exact hcov.above s (by omega) (by omega)
    · obtain ⟨s, hs, hlt, rfl⟩ := mem_range.mp hr
      obtain ⟨rfl, -⟩ := hfly (by omega)
      exact hcov.above s (by omega) (by omega)
  · rw [TailDir.file, if_neg hbase] at hfile
    obtain ⟨f, hf, rfl⟩ := Option.map_eq_some_iff.mp hfile
    exact hcov.stale f (List.mem_of_find?_eq_some hf) r (by simpa using hr)

end TailDir

namespace TailScan

variable {w : TailScan} {commit m k : ℕ} {step : TailStep}

/-- What is still to be found of the record that covers the start. -/
def Sought (k : ℕ) (w : TailScan) : TailPhase → Prop
  | .idle => w.visited = []
  | .listing _ kept => w.visited = [] ∧ ∃ b ∈ kept, w.dir.Home k b
  | .probing l => w.visited = [] ∧ ∃ b ∈ l, w.dir.Home k b
  | .scanning l => w.visited = [] → ∃ b ∈ l, w.dir.Home k b
  | .ended (.ok _) => w.visited ≠ []
  | .ended (.error _) => True

/-- The first visited record is not above `k`. -/
structure Found (k : ℕ) (w : TailScan) : Prop where
  first : ∀ r ∈ w.visited.head?, r.seq ≤ k
  sought : Sought k w w.phase

/-- A segment up to that of the covering record begins with a record that is not above it. -/
theorem opened_first {d : TailDir} (hd : d.Ok commit) (hcov : d.Covers m k) {path b : ℕ} (hb : d.Home k b)
    (hpath : path ≤ b) {seen : Bytes} {file : List JournalRecord × List JournalRecord}
    (hfile : d.file path = some file) (hseen : Readable crc path file seen)
    (hplain : ∀ r ∈ file.1 ++ file.2, isSentinel r = false) {rs : List JournalRecord}
    (hread : readRecords crc seen = .ok rs) : ∃ r rs', rs = r :: rs' ∧ r.seq ≤ k := by
  have hlt := hcov.written
  have hk := hb.2.1
  have hbase : path ∈ d.bases := by
    by_contra hbase
    rw [TailDir.file, if_neg hbase] at hfile
    obtain ⟨f, hf, -⟩ := Option.map_eq_some_iff.mp hfile
    obtain rfl : f.1 = path := by simpa using find?_some hf
    have := (hd.stale f (List.mem_of_find?_eq_some hf)).2.1
    omega
  obtain ⟨stop, rfl, hge, hend, -⟩ := opened_range hd hbase hfile hseen hplain hread
  have hne : path < d.fileEnd path := by
    obtain rfl | hlt' := Nat.eq_or_lt_of_le hpath
    · exact Nat.lt_of_le_of_lt hk (hb.lt_fileEnd hd hcov)
    · obtain ⟨-, -, hmax⟩ | ⟨-, hlt', -⟩ := hd.fileEnd hbase
      · have := hmax b hb.1
        omega
      · exact hlt'
  obtain ⟨n, hn⟩ : ∃ n, stop - path = n + 1 := ⟨stop - path - 1, by omega⟩
  refine ⟨d.held path, (range' (path + 1) n).map d.held, ?_, ?_⟩
  · rw [TailDir.range, hn, List.range'_succ, List.map_cons]
  · rw [(hd.held path (by omega)).1]
    omega

theorem Found.exec (hinv : Inv commit w) (h : Found k w) (hm : w.startMeta = m)
    (hstep : w.Allowed crc commit step) (hsteady : w.Steady commit step) (hcov : w.dir.Covers m k)
    (hcov' : (w.exec crc step).dir.Covers m k) : Found k (w.exec crc step) := by
  have hsought := h.sought
  have hreached := hinv.reached
  cases step with
  | owner o =>
    have hhome : ∀ b, w.dir.Home k b → (w.dir.exec o).Home k b := fun b hb => hb.exec hinv.dir hcov hcov'
    refine ⟨h.first, ?_⟩
    show Sought k _ (meet (w.dir.exec o).names w.phase)
    cases hphase : w.phase with
    | idle =>
      rw [hphase] at hsought
      exact hsought
    | listing ever kept =>
      rw [hphase] at hsought
      obtain ⟨hnil, b, hb, hb'⟩ := hsought
      have hb' := hhome b hb'
      exact ⟨hnil, b, List.mem_filter.mpr ⟨hb, decide_eq_true (mem_append_left _ hb'.1)⟩, hb'⟩
    | probing l =>
      rw [hphase] at hsought
      obtain ⟨hnil, b, hb, hb'⟩ := hsought
      exact ⟨hnil, b, hb, hhome b hb'⟩
    | scanning l =>
      rw [hphase] at hsought
      intro hnil
      obtain ⟨b, hb, hb'⟩ := hsought hnil
      exact ⟨b, hb, hhome b hb'⟩
    | ended res =>
      rw [hphase] at hsought
      cases res with
      | ok => exact hsought
      | error => trivial
  | list_ =>
    rw [TailScan.exec]
    split
    · rename_i hphase
      rw [hphase] at hsought
      obtain ⟨b, hb⟩ := hcov.home
      exact ⟨h.first, hsought, b, mem_append_left _ hb.1, hb⟩
    · exact h
  | listed names =>
    rw [TailScan.exec]
    split
    · rename_i ever kept hphase
      rw [hphase] at hsought
      obtain ⟨hnil, b, hb, hb'⟩ := hsought
      exact ⟨h.first, hnil, b, (hstep ever kept hphase).2.2 hb, hb'⟩
    · exact h
  | probe seen =>
    rw [TailScan.exec]
    split
    · rename_i path next paths hphase
      rw [hphase] at hsought hreached
      obtain ⟨hnil, b, hb, hhome⟩ := hsought
      split
      · exact ⟨h.first, trivial⟩
      · rename_i head hprobe
        split
        · rename_i hskip
          refine ⟨h.first, hnil, b, ?_, hhome⟩
          obtain rfl | hb := List.mem_cons.mp hb
          · -- its own segment is not skipped
            exfalso
            obtain ⟨v, rfl, hv⟩ := Option.any_eq_true _ _ |>.mp hskip
            have hv : v ≤ w.startMeta := of_decide_eq_true hv
            cases hfile : w.dir.file next with
            | none =>
              rw [hfile] at hprobe
              cases hprobe
            | some file =>
              rw [hfile, Option.map_some, probeFirstMeta] at hprobe
              have hmeta : v ∈ firstRecordMeta seen := by
                cases hopen : SegmentFile.openForRead crc seen with
                | error e =>
                  rw [hopen] at hprobe
                  cases hprobe
                | ok seg =>
                  rw [hopen] at hprobe
                  exact Except.ok.inj hprobe
              obtain ⟨r, hr, rfl⟩ := hsteady b next paths hphase file hfile v hmeta
              have hnext := (List.pairwise_cons.mp hreached.2.sorted).1 next List.mem_cons_self
              have hlt := hcov.lt_meta hinv.dir (fun hbase => by
                by_contra hle
                have := hhome.2.2 next hbase (Nat.not_lt.mp hle)
                omega) hfile (mem_of_head? hr)
              omega
          · exact hb
        · exact ⟨h.first, fun _ => ⟨b, hb, hhome⟩⟩
    · rename_i paths _ hphase
      rw [hphase] at hsought
      exact ⟨h.first, fun _ => hsought.2⟩
    · exact h
  | open_ seen halt =>
    rw [TailScan.exec]
    split
    · rename_i hphase
      rw [hphase] at hsought
      refine ⟨h.first, fun hnil => ?_⟩
      obtain ⟨b, hb, -⟩ := hsought hnil
      cases hb
    · rename_i path paths hphase
      obtain ⟨-, hplain⟩ := hsteady path paths hphase
      have hseen := hstep path paths hphase
      rw [hphase] at hsought hreached
      split
      · rename_i hnone
        refine ⟨h.first, fun hnil => ?_⟩
        obtain ⟨b, hb, hhome⟩ := hsought hnil
        obtain rfl | hb := List.mem_cons.mp hb
        · rw [TailDir.file, if_pos hhome.1] at hnone
          cases hnone
        · exact ⟨b, hb, hhome⟩
      · rename_i file hfile
        split
        · exact ⟨h.first, trivial⟩
        · rename_i rs hread
          have hfirst : ∀ n, (∀ r ∈ (w.visited ++ rs.take (n + 1)).head?, r.seq ≤ k) ∧
              w.visited ++ rs.take (n + 1) ≠ [] := by
            intro n
            cases hvisited : w.visited with
            | nil =>
              obtain ⟨b, hb, hhome⟩ := hsought hvisited
              have hle : path ≤ b := by
                obtain rfl | hb := List.mem_cons.mp hb
                · exact le_rfl
                · exact Nat.le_of_lt ((List.pairwise_cons.mp hreached.1.sorted).1 b hb)
              obtain ⟨r, rs', rfl, hr⟩ := opened_first hinv.dir hcov hhome hle hfile (hseen file hfile)
                (hplain file hfile) hread
              exact ⟨by simpa using hr, by simp⟩
            | cons r visited =>
              have := h.first
              rw [hvisited] at this
              exact ⟨this, by simp⟩
          split
          · exact ⟨(hfirst _).1, (hfirst _).2⟩
          · have hall := hfirst rs.length
            rw [List.take_of_length_le (Nat.le_succ _)] at hall
            exact ⟨hall.1, fun hnil => absurd hnil hall.2⟩
    · exact h

/-! ## Whole scans -/

/-- Before the call. -/
def start (dir : TailDir) (startMeta : ℕ) : TailScan := ⟨dir, startMeta, .idle, []⟩

theorem startMeta_exec (w : TailScan) (step : TailStep) : (w.exec crc step).startMeta = w.startMeta := by
  cases step with
  | owner o => rfl
  | list_ | listed | probe | open_ =>
    unfold TailScan.exec
    repeat' split
    all_goals rfl

/-- A tail scan has no holes: in every run of a scan and the owner of the journal whose
    steps are steady,
    * the committed records that are visited are consecutive;
    * each is the one that the journal holds, or held when it was purged;
    * if the record that covers the start is in the journal all the time, the first one
      that is visited is not above it, and a scan that has ended well has visited it or
      one before it. -/
theorem visited_without_holes {dir : TailDir} {commit m : ℕ} (hdir : dir.Ok commit) {steps : List TailStep}
    (hrun : Trace.Admits (TailScan.exec crc)
      (fun w step => w.Allowed crc commit step ∧ w.Steady commit step) (start dir m) steps)
    {w : TailScan} (hw : steps.foldl (TailScan.exec crc) (start dir m) = w) :
    (∃ lo n, (w.visited.map (·.seq)).filter (· < commit) = List.range' lo n) ∧
    (∀ r ∈ w.visited, r.seq < commit → w.dir.held r.seq = r) ∧
    ∀ k, (∀ j, ((steps.take j).foldl (TailScan.exec crc) (start dir m)).dir.Covers m k) →
      (∀ r ∈ w.visited.head?, r.seq ≤ k) ∧ (w.phase = .ended (.ok ()) → w.visited ≠ []) := by
  have hinv : ∀ j, Inv commit ((steps.take j).foldl (TailScan.exec crc) (start dir m)) := by
    intro j
    refine (hrun.take j).rule (P := fun steps => Inv commit (steps.foldl (TailScan.exec crc) (start dir m)))
      ⟨hdir, by simp [start], ⟨0, 0, rfl⟩, rfl⟩ ?_
    intro steps step h hstep
    rw [List.foldl_append, List.foldl_cons, List.foldl_nil]
    exact h.exec hstep.1 hstep.2
  have hlast := hinv steps.length
  rw [List.take_length, hw] at hlast
  refine ⟨hlast.consecutive, fun r hr hlt => (hlast.held r hr hlt).2, fun k hcov => ?_⟩
  have hfound : ∀ j ≤ steps.length, Found k ((steps.take j).foldl (TailScan.exec crc) (start dir m)) ∧
      ((steps.take j).foldl (TailScan.exec crc) (start dir m)).startMeta = m := by
    intro j
    induction j with
    | zero => exact fun _ => ⟨⟨by simp [start], rfl⟩, rfl⟩
    | succ j ih =>
      intro hj
      obtain ⟨ih, hm⟩ := ih (Nat.le_of_succ_le hj)
      have hget : steps[j]? = some steps[j] := List.getElem?_eq_getElem hj
      have hstep := Trace.admits_iff_getElem?.mp hrun j _ hget
      have hcov' := hcov (j + 1)
      rw [List.take_add_one, hget, Option.toList_some, List.foldl_append, List.foldl_cons,
        List.foldl_nil] at hcov' ⊢
      refine ⟨ih.exec (hinv j) hm hstep.1 hstep.2 (hcov j) hcov', ?_⟩
      rw [startMeta_exec, hm]
  obtain ⟨hfound, -⟩ := hfound steps.length le_rfl
  rw [List.take_length, hw] at hfound
  refine ⟨hfound.first, fun hended => ?_⟩
  have hsought := hfound.sought
  rwa [hended] at hsought

/-! ## A purge under a scan -/

/-- Three segments of one record each. -/
def threeSegments : TailDir := ⟨[0, 1, 2], 3, fun s => ⟨s, s, []⟩, 0, []⟩

def noCrc (_ : Bytes) : UInt32 := 0

/-- The bytes of one of them. -/
def segmentBytes (b : ℕ) : Bytes := encodeHeader noCrc b 0 ++ encodeAll noCrc [⟨b, b, []⟩] ++ []

/-- A scan, with what the owner does after the first segment was read. -/
def segmentSteps (owner : List TailDir.Step) : List TailStep :=
  [.list_, .listed [0, 1, 2], .probe (segmentBytes 1), .open_ (segmentBytes 0) none] ++ owner.map .owner ++
    [.open_ (segmentBytes 1) none, .open_ (segmentBytes 2) none, .open_ [] none]

/-- The purge of two segments. -/
def purgeTwo : List TailDir.Step := [.unlink, .unlink]

theorem threeSegments_ok : threeSegments.Ok 3 where
  sorted := by decide
  le_end := by decide
  held s hs := by
    have hs : s < 3 := hs
    exact ⟨rfl, show s < 2 ^ 64 by omega, show s < 2 ^ 64 by omega, show 16 + 0 < 2 ^ 32 by decide⟩
  empty h := by cases h
  settled h := absurd rfl h
  stale f hf := by cases hf

theorem segmentBytes_readable (b : ℕ) : Readable noCrc b ([⟨b, b, []⟩], []) (segmentBytes b) := by
  refine .inr ⟨0, 0, [], rfl, ?_⟩
  intro off r k h
  cases h

theorem probe_allowed {w : TailScan} {path b commit : ℕ} (paths : List ℕ)
    (hphase : w.phase = .probing (path :: b :: paths)) (hfile : w.dir.file b = some ([⟨b, b, []⟩], [])) :
    w.Allowed noCrc commit (.probe (segmentBytes b)) := by
  intro path' next paths' h file hf
  rw [hphase] at h
  cases h
  rw [hfile] at hf
  obtain rfl := Option.some.inj hf
  exact segmentBytes_readable b

theorem open_allowed {w : TailScan} {b commit : ℕ} (paths : List ℕ)
    (hphase : w.phase = .scanning (b :: paths))
    (hfile : w.dir.file b = none ∨ w.dir.file b = some ([⟨b, b, []⟩], [])) :
    w.Allowed noCrc commit (.open_ (segmentBytes b) none) := by
  intro path paths' h file hf
  rw [hphase] at h
  cases h
  obtain hfile | hfile := hfile
  · rw [hfile] at hf
    cases hf
  · rw [hfile] at hf
    obtain rfl := Option.some.inj hf
    exact segmentBytes_readable b

theorem end_steady {w : TailScan} {commit : ℕ} (hphase : w.phase = .scanning []) :
    w.Allowed noCrc commit (.open_ [] none) ∧ w.Steady commit (.open_ [] none) := by
  constructor
  all_goals
    intro path paths h
    rw [hphase] at h
    cases h

theorem visited_over_hole :
    threeSegments.Ok 3 ∧
    Trace.Admits (TailScan.exec noCrc) (fun w step => w.Allowed noCrc 3 step) (start threeSegments 0)
      (segmentSteps purgeTwo) ∧
    ((segmentSteps purgeTwo).foldl (TailScan.exec noCrc) (start threeSegments 0)).phase = .ended (.ok ()) ∧
    ¬ ∃ lo n, (((segmentSteps purgeTwo).foldl (TailScan.exec noCrc) (start threeSegments 0)).visited.map
      (·.seq)).filter (· < 3) = List.range' lo n := by
  refine ⟨threeSegments_ok, ⟨trivial, ?_, ?_, ?_, ?_, ?_, ?_, ?_, ?_, trivial⟩, ?_, ?_⟩
  · rintro ever kept ⟨⟩
    exact ⟨by decide, by decide, by decide⟩
  · exact probe_allowed [2] rfl rfl
  · exact open_allowed [1, 2] (by decide +kernel) (.inr (by decide +kernel))
  · show 2 ≤ _
    decide +kernel
  · show 2 ≤ _
    decide +kernel
  · exact open_allowed [2] (by decide +kernel) (.inl (by decide +kernel))
  · exact open_allowed [] (by decide +kernel) (.inr (by decide +kernel))
  · exact (end_steady (by decide +kernel)).1
  · decide +kernel
  · have hvisited : (((segmentSteps purgeTwo).foldl (TailScan.exec noCrc) (start threeSegments 0)).visited.map
        (·.seq)).filter (· < 3) = [0, 2] := by decide +kernel
    rw [hvisited]
    rintro ⟨lo, n, h⟩
    obtain rfl : 2 = n := by simpa using congrArg List.length h
    simp [List.range'_succ] at h
    omega

theorem probe_steady {w : TailScan} {path commit : ℕ} (paths : List ℕ)
    (hphase : w.phase = .probing (path :: 1 :: paths)) (hfile : w.dir.file 1 = some ([⟨1, 1, []⟩], [])) :
    w.Steady commit (.probe (segmentBytes 1)) := by
  intro path' next paths' h file hf v hv
  rw [hphase] at h
  cases h
  rw [hfile] at hf
  obtain rfl := Option.some.inj hf
  have hmeta : firstRecordMeta (segmentBytes 1) = some 1 := by decide +kernel
  rw [hmeta] at hv
  obtain rfl := Option.some.inj hv
  exact ⟨_, rfl, rfl⟩

theorem open_steady {w : TailScan} {b commit : ℕ} (paths : List ℕ) (hb : isSentinel ⟨b, b, []⟩ = false)
    (hphase : w.phase = .scanning (b :: paths)) (hfile : w.dir.file b = some ([⟨b, b, []⟩], []))
    (hbase : b ∈ w.dir.bases) : w.Steady commit (.open_ (segmentBytes b) none) := by
  intro path paths' h
  rw [hphase] at h
  cases h
  refine ⟨fun _ _ => hbase, fun file hf r hr => ?_⟩
  rw [hfile] at hf
  obtain rfl := Option.some.inj hf
  obtain rfl : r = ⟨b, b, []⟩ := by simpa using hr
  exact hb

/-- Without the purge all three are visited. -/
theorem visited_three :
    (∃ lo n, (((segmentSteps []).foldl (TailScan.exec noCrc) (start threeSegments 0)).visited.map
      (·.seq)).filter (· < 3) = List.range' lo n) ∧
    ((segmentSteps []).foldl (TailScan.exec noCrc) (start threeSegments 0)).visited.length = 3 := by
  have hrun : Trace.Admits (TailScan.exec noCrc)
      (fun w step => w.Allowed noCrc 3 step ∧ w.Steady 3 step) (start threeSegments 0) (segmentSteps []) := by
    refine ⟨⟨trivial, trivial⟩, ⟨?_, ?_⟩, ⟨probe_allowed [2] rfl rfl, probe_steady [2] rfl rfl⟩,
      ⟨open_allowed [1, 2] ?_ (.inr ?_), open_steady [1, 2] rfl ?_ ?_ ?_⟩,
      ⟨open_allowed [2] ?_ (.inr ?_), open_steady [2] rfl ?_ ?_ ?_⟩,
      ⟨open_allowed [] ?_ (.inr ?_), open_steady [] rfl ?_ ?_ ?_⟩, end_steady ?_, trivial⟩
    · rintro ever kept ⟨⟩
      exact ⟨by decide, by decide, by decide⟩
    · exact fun b hb _ _ _ _ _ _ => hb
    all_goals decide +kernel
  exact ⟨(visited_without_holes threeSegments_ok hrun rfl).1, by decide +kernel⟩

end TailScan

end UltimaCluster
