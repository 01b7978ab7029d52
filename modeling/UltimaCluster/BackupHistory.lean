/-
  What a backup of a running node holds.

  Nothing stops the node while the copier reads, and nothing compares what was copied
  at different moments.  A cut between two files of `journal/` splices two histories; a
  set published after the journal was copied, with the older one dropped by retention,
  leaves only artifacts beyond the end of the copied journal; two stores of the vote
  between the reads of its slots leave an old vote beside a torn one.  `Orderly` leaves
  these out.
-/
import UltimaCluster.BackupSource

namespace UltimaCluster

open Function (update update_of_ne update_self)
open List (append_assoc append_nil length_append map map_cons map_map map_nil)

namespace HotBackup

open Instance

variable {V : Type}

/-! ## The condition -/

/-- `journal/` was listed and is being copied. -/
def Stage.copiesJournal : Stage → Bool
  | .files .. | .reading .. => true
  | _ => false

/-- `journal/` is copied. -/
def Stage.past : Stage → Bool
  | .slots _ | .ids | .family .. | .artifacts .. | .clusterDir | .finished => true
  | _ => false

/-- `journal/` was listed, and the directory of `f` is not copied yet. -/
def Stage.awaits (f : Family) : Stage → Prop
  | .files .. | .reading .. | .slots _ | .ids => True
  | .family _ g left | .artifacts _ g _ left => f = g ∨ f ∈ left ∨ f = .cluster
  | .clusterDir => f = .cluster
  | _ => False

instance (f : Family) : DecidablePred (Stage.awaits f) := fun stage => by
  cases stage <;> simp only [Stage.awaits] <;> infer_instance

/-- A journal that begins at 0 needs no artifact; another needs one between its
    beginning and `hi`. -/
def Covers (lo hi : ℕ) (ps : List ℕ) : Prop := lo = 0 ∨ ∃ p ∈ ps, lo ≤ p ∧ p ≤ hi

instance (lo hi : ℕ) (ps : List ℕ) : Decidable (Covers lo hi ps) := inferInstanceAs (Decidable (_ ∨ _))

theorem Covers.mono {lo hi : ℕ} {ps qs : List ℕ} (h : Covers lo hi ps) (hsub : ∀ p ∈ ps, p ∈ qs) :
    Covers lo hi qs := by
  rcases h with h | ⟨p, hp, hb⟩
  · exact .inl h
  · exact .inr ⟨p, hsub p hp, hb⟩

namespace World

variable (rows : List ℕ)

/-- No cut while `journal/` is copied; retention leaves every row an artifact between
    the beginning of the listed journal and the commit at the listing until its
    directory is copied; the second slot of the vote is not being written when it is
    read, if a store returned since the first was read. -/
def Orderly (w : World V) : BackupStep V → Prop
  | .startCut .. => w.job.stage.copiesJournal = false
  | .retain f pos => f ∈ families rows → w.job.stage.awaits f →
      Covers w.job.listedBase w.job.listedCommit (((w.src.arts f).map Prod.fst).filter (· ≠ pos))
  | .copy _ =>
    match w.job.stage with
    | .list _ => w.src.pending = []
    | .slots true => (w.src.vote.slot true).isSome ∨ w.src.vote.gen = w.job.voteAtFirst
    | _ => True
  | _ => True

instance (w : World V) : DecidablePred (w.Orderly rows)
  | .startCut .. => inferInstanceAs (Decidable (_ = false))
  | .retain .. => inferInstanceAs (Decidable (_ → _ → _))
  | .copy _ => by
    simp only [Orderly]
    split <;> infer_instance
  | .roll | .record _ | .cutOp | .purge _ | .commit _ | .publish .. | .moveFloor _ | .startVote _
  | .endVote => .isTrue trivial

end World

/-! ## The journal -/

/-- The listed segments: `todo` are those that are not copied yet. -/
structure Listed (s : Instance V) (b : Backup V) (todo : List SegFile) : Prop where
  idle : s.pending = []
  noIntent : b.out.intent = none
  commit : b.listedCommit ≤ s.committed.length
  split : ∃ front back, s.purged ++ s.segs = front ++ (b.out.segs ++ (todo ++ back)) ∧
    s.below.length + (bytesOf (front.flatMap SegFile.recs)).length = b.listedBase ∧
    b.listedCommit ≤ s.below.length + (bytesOf ((front ++ (b.out.segs ++ todo)).flatMap SegFile.recs)).length

/-- Where the copier is in `journal/`. -/
def Copying (s : Instance V) (b : Backup V) : Prop :=
  match b.stage with
  | .files _ left => ∃ f todo, Listed s b (f :: todo) ∧ left = (f :: todo).map (.seg ·.baseSeq)
  | .reading _ ino baseSeq left => ∃ f todo, Listed s b (f :: todo) ∧ f.ino = ino ∧ f.baseSeq = baseSeq ∧
      b.got <+: f.recs ∧ left = todo.map (.seg ·.baseSeq)
  | _ => True

/-- The copied journal is a piece of the log of `t`. -/
structure Piece (t : Instance V) (b : Backup V) : Prop where
  laid : LaidFrom 0 t.below.length t.records
  committed : t.committed <+: t.log
  commit : b.listedCommit ≤ t.committed.length
  split : ∃ front back, t.records = front ++ (b.out.blocks ++ back) ∧
    t.below.length + (bytesOf front).length = b.listedBase ∧
    b.listedCommit ≤ t.below.length + (bytesOf (front ++ b.out.blocks)).length

theorem Piece.congr {t : Instance V} {b b' : Backup V} (h : Piece t b) (hs : b'.out.segs = b.out.segs)
    (hi : b'.out.intent = b.out.intent) (hb : b'.listedBase = b.listedBase)
    (hc : b'.listedCommit = b.listedCommit) : Piece t b' := by
  have hblocks : b'.out.blocks = b.out.blocks := by rw [Artifact.blocks, Artifact.blocks, hs, hi]
  refine ⟨h.laid, h.committed, hc ▸ h.commit, ?_⟩
  rw [hblocks, hb, hc]
  exact h.split

variable {b : Backup V}

theorem Listed.piece {s : Instance V} (h : Listed s b []) (hf : Files s)
    (hc : s.committed <+: s.log) : Piece s b := by
  obtain ⟨front, back, hall, hbase, hcommit⟩ := h.split
  have hblocks : b.out.blocks = b.out.segs.flatMap SegFile.recs := by rw [Artifact.blocks, h.noIntent]
  refine ⟨hf.laid, hc, h.commit, front.flatMap SegFile.recs, back.flatMap SegFile.recs, ?_, hbase, ?_⟩
  · rw [records, hall, hblocks]
    simp
  · rw [hblocks]
    simpa using hcommit

theorem writeLast_append_of_ne_nil (k : ArchivedBlock) (fs : List SegFile) {gs : List SegFile} (h : gs ≠ []) :
    writeLast k (fs ++ gs) = fs ++ writeLast k gs := by
  obtain ⟨l, x, rfl⟩ : ∃ l x, gs = l ++ [x] := ⟨_, _, (List.dropLast_append_getLast h).symm⟩
  rw [← append_assoc, writeLast_append, writeLast_append, append_assoc]

theorem writeLast_cons (k : ArchivedBlock) (f : SegFile) (fs : List SegFile) :
    ∃ f' fs', writeLast k (f :: fs) = f' :: fs' ∧ f'.ino = f.ino ∧ f'.baseSeq = f.baseSeq ∧
      f.recs <+: f'.recs ∧ fs'.map SegFile.baseSeq = fs.map SegFile.baseSeq ∧
      ((f' :: fs').flatMap SegFile.recs) = (f :: fs).flatMap SegFile.recs ++ [k] := by
  rcases List.eq_nil_or_concat fs with rfl | ⟨l, x, rfl⟩
  · exact ⟨_, [], rfl, rfl, rfl, List.prefix_append _ _, rfl, by simp⟩
  · rw [List.concat_eq_append]
    have hw := writeLast_append k (f :: l) x
    rw [List.cons_append] at hw
    exact ⟨f, _, hw, rfl, rfl, List.prefix_rfl, by simp, by simp⟩

variable {w : World V}

theorem Listed.step {rows : List ℕ} {f : SegFile} {todo : List SegFile}
    (h : Listed w.src w.job (f :: todo)) (hs : Sound rows w.src) {st : BackupStep V}
    (hp : w.Possible rows st) (ho : w.Orderly rows st) (hc : w.job.stage.copiesJournal = true)
    (hst : ∀ torn, st ≠ .copy torn) :
    ∃ f' todo', Listed (w.exec st).src w.job (f' :: todo') ∧ f'.ino = f.ino ∧ f'.baseSeq = f.baseSeq ∧
      f.recs <+: f'.recs ∧ todo'.map SegFile.baseSeq = todo.map SegFile.baseSeq := by
  obtain ⟨hidle, hint, hcommit, front, back, hall, hbase, hend⟩ := h
  have hgrow := (hs.step hp).2.length_le
  cases st with
  | startCut pos roll =>
    have ho' : w.job.stage.copiesJournal = false := ho
    rw [hc] at ho'
    cases ho'
  | cutOp => exact absurd hidle hp
  | copy torn => exact absurd rfl (hst torn)
  | roll =>
    refine ⟨f, todo, ⟨hidle, hint, hcommit, front, back ++
      [⟨w.src.nextIno, w.src.nextBlockSeq, []⟩], ?_, hbase,
      hend⟩, rfl, rfl, List.prefix_rfl, rfl⟩
    show w.src.purged ++ (w.src.segs ++ _) = _
    rw [← append_assoc, hall]
    simp
  | record bytes =>
    obtain ⟨-, hne, -⟩ := hp
    set k : ArchivedBlock := ⟨w.src.nextBlockSeq, w.src.durablePos, bytes⟩ with hk
    have hwrite : w.src.purged ++ writeLast k w.src.segs = writeLast k (w.src.purged ++ w.src.segs) :=
      (writeLast_append_of_ne_nil k _ hne).symm
    by_cases hback : back = []
    · subst hback
      obtain ⟨f', todo', hw, hino, hname, hrecs, hnames, hflat⟩ := writeLast_cons k f todo
      refine ⟨f', todo', ⟨hidle, hint, hcommit, front, [], ?_, hbase, ?_⟩, hino, hname, hrecs, hnames⟩
      · show w.src.purged ++ writeLast k w.src.segs = _
        rw [hwrite, hall, append_nil, append_nil, ← append_assoc, ← append_assoc,
          writeLast_append_of_ne_nil k _ (List.cons_ne_nil f todo), hw]
      · refine hend.trans ?_
        show w.src.below.length + _ ≤ w.src.below.length + _
        simp only [List.flatMap_append, hflat, bytesOf_append, length_append]
        omega
    · refine ⟨f, todo, ⟨hidle, hint, hcommit, front, writeLast k back, ?_, hbase, hend⟩, rfl, rfl,
        List.prefix_rfl, rfl⟩
      show w.src.purged ++ writeLast k w.src.segs = _
      rw [hwrite, hall, ← append_assoc, ← append_assoc, ← append_assoc,
        writeLast_append_of_ne_nil k _ hback]
      simp
  | purge below =>
    refine ⟨f, todo, ⟨hidle, hint, hcommit, front, back, ?_, hbase, hend⟩, rfl, rfl, List.prefix_rfl, rfl⟩
    show w.src.purged ++ w.src.segs.take 1 ++ w.src.segs.tail = _
    rw [append_assoc, ← List.drop_one, List.take_append_drop, hall]
  | commit pos =>
    exact ⟨f, todo, ⟨hidle, hint, hcommit.trans hgrow, front, back, hall, hbase, hend⟩, rfl, rfl,
      List.prefix_rfl, rfl⟩
  | publish _ _ | moveFloor _ | retain _ _ | startVote _ | endVote =>
    exact ⟨f, todo, ⟨hidle, hint, hcommit, front, back, hall, hbase, hend⟩, rfl, rfl, List.prefix_rfl, rfl⟩

theorem content_eq {s : Instance V} (h : Files s) {f : SegFile} (hf : f ∈ s.purged ++ s.segs) :
    s.content f.ino = f.recs := by
  have hfind : (s.purged ++ s.segs ++ s.unlinked).find? (·.ino = f.ino) = some f := by
    obtain ⟨l, r, hsplit⟩ := List.append_of_mem hf
    have hinos := h.inos
    rw [hsplit] at hinos ⊢
    rw [List.find?_eq_some_iff_append]
    refine ⟨by simp, l, r ++ s.unlinked, by simp, ?_⟩
    intro x hx
    have := (List.pairwise_append.mp hinos).2.2 x hx f List.mem_cons_self
    rw [Bool.not_eq_true', decide_eq_false_iff_not]
    omega
  rw [content, hfind]
  rfl

theorem eq_of_find {s : Instance V} (h : Files s) {f g : SegFile} (hf : f ∈ s.purged ++ s.segs)
    (hg : s.segs.find? (·.baseSeq = f.baseSeq) = some g) : g = f := by
  have hlt := h.named.pairwise h.dropLast
  have hnodup : ((s.purged ++ s.segs).map SegFile.baseSeq).Nodup := by
    rw [List.nodup_iff_pairwise_ne, List.pairwise_map]
    exact hlt.imp fun hab => Nat.ne_of_lt hab
  exact List.inj_on_of_nodup_map hnodup (List.mem_append_right _ (List.mem_of_find?_eq_some hg)) hf
    (by simpa using List.find?_some hg)

/-- `journal/` is copied: the copier does not come back to it. -/
theorem copy_past (s : Instance V) (torn : Bool) (h : b.stage.past = true) :
    (b.copy s torn).stage.copiesJournal = false ∧ (b.copy s torn).out.segs = b.out.segs ∧
      (b.copy s torn).out.intent = b.out.intent ∧ (b.copy s torn).listedBase = b.listedBase ∧
      (b.copy s torn).listedCommit = b.listedCommit := by
  have hnext : ∀ f left, (Backup.nextFamily f left).copiesJournal = false := by
    intro f left
    cases left with
    | nil =>
      rw [Backup.nextFamily]
      split <;> rfl
    | cons g left => rfl
  unfold Backup.copy
  cases hst : b.stage with
  | ready | list _ | failed | files _ _ | reading _ _ _ _ =>
    rw [hst] at h
    cases h
  | slots second => cases second <;> exact ⟨rfl, rfl, rfl, rfl, rfl⟩
  | ids =>
    refine ⟨?_, rfl, rfl, rfl, rfl⟩
    simp only [Backup.listIds]
    split <;> rfl
  | family attempt f left =>
    refine ⟨?_, rfl, rfl, rfl, rfl⟩
    simp only [Backup.listFamily]
    split
    · exact hnext f left
    · rfl
  | artifacts attempt f names left =>
    cases names with
    | nil =>
      refine ⟨?_, rfl, rfl, rfl, rfl⟩
      rw [hst]
      rfl
    | cons pos names =>
      simp only [Backup.copyArtifact]
      split
      · refine ⟨?_, rfl, rfl, rfl, rfl⟩
        simp only [Backup.retryFamily]
        split <;> rfl
      · refine ⟨?_, rfl, rfl, rfl, rfl⟩
        split
        · exact hnext f left
        · rfl
  | clusterDir =>
    refine ⟨?_, rfl, rfl, rfl, rfl⟩
    dsimp only
    split <;> rfl
  | finished =>
    refine ⟨?_, rfl, rfl, rfl, rfl⟩
    rw [hst]
    rfl

theorem copying_of_not {s : Instance V} (h : b.stage.copiesJournal = false) : Copying s b := by
  unfold Copying
  cases hst : b.stage with
  | files _ _ | reading _ _ _ _ =>
    rw [hst] at h
    cases h
  | _ => trivial

/-- After a file of `journal/`: the next one, or all is copied. -/
theorem Listed.next {s : Instance V} {todo : List SegFile} (h : Listed s b todo) (hf : Files s)
    (hc : s.committed <+: s.log) {attempt : ℕ}
    (hst : b.stage = Backup.nextFile attempt (todo.map (.seg ·.baseSeq))) :
    Copying s b ∧ (b.stage.past = true → Piece s b) := by
  unfold Backup.nextFile at hst
  cases todo with
  | nil =>
    rw [map_nil, if_pos rfl] at hst
    exact ⟨copying_of_not (by rw [hst]; rfl), fun _ => h.piece hf hc⟩
  | cons f todo =>
    rw [if_neg (by simp)] at hst
    refine ⟨?_, ?_⟩
    · unfold Copying
      rw [hst]
      exact ⟨f, todo, h, rfl⟩
    · rw [hst]
      intro hp
      cases hp

/-- The copier in `journal/`, one call. -/
theorem Copying.copy {rows : List ℕ} (h : Copying w.src w.job) (hs : Sound rows w.src) {torn : Bool}
    (ho : w.Orderly rows (.copy torn)) (hpast : w.job.stage.past = false) :
    Copying w.src (w.job.copy w.src torn) ∧
      ((w.job.copy w.src torn).stage.past = true → Piece w.src (w.job.copy w.src torn)) := by
  have hretry : ∀ (b : Backup V) attempt, Copying w.src (b.retryJournal attempt) ∧
      ((b.retryJournal attempt).stage.past = true → Piece w.src (b.retryJournal attempt)) := by
    intro b attempt
    refine ⟨copying_of_not ?_, ?_⟩
    · simp only [Backup.retryJournal]
      split <;> rfl
    · simp only [Backup.retryJournal]
      split <;> exact fun hp => nomatch hp
  have hidle : w.src.pending = [] → Files w.src ∧ w.src.committed <+: w.src.log := by
    intro hpend
    rw [← finish_of_idle hpend]
    refine ⟨hs.files, ?_⟩
    rw [(finish_frame w.src).1]
    exact hs.committed
  unfold Backup.copy
  unfold Copying at h
  cases hst : w.job.stage with
  | ready => exact ⟨copying_of_not rfl, fun hp => nomatch hp⟩
  | list attempt =>
    have hpend : w.src.pending = [] := by
      have ho' := ho
      simp only [World.Orderly, hst] at ho'
      exact ho'
    obtain ⟨hf, hc⟩ := hidle hpend
    have hl : Listed w.src (w.job.listJournal w.src attempt) w.src.segs :=
      ⟨hpend, rfl, le_rfl, w.src.purged, [], by simp [Backup.listJournal], rfl,
        hc.length_le.trans (Nat.le_of_eq (length_log w.src))⟩
    exact @Listed.next V _ _ _ hl hf hc attempt (by simp [Backup.listJournal, hf.intent])
  | files attempt left =>
    rw [hst] at h
    obtain ⟨f, todo, hl, hleft⟩ := h
    obtain ⟨hf, hc⟩ := hidle hl.idle
    subst hleft
    change Copying w.src (w.job.openFile w.src attempt f.baseSeq (todo.map (.seg ·.baseSeq))) ∧
      ((w.job.openFile w.src attempt f.baseSeq (todo.map (.seg ·.baseSeq))).stage.past = true →
        Piece w.src (w.job.openFile w.src attempt f.baseSeq (todo.map (.seg ·.baseSeq))))
    unfold Backup.openFile
    cases hfind : w.src.segs.find? (·.baseSeq = f.baseSeq) with
    | none => exact hretry w.job attempt
    | some g =>
      obtain ⟨front, back, hall, -⟩ := hl.split
      have hmem : f ∈ w.src.purged ++ w.src.segs := by
        rw [hall]
        simp
      have hg := eq_of_find hf hmem hfind
      subst hg
      refine ⟨?_, fun hp => nomatch hp⟩
      exact ⟨g, todo, ⟨hl.idle, hl.noIntent, hl.commit, hl.split⟩, rfl, rfl, List.nil_prefix, rfl⟩
  | reading attempt ino baseSeq left =>
    rw [hst] at h
    obtain ⟨f, todo, hl, rfl, rfl, hgot, rfl⟩ := h
    obtain ⟨hf, hc⟩ := hidle hl.idle
    obtain ⟨front, back, hall, hbase, hend⟩ := hl.split
    have hmem : f ∈ w.src.purged ++ w.src.segs := by
      rw [hall]
      simp
    dsimp only
    rw [content_eq hf hmem]
    obtain ⟨rest, hrest⟩ := hgot
    cases hk : f.recs[w.job.got.length]? with
    | some k =>
      refine ⟨?_, fun hp => nomatch hp⟩
      refine ⟨f, todo, ⟨hl.idle, hl.noIntent, hl.commit, hl.split⟩, rfl, rfl, ?_, rfl⟩
      rw [← hrest, List.getElem?_append_right le_rfl, Nat.sub_self] at hk
      cases rest with
      | nil => cases hk
      | cons x rest =>
        cases hk
        exact ⟨rest, by rw [← hrest]; simp⟩
    | none =>
      have hgot : w.job.got = f.recs := by
        rw [← hrest, List.getElem?_append_right le_rfl, Nat.sub_self] at hk
        cases rest with
        | nil => rw [← hrest, append_nil]
        | cons x rest => cases hk
      have hfile : (⟨f.ino, f.baseSeq, w.job.got⟩ : SegFile) = f := by rw [hgot]
      have hl' : Listed w.src (w.job.closeFile attempt f.ino f.baseSeq (todo.map (.seg ·.baseSeq))) todo := by
        refine ⟨hl.idle, hl.noIntent, hl.commit, front, back, ?_, hbase, ?_⟩
        · rw [hall, Backup.closeFile, hfile]
          simp
        · refine hend.trans (Nat.le_of_eq ?_)
          rw [Backup.closeFile, hfile]
          simp
      exact @Listed.next V _ _ _ hl' hf hc attempt rfl
  | slots _ | ids | family _ _ _ | artifacts _ _ _ _ | clusterDir | finished =>
    rw [hst] at hpast
    cases hpast
  | failed => exact ⟨copying_of_not (by rw [hst]; rfl), fun hp => by rw [hst] at hp; cases hp⟩

/-! ## The artifacts -/

def positions (xs : List (ℕ × Bytes)) : List ℕ := xs.map Prod.fst

/-- Every declared row has an artifact that fits the listed journal, in its directory
    until that is copied and in the copy after. -/
structure Served (rows : List ℕ) (s : Instance V) (b : Backup V) : Prop where
  source : ∀ f ∈ families rows, b.stage.awaits f →
    Covers b.listedBase b.listedCommit (positions (s.arts f))
  current : ∀ attempt f names left, b.stage = .artifacts attempt f names left → f ∈ families rows →
    Covers b.listedBase b.listedCommit (names ++ positions (b.out.arts f))
  copied : ∀ f ∈ families rows, b.stage.past = true → ¬ b.stage.awaits f →
    Covers b.listedBase b.listedCommit (positions (b.out.arts f))
  images : ∀ f, ∀ x ∈ b.out.arts f, x.1 ≤ s.committed.length ∧ x.2 = s.committed.take x.1

namespace Served

variable {rows : List ℕ} {w : World V}

theorem step (h : Served rows w.src w.job) (hs : Sound rows w.src) {st : BackupStep V}
    (hp : w.Possible rows st) (ho : w.Orderly rows st) (hst : ∀ torn, st ≠ .copy torn) :
    Served rows (w.exec st).src w.job := by
  have hgrow := (hs.step hp).2
  refine ⟨?_, h.current, h.copied, fun f x hx => take_of_prefix hgrow (h.images f x hx)⟩
  intro f hf hawait
  have hcov := h.source f hf hawait
  cases st with
  | copy torn => exact absurd rfl (hst torn)
  | startCut pos roll =>
    show Covers _ _ (positions ((w.src.startCut pos roll).arts f))
    rw [(startCut_frame w.src pos roll).2.2.1]
    exact hcov
  | cutOp =>
    show Covers _ _ (positions (w.src.cutOp.arts f))
    rw [(cutOp_frame w.src).2.2.1]
    exact hcov
  | publish g pos =>
    refine hcov.mono ?_
    intro p hp'
    obtain ⟨x, hx, rfl⟩ := List.mem_map.mp hp'
    refine List.mem_map_of_mem ?_
    show x ∈ update w.src.arts g (w.src.arts g ++ [(pos, w.src.committed.take pos)]) f
    by_cases hg : f = g
    · subst hg
      rw [update_self]
      exact List.mem_append_left _ hx
    · rw [update_of_ne hg]
      exact hx
  | retain g pos =>
    by_cases hg : f = g
    · subst hg
      refine (ho hf hawait).mono ?_
      intro p hp'
      obtain ⟨hp', hne⟩ := List.mem_filter.mp hp'
      obtain ⟨x, hx, rfl⟩ := List.mem_map.mp hp'
      exact List.mem_map_of_mem (mem_retain.mpr ⟨hx, fun _ => by simpa using hne⟩)
    · show Covers _ _ (positions (update w.src.arts g _ f))
      rw [update_of_ne hg]
      exact hcov
  | roll | record _ | purge _ | commit _ | moveFloor _ | startVote _ | endVote => exact hcov

variable {s : Instance V}

theorem early {b : Backup V} (hst : ∀ f, b.stage.awaits f)
    (hne : ∀ attempt f names left, b.stage ≠ .artifacts attempt f names left)
    (hcov : ∀ f ∈ families rows, Covers b.listedBase b.listedCommit (positions (s.arts f)))
    (himg : ∀ f, ∀ x ∈ b.out.arts f, x.1 ≤ s.committed.length ∧ x.2 = s.committed.take x.1) :
    Served rows s b :=
  ⟨fun f hf _ => hcov f hf, fun a f names left h => absurd h (hne a f names left),
    fun f _ _ hna => absurd (hst f) hna, himg⟩

theorem idle {b : Backup V} (hst : b.stage = .ready ∨ (∃ a, b.stage = .list a) ∨ b.stage = .failed)
    (himg : ∀ f, ∀ x ∈ b.out.arts f, x.1 ≤ s.committed.length ∧ x.2 = s.committed.take x.1) :
    Served rows s b := by
  rcases hst with h | ⟨a, h⟩ | h <;> refine ⟨?_, ?_, ?_, himg⟩ <;> rw [h]
  all_goals first
    | exact fun _ _ ha => ha.elim
    | exact fun _ _ _ _ he => nomatch he
    | exact fun _ _ hp => nomatch hp

/-- The copier in `journal/`: nothing is needed of the directories yet. -/
theorem journal {b b' : Backup V} (h : Served rows s b) (hall : ∀ f, b.stage.awaits f)
    (hb : b'.listedBase = b.listedBase) (hc : b'.listedCommit = b.listedCommit)
    (ha : b'.out.arts = b.out.arts)
    (hst : ((∀ f, b'.stage.awaits f) ∧ ∀ attempt f names left, b'.stage ≠ .artifacts attempt f names left) ∨
      (∃ a, b'.stage = .list a) ∨ b'.stage = .failed) : Served rows s b' := by
  have himg : ∀ f, ∀ x ∈ b'.out.arts f, x.1 ≤ s.committed.length ∧ x.2 = s.committed.take x.1 := by
    rw [ha]
    exact h.images
  rcases hst with ⟨hst, hne⟩ | hst
  · refine early hst hne ?_ himg
    rw [hb, hc]
    exact fun f hf => h.source f hf (hall f)
  · exact idle (.inr hst) himg

theorem nextFile_early (attempt : ℕ) (left : List Name) :
    (∀ f, (Backup.nextFile attempt left).awaits f) ∧
      ∀ a f names rest, Backup.nextFile attempt left ≠ .artifacts a f names rest := by
  unfold Backup.nextFile
  split <;> exact ⟨fun _ => trivial, fun _ _ _ _ he => nomatch he⟩

theorem nextFamily_awaits (a : ℕ) (f : Family) (names : List ℕ) (left : List Family) (g : Family) :
    ((Backup.nextFamily f left).awaits g → (Stage.artifacts a f names left).awaits g) ∧
      ((Stage.artifacts a f names left).awaits g → ¬ (Backup.nextFamily f left).awaits g → g = f) := by
  cases left with
  | cons h left =>
    simp only [Backup.nextFamily, Stage.awaits, List.mem_cons]
    constructor
    · rintro (rfl | h | h)
      · exact .inr (.inl (.inl rfl))
      · exact .inr (.inl (.inr h))
      · exact .inr (.inr h)
    · rintro (h | (h | h) | h) hn
      · exact h
      · exact absurd (.inl h) hn
      · exact absurd (.inr (.inl h)) hn
      · exact absurd (.inr (.inr h)) hn
  | nil =>
    simp only [Backup.nextFamily]
    split
    · rename_i hf
      subst hf
      refine ⟨fun h => h.elim, ?_⟩
      rintro (h | h | h) -
      · exact h
      · cases h
      · exact h
    · refine ⟨fun h => .inr (.inr h), ?_⟩
      rintro (h | h | h) hn
      · exact h
      · cases h
      · exact absurd h hn

theorem nextFamily_ne (f : Family) (left : List Family) (a : ℕ) (g : Family) (names : List ℕ)
    (rest : List Family) : Backup.nextFamily f left ≠ .artifacts a g names rest := by
  cases left with
  | cons h left => exact fun he => nomatch he
  | nil =>
    simp only [Backup.nextFamily]
    split <;> exact fun he => nomatch he

theorem base_zero {lo hi : ℕ} {xs : List (ℕ × Bytes)} (h : Covers lo hi (positions xs)) (hxs : xs = []) :
    lo = 0 := by
  subst hxs
  rcases h with h | ⟨p, hp, -⟩
  · exact h
  · cases hp

/-- The directory of `f` is done, or was empty. -/
theorem next {b b' : Backup V} (h : Served rows s b) (a : ℕ) (f : Family) (names : List ℕ)
    (left : List Family) (hb : ∀ g, b.stage.awaits g ↔ (Stage.artifacts a f names left).awaits g)
    (hpast : b.stage.past = true) (hst : b'.stage = Backup.nextFamily f left)
    (hbase : b'.listedBase = b.listedBase) (hcommit : b'.listedCommit = b.listedCommit)
    (hout : ∀ g ≠ f, b'.out.arts g = b.out.arts g)
    (hf : f ∈ families rows → Covers b.listedBase b.listedCommit (positions (b'.out.arts f)))
    (himg : ∀ f, ∀ x ∈ b'.out.arts f, x.1 ≤ s.committed.length ∧ x.2 = s.committed.take x.1) :
    Served rows s b' := by
  refine ⟨?_, ?_, ?_, himg⟩
  · intro g hg ha
    rw [hst] at ha
    rw [hbase, hcommit]
    exact h.source g hg ((hb g).mpr ((nextFamily_awaits a f names left g).1 ha))
  · intro a' g names' rest he
    rw [hst] at he
    exact absurd he (nextFamily_ne f left a' g names' rest)
  · intro g hg _ hna
    rw [hst] at hna
    rw [hbase, hcommit]
    by_cases ha : b.stage.awaits g
    · have hgf := (nextFamily_awaits a f names left g).2 ((hb g).mp ha) hna
      subst hgf
      exact hf hg
    · have hgf : g ≠ f := by
        rintro rfl
        exact ha ((hb g).mpr (.inl rfl))
      rw [hout g hgf]
      exact h.copied g hg hpast ha

/-- The directory of `f` is still to be copied. -/
theorem again {b b' : Backup V} (h : Served rows s b) {f : Family}
    (hb : ∀ g, b'.stage.awaits g ↔ b.stage.awaits g) (hf : b.stage.awaits f)
    (hpast : b.stage.past = true) (hbase : b'.listedBase = b.listedBase)
    (hcommit : b'.listedCommit = b.listedCommit) (hout : ∀ g ≠ f, b'.out.arts g = b.out.arts g)
    (hcur : ∀ a g names left, b'.stage = .artifacts a g names left → g ∈ families rows →
      Covers b.listedBase b.listedCommit (names ++ positions (b'.out.arts g)))
    (himg : ∀ f, ∀ x ∈ b'.out.arts f, x.1 ≤ s.committed.length ∧ x.2 = s.committed.take x.1) :
    Served rows s b' := by
  refine ⟨?_, ?_, ?_, himg⟩
  · intro g hg ha
    rw [hbase, hcommit]
    exact h.source g hg ((hb g).mp ha)
  · rw [hbase, hcommit]
    exact hcur
  · intro g hg _ hna
    have hna' : ¬ b.stage.awaits g := fun ha => hna ((hb g).mpr ha)
    have hgf : g ≠ f := by
      rintro rfl
      exact hna' hf
    rw [hbase, hcommit, hout g hgf]
    exact h.copied g hg hpast hna'

theorem images_update {arts : Family → List (ℕ × Bytes)}
    (h : ∀ f, ∀ x ∈ arts f, x.1 ≤ s.committed.length ∧ x.2 = s.committed.take x.1) (f : Family)
    (xs : List (ℕ × Bytes)) (hxs : ∀ x ∈ xs, x.1 ≤ s.committed.length ∧ x.2 = s.committed.take x.1) :
    ∀ g, ∀ x ∈ update arts f xs g, x.1 ≤ s.committed.length ∧ x.2 = s.committed.take x.1 := by
  intro g x hx
  by_cases hg : g = f
  · subst hg
    rw [update_self] at hx
    exact hxs x hx
  · rw [update_of_ne hg] at hx
    exact h g x hx

/-- The listing of `journal/`: the set at the floor covers it. -/
theorem covers_listed (hs : Sound rows s) (hf : Files s) {f : Family} (hfam : f ∈ families rows) :
    Covers s.firstBase s.committed.length (positions (s.arts f)) := by
  by_cases h0 : s.firstBase = 0
  · exact .inl h0
  · have hbase := hf.base
    exact .inr ⟨s.floor, hs.held.complete (by omega) f hfam, hbase, hs.held.floor⟩

theorem copy (h : Served rows w.src w.job) (hs : Sound rows w.src) {torn : Bool}
    (ho : w.Orderly rows (.copy torn)) : Served rows w.src (w.job.copy w.src torn) := by
  have hretry : ∀ attempt, (∀ f, w.job.stage.awaits f) → Served rows w.src (w.job.retryJournal attempt) := by
    intro attempt hall
    refine h.journal hall rfl rfl rfl (.inr ?_)
    simp only [Backup.retryJournal]
    split
    · exact .inl ⟨_, rfl⟩
    · exact .inr rfl
  unfold Backup.copy
  cases hst : w.job.stage with
  | ready => exact idle (.inr (.inl ⟨1, rfl⟩)) h.images
  | list attempt =>
    have hpend : w.src.pending = [] := by
      have ho' := ho
      simp only [World.Orderly, hst] at ho'
      exact ho'
    have hf : Files w.src := finish_of_idle hpend ▸ hs.files
    exact early (nextFile_early attempt _).1 (nextFile_early attempt _).2
      (fun f hfam => covers_listed hs hf hfam)
      h.images
  | files attempt left =>
    have hall : ∀ f, w.job.stage.awaits f := by
      rw [hst]
      exact fun _ => trivial
    cases left with
    | nil => exact h
    | cons name left =>
      cases name with
      | seg n =>
        dsimp only
        unfold Backup.openFile
        split
        · exact hretry attempt hall
        · exact h.journal hall rfl rfl rfl (.inl ⟨fun _ => trivial, fun _ _ _ _ he => nomatch he⟩)
      | intent =>
        dsimp only
        unfold Backup.copyIntent
        split
        · exact hretry attempt hall
        · exact h.journal hall rfl rfl rfl (.inl (nextFile_early attempt left))
  | reading attempt ino baseSeq left =>
    have hall : ∀ f, w.job.stage.awaits f := by
      rw [hst]
      exact fun _ => trivial
    dsimp only
    split
    · exact h.journal hall rfl rfl rfl (.inl ⟨fun _ => trivial, fun _ _ _ _ he => nomatch he⟩)
    · exact h.journal hall rfl rfl rfl (.inl (nextFile_early attempt left))
  | slots second =>
    have hall : ∀ f, w.job.stage.awaits f := by
      rw [hst]
      exact fun _ => trivial
    refine h.journal hall rfl rfl rfl (.inl ?_)
    cases second <;> exact ⟨fun _ => trivial, fun _ _ _ _ he => nomatch he⟩
  | ids =>
    have hcov : ∀ f ∈ families rows, Covers w.job.listedBase w.job.listedCommit (positions (w.src.arts f)) :=
      fun f hf => h.source f hf (by rw [hst]; trivial)
    have hnone : ∀ f ∈ families rows, f ≠ .cluster → (∀ id ∈ w.src.dirs.filterMap Family.id?, f ≠ .row id) →
        w.job.listedBase = 0 := by
      intro f hf hne hids
      refine base_zero (hcov f hf) ?_
      by_contra harts
      cases f with
      | cluster => exact hne rfl
      | row id =>
        exact hids id (List.mem_filterMap.mpr ⟨.row id, hs.held.dirs _ harts, rfl⟩) rfl
    dsimp only [Backup.listIds]
    cases hids : w.src.dirs.filterMap Family.id? with
    | nil =>
      rw [hids] at hnone
      refine ⟨fun f hf _ => hcov f hf, (fun _ _ _ _ he => nomatch he), ?_, h.images⟩
      intro f hf _ hna
      exact .inl (hnone f hf hna (fun _ h' => nomatch h'))
    | cons id left =>
      rw [hids] at hnone
      refine ⟨fun f hf _ => hcov f hf, (fun _ _ _ _ he => nomatch he), ?_, h.images⟩
      intro f hf _ hna
      refine .inl (hnone f hf (fun he => hna (.inr (.inr he))) ?_)
      rintro i hi rfl
      rcases List.mem_cons.mp hi with rfl | hi
      · exact hna (.inl rfl)
      · exact hna (.inr (.inl (List.mem_map_of_mem hi)))
  | family attempt f left =>
    have hpast : w.job.stage.past = true := by
      rw [hst]
      rfl
    have hawait : w.job.stage.awaits f := by
      rw [hst]
      exact .inl rfl
    have himg := images_update h.images f [] (fun _ hx => nomatch hx)
    dsimp only [Backup.listFamily]
    by_cases hnil : w.src.arts f = []
    · refine h.next attempt f [] left (fun g => by rw [hst]; exact Iff.rfl)
        hpast (if_pos hnil) rfl rfl (fun g hg => update_of_ne hg _ _) ?_ himg
      exact fun hf => .inl (base_zero (h.source f hf hawait) hnil)
    · refine h.again (f := f) (fun g => ?_) hawait hpast rfl rfl (fun g hg => update_of_ne hg _ _) ?_ himg
      · rw [hst, if_neg hnil]
        exact Iff.rfl
      · intro a g names rest he hg
        dsimp only at he ⊢
        rw [if_neg hnil] at he
        cases he
        refine (h.source f hg hawait).mono ?_
        exact fun p hp => List.mem_append_left _ hp
  | artifacts attempt f names left =>
    cases names with
    | nil => exact h
    | cons pos names =>
      have hpast : w.job.stage.past = true := by
        rw [hst]
        rfl
      have hawait : w.job.stage.awaits f := by
        rw [hst]
        exact .inl rfl
      dsimp only
      unfold Backup.copyArtifact
      cases hfind : (w.src.arts f).find? (·.1 = pos) with
      | none =>
        have himg := images_update h.images f [] (fun _ hx => nomatch hx)
        dsimp only [Backup.retryFamily]
        by_cases hlast : attempt < maxCopyRetries
        · refine h.again (f := f) (fun g => ?_) hawait hpast rfl rfl (fun g hg => update_of_ne hg _ _) ?_
            himg
          · rw [hst, if_pos hlast]
            exact Iff.rfl
          · intro a g names' rest he
            dsimp only at he
            rw [if_pos hlast] at he
            cases he
        · exact idle (.inr (.inr (if_neg hlast))) himg
      | some x =>
        have hx := List.mem_of_find?_eq_some hfind
        have hxp : x.1 = pos := by simpa using List.find?_some hfind
        have himg := images_update h.images f (w.job.out.arts f ++ [x]) (by
          refine List.forall_mem_snoc (h.images f) ?_
          exact hs.held.arts f x hx)
        have hcur : f ∈ families rows → Covers w.job.listedBase w.job.listedCommit
            (names ++ positions (w.job.out.arts f ++ [x])) := by
          intro hf
          refine (h.current attempt f (pos :: names) left hst hf).mono ?_
          intro p hp
          rw [List.cons_append, List.mem_cons, List.mem_append] at hp
          simp only [positions, List.map_append, List.mem_append, map_cons, map_nil,
            List.mem_singleton, hxp]
          rcases hp with hp | hp | hp
          · exact .inr (.inr hp)
          · exact .inl hp
          · exact .inr (.inl hp)
        by_cases hnil : names = []
        · refine h.next attempt f [] left
            (fun g => by rw [hst]; exact Iff.rfl) hpast (if_pos hnil) rfl rfl
            (fun g hg => update_of_ne hg _ _) ?_ himg
          intro hf
          dsimp only
          rw [update_self]
          have hc := hcur hf
          rw [hnil] at hc
          exact hc
        · refine h.again (f := f) (fun g => ?_) hawait hpast rfl rfl (fun g hg => update_of_ne hg _ _) ?_
            himg
          · rw [hst, if_neg hnil]
            exact Iff.rfl
          · intro a g names' rest he hg
            dsimp only at he ⊢
            rw [if_neg hnil] at he
            cases he
            rw [update_self]
            exact hcur hg
  | clusterDir =>
    have hpast : w.job.stage.past = true := by
      rw [hst]
      rfl
    have hsrc : ∀ f ∈ families rows, f = .cluster →
        Covers w.job.listedBase w.job.listedCommit (positions (w.src.arts f)) :=
      fun f hf hc => h.source f hf (by rw [hst]; exact hc)
    have hcop : ∀ f ∈ families rows, f ≠ .cluster →
        Covers w.job.listedBase w.job.listedCommit (positions (w.job.out.arts f)) :=
      fun f hf hc => h.copied f hf hpast (by rw [hst]; exact hc)
    dsimp only
    by_cases hd : Family.cluster ∈ w.src.dirs
    · rw [if_pos hd]
      refine ⟨?_, (fun _ _ _ _ he => nomatch he), ?_, h.images⟩
      · rintro f hf (hc | hc | hc)
        · exact hsrc f hf hc
        · cases hc
        · exact hsrc f hf hc
      · exact fun f hf _ hna => hcop f hf fun hc => hna (.inl hc)
    · rw [if_neg hd]
      refine ⟨fun _ _ ha => ha.elim, (fun _ _ _ _ he => nomatch he), ?_, h.images⟩
      intro f hf _ _
      by_cases hc : f = .cluster
      · refine .inl (base_zero (hsrc f hf hc) ?_)
        by_contra hne
        exact hd (hc ▸ hs.held.dirs f hne)
      · exact hcop f hf hc
  | finished | failed => exact h

end Served

/-! ## The vote -/

/-- The slots are read. -/
def Stage.voted : Stage → Bool
  | .ids | .family .. | .artifacts .. | .clusterDir | .finished => true
  | _ => false

/-- What the copied slots hold against the votes that were stored. -/
structure Ballot (v : VoteFile V) (b : Backup V) : Prop where
  begun : b.stage ≠ .ready → b.voteBefore ≤ v.gen
  stored : ∀ c g x, b.out.slot c = some (g, x) → v.stored[g]? = some x
  /-- The first slot was read: it held the last vote, or the second slot does not go
      back behind that. -/
  first : b.stage = .slots true → b.voteBefore ≤ b.voteAtFirst ∧ b.voteAtFirst ≤ v.gen ∧
    ((∃ x, b.out.slot false = some (b.voteAtFirst, x)) ∨
      (∀ g x, v.slot true = some (g, x) → b.voteAtFirst ≤ g) ∧
        (v.gen = b.voteAtFirst → v.nextSlot = false))
  read : b.stage.voted = true → ∃ c g x, b.out.slot c = some (g, x) ∧ b.voteBefore ≤ g

namespace Ballot

variable {rows : List ℕ} {w : World V} {v : VoteFile V} {b : Backup V}

theorem startStore (h : Ballot v b) (x : V) : Ballot (v.startStore x) b := by
  refine { h with first := ?_ }
  intro hst
  obtain ⟨h1, h2, h3⟩ := h.first hst
  refine ⟨h1, h2, h3.imp_right ?_⟩
  rintro ⟨hslot, hnext⟩
  refine ⟨?_, hnext⟩
  intro g y hy
  dsimp only [VoteFile.startStore] at hy
  by_cases hn : true = v.nextSlot
  · rw [← hn, update_self] at hy
    cases hy
  · rw [update_of_ne hn] at hy
    exact hslot g y hy

theorem endStore (h : Ballot v b) : Ballot v.endStore b := by
  unfold VoteFile.endStore
  cases hw : v.writing with
  | none => exact h
  | some x =>
    refine ⟨fun hr => Nat.le_succ_of_le (h.begun hr), ?_, ?_, h.read⟩
    · intro c g y hc
      have hg := h.stored c g y hc
      exact (List.getElem?_append_left (List.getElem?_eq_some_iff.mp hg).1).trans hg
    · intro hst
      obtain ⟨h1, h2, h3⟩ := h.first hst
      refine ⟨h1, Nat.le_succ_of_le h2, h3.imp_right ?_⟩
      rintro ⟨hslot, -⟩
      refine ⟨?_, ?_⟩
      · intro g y hy
        dsimp only at hy
        by_cases hn : true = v.nextSlot
        · rw [← hn, update_self, Option.some.injEq, Prod.mk.injEq] at hy
          omega
        · rw [update_of_ne hn] at hy
          exact hslot g y hy
      · intro hg
        dsimp only at hg
        omega

theorem step (h : Ballot w.src.vote w.job) {st : BackupStep V} (hst : ∀ torn, st ≠ .copy torn) :
    Ballot (w.exec st).src.vote w.job := by
  cases st with
  | copy torn => exact absurd rfl (hst torn)
  | startCut pos roll =>
    show Ballot (w.src.startCut pos roll).vote w.job
    rw [(startCut_frame w.src pos roll).2.2.2.2]
    exact h
  | cutOp =>
    show Ballot w.src.cutOp.vote w.job
    rw [(cutOp_frame w.src).2.2.2.2]
    exact h
  | startVote x => exact h.startStore x
  | endVote => exact h.endStore
  | roll | record _ | purge _ | commit _ | publish _ _ | moveFloor _ | retain _ _ => exact h

theorem congr (h : Ballot v b) {b' : Backup V} (hslot : b'.out.slot = b.out.slot)
    (hbefore : b'.voteBefore = b.voteBefore) (hready : b.stage ≠ .ready) (hst : b'.stage ≠ .slots true)
    (hv : b'.stage.voted = true → b.stage.voted = true) : Ballot v b' := by
  refine ⟨fun _ => ?_, ?_, fun he => absurd he hst, ?_⟩
  · rw [hbefore]
    exact h.begun hready
  · rw [hslot]
    exact h.stored
  · intro hv'
    rw [hslot, hbefore]
    exact h.read (hv hv')

theorem nextFile_spec (attempt : ℕ) (left : List Name) :
    Backup.nextFile attempt left ≠ .slots true ∧ (Backup.nextFile attempt left).voted = false := by
  unfold Backup.nextFile
  split <;> exact ⟨(fun he => nomatch he), rfl⟩

theorem nextFamily_spec (f : Family) (left : List Family) : Backup.nextFamily f left ≠ .slots true := by
  cases left with
  | cons g left => exact fun he => nomatch he
  | nil =>
    simp only [Backup.nextFamily]
    split <;> exact fun he => nomatch he

theorem readFirst (h : Ballot w.src.vote w.job) (hv : w.src.vote.Sound) (hready : w.job.stage ≠ .ready) :
    Ballot w.src.vote (w.job.readSlot w.src false) := by
  refine ⟨fun _ => h.begun hready, ?_, ?_, fun hr => nomatch hr⟩
  · intro c g x hc
    dsimp only [Backup.readSlot] at hc
    by_cases hcf : c = false
    · rw [hcf, update_self] at hc
      exact hv.stored false g x hc
    · rw [update_of_ne hcf] at hc
      exact h.stored c g x hc
  · intro _
    obtain ⟨x, hx⟩ := hv.last
    refine ⟨h.begun hready, le_rfl, ?_⟩
    by_cases hn : w.src.vote.nextSlot = true
    · rw [hn] at hx
      refine .inl ⟨x, ?_⟩
      dsimp only [Backup.readSlot]
      rw [update_self]
      exact hx
    · rw [Bool.not_eq_true] at hn
      rw [hn] at hx
      refine .inr ⟨?_, fun _ => hn⟩
      intro g y hy
      rw [Bool.not_false] at hx
      rw [hx] at hy
      cases hy
      exact le_rfl

theorem readSecond (h : Ballot w.src.vote w.job) (hv : w.src.vote.Sound) (hst : w.job.stage = .slots true)
    (ho : (w.src.vote.slot true).isSome ∨ w.src.vote.gen = w.job.voteAtFirst) :
    Ballot w.src.vote (w.job.readSlot w.src true) := by
  obtain ⟨h1, h2, h3⟩ := h.first hst
  refine ⟨fun _ => h.begun (by rw [hst]; exact fun he => nomatch he), ?_, (fun he => nomatch he), ?_⟩
  · intro c g x hc
    dsimp only [Backup.readSlot] at hc
    by_cases hcf : c = true
    · rw [hcf, update_self] at hc
      exact hv.stored true g x hc
    · rw [update_of_ne hcf] at hc
      exact h.stored c g x hc
  · intro _
    rcases h3 with ⟨x, hx⟩ | ⟨hslot, hnext⟩
    · refine ⟨false, w.job.voteAtFirst, x, ?_, h1⟩
      dsimp only [Backup.readSlot]
      rw [update_of_ne (by simp)]
      exact hx
    · have hsome : (w.src.vote.slot true).isSome := by
        refine ho.elim id fun hg => ?_
        obtain ⟨x, hx⟩ := hv.last
        rw [hnext hg, Bool.not_false] at hx
        rw [hx]
        rfl
      obtain ⟨⟨g, x⟩, hx⟩ := Option.isSome_iff_exists.mp hsome
      refine ⟨true, g, x, ?_, h1.trans (hslot g x hx)⟩
      dsimp only [Backup.readSlot]
      rw [update_self]
      exact hx

theorem copy (h : Ballot w.src.vote w.job) (hv : w.src.vote.Sound) {torn : Bool}
    (ho : w.Orderly rows (.copy torn)) : Ballot w.src.vote (w.job.copy w.src torn) := by
  unfold Backup.copy
  cases hst : w.job.stage with
  | ready =>
    exact ⟨fun _ => le_rfl, h.stored, (fun he => nomatch he), fun he => nomatch he⟩
  | slots second =>
    cases second with
    | false => exact h.readFirst hv (by rw [hst]; exact fun he => nomatch he)
    | true =>
      refine h.readSecond hv hst ?_
      have ho' := ho
      simp only [World.Orderly, hst] at ho'
      exact ho'
  | list attempt =>
    refine h.congr rfl rfl (by rw [hst]; exact fun he => nomatch he) (nextFile_spec attempt _).1 ?_
    intro hv'
    dsimp only [Backup.listJournal] at hv'
    rw [(nextFile_spec attempt _).2] at hv'
    cases hv'
  | files attempt left =>
    have hready : w.job.stage ≠ .ready := by
      rw [hst]
      exact fun he => nomatch he
    have hretry : Ballot w.src.vote (w.job.retryJournal attempt) := by
      refine h.congr rfl rfl hready ?_ ?_ <;> simp only [Backup.retryJournal] <;> split
      all_goals exact fun he => nomatch he
    cases left with
    | nil => exact h
    | cons name left =>
      cases name with
      | seg n =>
        dsimp only
        unfold Backup.openFile
        split
        · exact hretry
        · exact h.congr rfl rfl hready (fun he => nomatch he) (fun he => nomatch he)
      | intent =>
        dsimp only
        unfold Backup.copyIntent
        split
        · exact hretry
        · refine h.congr rfl rfl hready (nextFile_spec attempt left).1 ?_
          intro hv'
          dsimp only at hv'
          rw [(nextFile_spec attempt left).2] at hv'
          cases hv'
  | reading attempt ino baseSeq left =>
    have hready : w.job.stage ≠ .ready := by
      rw [hst]
      exact fun he => nomatch he
    dsimp only
    split
    · exact h.congr rfl rfl hready (fun he => nomatch he) (fun he => nomatch he)
    · refine h.congr rfl rfl hready (nextFile_spec attempt left).1 ?_
      intro hv'
      dsimp only [Backup.closeFile] at hv'
      rw [(nextFile_spec attempt left).2] at hv'
      cases hv'
  | ids =>
    refine h.congr rfl rfl (by rw [hst]; exact fun he => nomatch he) ?_ (fun _ => by rw [hst]; rfl)
    dsimp only [Backup.listIds]
    split <;> exact fun he => nomatch he
  | family attempt f left =>
    refine h.congr rfl rfl (by rw [hst]; exact fun he => nomatch he) ?_ (fun _ => by rw [hst]; rfl)
    dsimp only [Backup.listFamily]
    split
    · exact nextFamily_spec f left
    · exact fun he => nomatch he
  | artifacts attempt f names left =>
    have hready : w.job.stage ≠ .ready := by
      rw [hst]
      exact fun he => nomatch he
    cases names with
    | nil => exact h
    | cons pos names =>
      dsimp only
      unfold Backup.copyArtifact
      split
      · refine h.congr rfl rfl hready ?_ (fun _ => by rw [hst]; rfl)
        dsimp only [Backup.retryFamily]
        split <;> exact fun he => nomatch he
      · refine h.congr rfl rfl hready ?_ (fun _ => by rw [hst]; rfl)
        dsimp only
        split
        · exact nextFamily_spec f left
        · exact fun he => nomatch he
  | clusterDir =>
    refine h.congr rfl rfl (by rw [hst]; exact fun he => nomatch he) ?_ (fun _ => by rw [hst]; rfl)
    dsimp only
    split <;> exact fun he => nomatch he
  | finished | failed => exact h

theorem vote_spec {a : Artifact V} {c : Bool} {g : ℕ} {x : Option V} (h : a.slot c = some (g, x)) :
    ∃ c' g' x', a.slot c' = some (g', x') ∧ a.vote = some (g', x') ∧ g ≤ g' := by
  unfold Artifact.vote
  cases h0 : a.slot false with
  | none =>
    cases c with
    | false =>
      rw [h0] at h
      cases h
    | true => exact ⟨true, g, x, h, by rw [h], le_rfl⟩
  | some y =>
    cases h1 : a.slot true with
    | none =>
      cases c with
      | false =>
        rw [h0] at h
        cases h
        exact ⟨false, g, x, h0, rfl, le_rfl⟩
      | true =>
        rw [h1] at h
        cases h
    | some z =>
      dsimp only
      by_cases hle : z.1 ≤ y.1
      · rw [if_pos hle]
        refine ⟨false, y.1, y.2, h0, rfl, ?_⟩
        cases c with
        | false =>
          rw [h0] at h
          cases h
          exact le_rfl
        | true =>
          rw [h1] at h
          cases h
          exact hle
      · rw [if_neg hle]
        refine ⟨true, z.1, z.2, h1, rfl, ?_⟩
        cases c with
        | false =>
          rw [h0] at h
          cases h
          exact Nat.le_of_lt (Nat.not_le.mp hle)
        | true =>
          rw [h1] at h
          cases h
          exact le_rfl

end Ballot

/-! ## Runs -/

/-- The copy is one history: its journal is a piece of the log of `t`, and every declared
    row and the cluster row can be rebuilt to the end of the piece, from an artifact of
    the copy and what the piece has behind it, or from a piece that begins at 0. -/
structure OneHistory (rows : List ℕ) (t : Instance V) (a : Artifact V) : Prop where
  piece : a.blocks <:+: t.records ∧ bytesOf a.blocks = (t.log.drop a.firstBase).take (a.lastPos - a.firstBase)
  rebuilt : ∀ f ∈ families rows, (a.firstBase = 0 ∧ bytesOf a.blocks = t.log.take a.lastPos) ∨
    ∃ x ∈ a.arts f, a.firstBase ≤ x.1 ∧ x.1 ≤ a.lastPos ∧
      x.2 ++ (bytesOf a.blocks).drop (x.1 - a.firstBase) = t.log.take a.lastPos

/-- A node that may run, and no backup yet. -/
structure Starts (rows : List ℕ) (w : World V) : Prop where
  sound : Sound rows w.src
  job : w.job = .start

variable {rows : List ℕ}

theorem Piece.bounds {t : Instance V} (h : Piece t b) :
    b.out.blocks = [] ∧ b.out.firstBase = 0 ∧ b.out.lastPos = 0 ∨
      ∃ front back, t.records = front ++ (b.out.blocks ++ back) ∧
        (t.below ++ bytesOf front).length = b.out.firstBase ∧ b.out.firstBase = b.listedBase ∧
        b.out.lastPos = b.out.firstBase + (bytesOf b.out.blocks).length ∧ b.listedCommit ≤ b.out.lastPos := by
  obtain ⟨front, back, hrec, hbase, hcommit⟩ := h.split
  have hlaid := h.laid
  rw [hrec, laidFrom_append] at hlaid
  rw [bytesOf_append, length_append] at hcommit
  unfold Artifact.firstBase Artifact.lastPos
  cases hblocks : b.out.blocks with
  | nil => exact .inl ⟨rfl, rfl, rfl⟩
  | cons k ks =>
    rw [hblocks] at hrec hlaid hcommit
    have hk : k.base = t.below.length + (bytesOf front).length := hlaid.2.2.1
    have hlast : ((k :: ks).getLast?.map ArchivedBlock.finish).getD 0 =
        t.below.length + (bytesOf front).length + (bytesOf (k :: ks)).length := by
      obtain ⟨l, x, hx⟩ : ∃ l x, k :: ks = l ++ [x] :=
        ⟨_, _, (List.dropLast_append_getLast (List.cons_ne_nil k ks)).symm⟩
      have hall := hlaid.2
      rw [hx, append_assoc] at hall
      have hxb := hall.at.2
      rw [hx, List.getLast?_concat, Option.map_some, Option.getD_some, ArchivedBlock.finish, hxb,
        bytesOf_append, length_append, bytesOf_cons, bytesOf_nil, append_nil]
      omega
    refine .inr ⟨front, back, hrec, ?_, ?_, ?_, ?_⟩
    · rw [length_append]
      exact hk.symm
    · exact hk.trans hbase
    · rw [hlast]
      exact congrArg (· + _) hk.symm
    · rw [hlast]
      omega

/-- What the copy holds once `journal/` is a piece of the log of `t` and every row is
    covered. -/
theorem Piece.oneHistory {t : Instance V} {c : Bytes} (h : Piece t b) (hc : t.committed <+: c)
    (hcov : ∀ f ∈ families rows, Covers b.listedBase b.listedCommit (positions (b.out.arts f)))
    (himg : ∀ f, ∀ x ∈ b.out.arts f, x.1 ≤ c.length ∧ x.2 = c.take x.1) :
    OneHistory rows t b.out := by
  rcases h.bounds with ⟨hnil, hf, hl⟩ | ⟨front, back, hrec, hlen, hbase, hend, hcommit⟩
  · refine ⟨⟨?_, ?_⟩, fun f _ => .inl ⟨hf, ?_⟩⟩
    · rw [hnil]
      exact List.nil_infix
    · rw [hnil, hf, hl]
      rfl
    · rw [hnil, hl]
      rfl
  · have hlog : t.log = (t.below ++ bytesOf front) ++ (bytesOf b.out.blocks ++ bytesOf back) := by
      rw [log, hrec]
      simp
    have htake : t.log.take b.out.lastPos = (t.below ++ bytesOf front) ++ bytesOf b.out.blocks := by
      rw [hlog, hend, ← hlen, List.take_append, List.take_of_length_le (by omega), Nat.add_sub_cancel_left,
        List.take_left]
    refine ⟨⟨⟨front, back, by rw [hrec, append_assoc]⟩, ?_⟩, ?_⟩
    · rw [hlog, ← hlen, List.drop_left, hlen, hend, Nat.add_sub_cancel_left, List.take_left]
    · intro f hf
      rcases hcov f hf with h0 | ⟨p, hp, hlo, hhi⟩
      · have h0' : b.out.firstBase = 0 := hbase.trans h0
        rw [h0'] at hlen
        refine .inl ⟨h0', ?_⟩
        rw [htake, List.length_eq_zero_iff.mp hlen, List.nil_append]
      · obtain ⟨x, hx, rfl⟩ := List.mem_map.mp hp
        refine .inr ⟨x, hx, by omega, by omega, ?_⟩
        -- the artifact was folded from what was committed when `journal/` was listed
        have hxc : x.2 = t.log.take x.1 := by
          have hle : x.1 ≤ t.committed.length := hhi.trans h.commit
          obtain ⟨r, hr⟩ := hc
          obtain ⟨r', hr'⟩ := h.committed
          rw [(himg f x hx).2, ← hr, List.take_append_of_le_length hle, ← hr',
            List.take_append_of_le_length hle]
        rw [hxc, htake, hlog, List.take_append, List.take_of_length_le (by omega), hlen, append_assoc,
          List.take_append_of_le_length (by omega), List.take_append_drop]

/-- The copier leaves `journal/` with its last file. -/
theorem copy_enters {s : Instance V} {torn : Bool} (h : b.stage.past = false)
    (h' : (b.copy s torn).stage.past = true) : (b.copy s torn).stage = .slots false := by
  have hnext : ∀ a left, (Backup.nextFile a left).past = true → Backup.nextFile a left = .slots false := by
    intro a left hp
    unfold Backup.nextFile at hp ⊢
    split
    · rfl
    · rename_i hne
      rw [if_neg hne] at hp
      cases hp
  have hretry : ∀ a, (b.retryJournal a).stage.past = false := by
    intro a
    simp only [Backup.retryJournal]
    split <;> rfl
  revert h'
  unfold Backup.copy
  cases hst : b.stage with
  | ready => exact fun hp => nomatch hp
  | list attempt => exact hnext attempt _
  | files attempt left =>
    cases left with
    | nil =>
      rw [hst]
      exact fun hp => nomatch hp
    | cons name left =>
      cases name with
      | seg n =>
        dsimp only
        unfold Backup.openFile
        split
        · rw [hretry]
          exact fun hp => nomatch hp
        · exact fun hp => nomatch hp
      | intent =>
        dsimp only
        unfold Backup.copyIntent
        split
        · rw [hretry]
          exact fun hp => nomatch hp
        · exact hnext attempt left
  | reading attempt ino baseSeq left =>
    dsimp only
    split
    · exact fun hp => nomatch hp
    · exact hnext attempt left
  | slots _ | ids | family _ _ _ | artifacts _ _ _ _ | clusterDir | finished =>
    rw [hst] at h
    cases h
  | failed =>
    rw [hst]
    exact fun hp => nomatch hp

/-- The invariant of a run from `w`. -/
structure Inv (rows : List ℕ) (w : World V) (sts : List (BackupStep V)) : Prop where
  sound : Sound rows (w.run sts).src
  copying : Copying (w.run sts).src (w.run sts).job
  served : Served rows (w.run sts).src (w.run sts).job
  ballot : Ballot (w.run sts).src.vote (w.run sts).job
  moment : (w.run sts).job.stage.past = true → ∃ k, Trace.HeldAt World.exec w sts (fun t =>
    t.job.stage = .slots false ∧ Piece t.src (w.run sts).job ∧ t.src.committed <+: (w.run sts).src.committed) k

theorem run_append (w : World V) (sts : List (BackupStep V)) (st : BackupStep V) :
    w.run (sts ++ [st]) = (w.run sts).exec st := by
  rw [World.run, List.foldl_append]
  rfl

theorem inv_nil (h : Starts rows w) : Inv rows w [] := by
  have hjob : (w.run []).job = .start := h.job
  refine ⟨h.sound, ?_, ?_, ?_, ?_⟩ <;> rw [hjob]
  · trivial
  · exact Served.idle (.inl rfl) fun f x hx => nomatch hx
  · exact ⟨fun hr => absurd rfl hr, fun _ _ _ hs => (nomatch hs), (fun he => nomatch he), fun he => nomatch he⟩
  · exact fun hp => nomatch hp

variable {sts : List (BackupStep V)}

theorem Inv.node (h : Inv rows w sts) {st : BackupStep V} (hp : (w.run sts).Possible rows st)
    (ho : (w.run sts).Orderly rows st) (hst : ∀ torn, st ≠ .copy torn) :
    Inv rows w (sts ++ [st]) := by
  obtain ⟨hsound, hgrow⟩ := h.sound.step hp
  have hjob : ((w.run sts).exec st).job = (w.run sts).job := by
    cases st with
    | copy torn => exact absurd rfl (hst torn)
    | _ => rfl
  refine ⟨?_, ?_, ?_, ?_, ?_⟩ <;> rw [run_append]
  · exact hsound
  · rw [hjob]
    have hcop := h.copying
    by_cases hc : (w.run sts).job.stage.copiesJournal = true
    · unfold Copying at hcop ⊢
      cases hs : (w.run sts).job.stage with
      | files attempt left =>
        rw [hs] at hcop
        obtain ⟨f, todo, hl, hleft⟩ := hcop
        obtain ⟨f', todo', hl', -, hname, -, hnames⟩ := hl.step h.sound hp ho hc hst
        refine ⟨f', todo', hl', ?_⟩
        rw [hleft, map_cons, map_cons, hname]
        have hmap := congrArg (map Name.seg) hnames
        rw [map_map, map_map] at hmap
        exact congrArg (_ :: ·) hmap.symm
      | reading attempt ino baseSeq left =>
        rw [hs] at hcop
        obtain ⟨f, todo, hl, hino, hbase, hgot, hleft⟩ := hcop
        obtain ⟨f', todo', hl', hino', hname, hrecs, hnames⟩ := hl.step h.sound hp ho hc hst
        refine ⟨f', todo', hl', hino'.trans hino, hname.trans hbase, hgot.trans hrecs, ?_⟩
        have hmap := congrArg (map Name.seg) hnames
        rw [map_map, map_map] at hmap
        exact hleft.trans hmap.symm
      | _ => trivial
    · exact copying_of_not (Bool.not_eq_true _ ▸ hc)
  · rw [hjob]
    exact h.served.step h.sound hp ho hst
  · rw [hjob]
    exact h.ballot.step hst
  · rw [hjob]
    intro hpast
    obtain ⟨k, hk⟩ := h.moment hpast
    refine ⟨k, (Trace.HeldAt.append ?_ [st])⟩
    exact ⟨hk.1, hk.2.1, hk.2.2.1, hk.2.2.2.trans hgrow⟩

theorem Inv.copy (h : Inv rows w sts) {torn : Bool} (ho : (w.run sts).Orderly rows (.copy torn)) :
    Inv rows w (sts ++ [.copy torn]) := by
  refine ⟨?_, ?_, ?_, ?_, ?_⟩ <;> rw [run_append]
  · exact h.sound
  · cases hpast : (w.run sts).job.stage.past with
    | true => exact copying_of_not (copy_past _ torn hpast).1
    | false => exact (h.copying.copy h.sound ho hpast).1
  · exact h.served.copy h.sound ho
  · exact h.ballot.copy h.sound.vote ho
  · intro hp
    have hp' : ((w.run sts).job.copy (w.run sts).src torn).stage.past = true := hp
    cases hpast : (w.run sts).job.stage.past with
    | true =>
      obtain ⟨-, h1, h2, h3, h4⟩ := copy_past (w.run sts).src torn hpast
      obtain ⟨k, hk⟩ := h.moment hpast
      refine ⟨k, Trace.HeldAt.append ?_ _⟩
      exact ⟨hk.1, hk.2.1, hk.2.2.1.congr h1 h2 h3 h4, hk.2.2.2⟩
    | false =>
      refine ⟨_, Trace.heldAt_length ?_⟩
      have hrun : (sts ++ [BackupStep.copy torn]).foldl World.exec w = (w.run sts).exec (.copy torn) :=
        run_append w sts (.copy torn)
      rw [hrun]
      exact ⟨copy_enters hpast hp', (h.copying.copy h.sound ho hpast).2 hp', List.prefix_rfl⟩

theorem inv_run (h : Starts rows w)
    (hrun : Trace.Admits World.exec (fun w st => w.Possible rows st ∧ w.Orderly rows st) w sts) :
    Inv rows w sts := by
  refine hrun.rule (inv_nil h) ?_
  rintro sts st hinv ⟨hp, ho⟩
  by_cases hst : ∀ torn, st ≠ .copy torn
  · exact hinv.node hp ho hst
  · obtain ⟨torn, hst⟩ := not_forall.mp hst
    rw [not_not] at hst
    subst hst
    exact hinv.copy ho

/-- An orderly backup holds a piece of the log as the node held it when the last file of
    `journal/` was copied, from which every row can be rebuilt, and a vote that is no
    older than the one the node had stored when the backup began; it does whether or not
    it is verified. -/
theorem one_history {w : World V} (h : Starts rows w) {sts : List (BackupStep V)}
    (hrun : Trace.Admits World.exec (fun w st => w.Possible rows st ∧ w.Orderly rows st) w sts)
    (hfin : (w.run sts).job.stage = .finished) :
    (∃ k, Trace.HeldAt World.exec w sts (fun t => t.job.stage = .slots false ∧
        OneHistory rows t.src (w.run sts).job.out) k) ∧
      ∃ gen vote, (w.run sts).job.out.vote = some (gen, vote) ∧ (w.run sts).job.voteBefore ≤ gen ∧
        (w.run sts).src.vote.stored[gen]? = some vote := by
  have hinv := inv_run h hrun
  have hpast : (w.run sts).job.stage.past = true := by
    rw [hfin]
    rfl
  refine ⟨?_, ?_⟩
  · obtain ⟨k, hk, hstage, hpiece, hc⟩ := hinv.moment hpast
    refine ⟨k, hk, hstage, hpiece.oneHistory hc ?_ hinv.served.images⟩
    intro f hf
    refine hinv.served.copied f hf hpast ?_
    rw [hfin]
    exact fun ha => ha
  · obtain ⟨c, g, x, hslot, hle⟩ := hinv.ballot.read (by rw [hfin]; rfl)
    obtain ⟨c', g', x', hslot', hvote, hgg⟩ := Ballot.vote_spec hslot
    exact ⟨g', x', hvote, hle.trans hgg, hinv.ballot.stored c' g' x' hslot'⟩

/-- A node with a purged journal and a set at its floor. -/
def withFloor : List (BackupStep ℕ) :=
  [.roll, .record [1, 2, 3, 4], .commit 4, .publish (.row 0) 4, .publish .cluster 4, .moveFloor 4,
    .roll, .record [5, 6], .purge 4, .commit 6]

/-- The log goes on, and a newer set takes the floor. -/
def newerSet : List (BackupStep ℕ) :=
  [.record [7], .commit 7, .publish (.row 0) 7, .publish .cluster 7, .moveFloor 7, .startVote 1, .endVote]

/-- A backup that a newer set overtakes: the older one goes only once it was copied. -/
def orderlyBackup : List (BackupStep ℕ) :=
  withFloor ++ List.replicate 5 (.copy false) ++ newerSet ++ List.replicate 10 (.copy false)
    ++ [.retain (.row 0) 4, .retain .cluster 4]

theorem one_history_newerSet :
    (∃ k, Trace.HeldAt World.exec ⟨fresh, .start⟩ orderlyBackup (fun t => t.job.stage = .slots false ∧
        OneHistory [0] t.src (World.run ⟨fresh, .start⟩ orderlyBackup).job.out) k) ∧
      ∃ gen vote, (World.run ⟨fresh, .start⟩ orderlyBackup).job.out.vote = some (gen, vote) ∧
        (World.run ⟨fresh, .start⟩ orderlyBackup).job.voteBefore ≤ gen ∧
        (World.run ⟨fresh, .start⟩ orderlyBackup).src.vote.stored[gen]? = some vote :=
  one_history ⟨sound_fresh [0], rfl⟩ (by decide +kernel) (by decide +kernel)

/-- The newer set takes the floor after `journal/` was copied, and retention drops the
    older one before its directories are. -/
def overtakenBackup : List (BackupStep ℕ) :=
  withFloor ++ List.replicate 5 (.copy false) ++ newerSet ++ [.retain (.row 0) 4, .retain .cluster 4]
    ++ List.replicate 8 (.copy false)

/-- The copied journal ends at 6 and its only artifacts are at 7; it verifies. -/
theorem overtaken_by_retention : ¬ ∀ (rows : List ℕ) (w : World ℕ) (sts : List (BackupStep ℕ)),
    Starts rows w → Trace.Admits World.exec (World.Possible rows) w sts →
    (w.run sts).job.stage = .finished → (w.run sts).job.out.Verifies →
    (∃ k, Trace.HeldAt World.exec w sts (fun t => t.job.stage ≠ .ready ∧
        OneHistory rows t.src (w.run sts).job.out) k) ∧
      ∃ gen vote, (w.run sts).job.out.vote = some (gen, vote) ∧ (w.run sts).job.voteBefore ≤ gen ∧
        (w.run sts).src.vote.stored[gen]? = some vote := by
  intro h
  obtain ⟨⟨k, -, -, hone⟩, -⟩ := h [0] ⟨fresh, .start⟩ overtakenBackup ⟨sound_fresh [0], rfl⟩
    (by decide +kernel) (by decide +kernel) (by decide +kernel)
  rcases hone.rebuilt (.row 0) (by decide) with ⟨h0, -⟩ | ⟨x, hx, -, hle, -⟩
  · exact absurd h0 (by decide +kernel)
  · have hbeyond : ∀ x ∈ (World.run ⟨fresh, .start⟩ overtakenBackup).job.out.arts (.row 0),
        ¬ x.1 ≤ (World.run ⟨fresh, .start⟩ overtakenBackup).job.out.lastPos := by decide +kernel
    exact hbeyond x hx hle

end HotBackup

end UltimaCluster
