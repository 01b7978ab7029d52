/-
  A backup of an instance directory that a node is running on (`backup_instance`
  and `verify_artifact` of `uc_node/src/backup.rs`).

  The node's steps are those that other processes can see in its directory: a record
  written to the journal's active segment, a new segment, one unlink of a purge, the
  single file operations of a `truncate_to`, the publication and the retention of an
  artifact, the two halves of a store of the vote.  The copier reads `journal/` file by
  file and record by record, then `vote.state` slot by slot, then each snapshot
  directory artifact by artifact; an open file stays readable after its unlink.

  A record that was not written when the copier got to it ends the file, as the scan of
  the copy does.  An artifact's content is what was folded into it: the log below its
  position.  The other four state files, the preallocated segments, the foreign markers,
  the checksums and the manifest are left out.

  `below`, `purged`, `unlinked`, `committed` and `stored` of the instance and the last
  four fields of the backup are what the proofs speak of; no step of the copier reads
  them but `unlinked` and `purged`, where the open files are.
-/
import UltimaCluster.Archive

namespace UltimaCluster

namespace HotBackup

/-! ## The instance directory -/

/-- A segment of the journal; its name is its first sequence number. -/
structure SegFile where
  ino : ℕ
  baseSeq : ℕ
  recs : List ArchivedBlock
deriving DecidableEq

/-- What `truncate_to` does to `journal/`, call by call. -/
inductive FileOp where
  /-- `write_truncate_intent`; `none` keeps no record. -/
  | putIntent (keep : Option ℕ)
  /-- The boundary segment is cut behind its last kept record; those before it hold no
      record above `keep`. -/
  | shrink (keep : ℕ)
  | unlink (baseSeq : ℕ)
  | create (baseSeq : ℕ)
  | write (k : ArchivedBlock)
  | dropIntent
deriving DecidableEq

/-- The directories of `snapshots/`. -/
inductive Family where
  | row (id : ℕ)
  | cluster
deriving DecidableEq

/-- The rows that the node declares, and the cluster row. -/
def families (rows : List ℕ) : List Family := rows.map .row ++ [.cluster]

def Family.id? : Family → Option ℕ
  | .row id => some id
  | .cluster => none

/-- `vote.state`: a slot that is being written does not decode. -/
structure VoteFile (V : Type) where
  slot : Bool → Option (ℕ × Option V)
  /-- The second slot. -/
  nextSlot : Bool
  /-- The generation of the last store that returned. -/
  gen : ℕ
  writing : Option V
  /-- What each generation holds. -/
  stored : List (Option V)

/-- The directory of a running node. -/
structure Instance (V : Type) where
  segs : List SegFile
  intent : Option (Option ℕ)
  /-- What is left to do of a `truncate_to`. -/
  pending : List FileOp
  nextIno : ℕ
  nextBlockSeq : ℕ
  durablePos : ℕ
  /-- The snapshot floor that was persisted. -/
  floor : ℕ
  /-- The directories of `snapshots/` that are there. -/
  dirs : List Family
  arts : Family → List (ℕ × Bytes)
  vote : VoteFile V
  /-- The log below the first record of this numbering. -/
  below : Bytes
  /-- The segments that purges unlinked. -/
  purged : List SegFile
  /-- The segments that cuts unlinked. -/
  unlinked : List SegFile
  /-- The log below the commit. -/
  committed : Bytes

namespace Instance

variable {V : Type}

/-- A directory that was never written to. -/
def fresh : Instance V where
  segs := []
  intent := none
  pending := []
  nextIno := 0
  nextBlockSeq := 0
  durablePos := 0
  floor := 0
  dirs := []
  arts := fun _ => []
  vote := { slot := fun _ => some (0, none), nextSlot := true, gen := 0, writing := none, stored := [none] }
  below := []
  purged := []
  unlinked := []
  committed := []

/-- The records in `journal/`. -/
def retained (s : Instance V) : List ArchivedBlock := s.segs.flatMap SegFile.recs

/-- The records of this numbering, those that were purged first. -/
def records (s : Instance V) : List ArchivedBlock := (s.purged ++ s.segs).flatMap SegFile.recs

def bytesOf (ks : List ArchivedBlock) : Bytes := ks.flatMap ArchivedBlock.bytes

/-- The log as the node holds it, with what was purged of it. -/
def log (s : Instance V) : Bytes := s.below ++ bytesOf s.records

/-- Where the journal begins. -/
def firstBase (s : Instance V) : ℕ := s.below.length + (bytesOf (s.purged.flatMap SegFile.recs)).length

def writeLast (k : ArchivedBlock) : List SegFile → List SegFile
  | [] => []
  | [f] => [{ f with recs := f.recs ++ [k] }]
  | f :: g :: fs => f :: writeLast k (g :: fs)

/-- One operation on the files. -/
def apply (s : Instance V) : FileOp → Instance V
  | .putIntent keep => { s with intent := some keep }
  | .shrink keep => { s with segs := s.segs.map fun f =>
      if f.baseSeq ≤ keep then { f with recs := f.recs.takeWhile (·.seq ≤ keep) } else f }
  | .unlink n => { s with
      segs := s.segs.filter (·.baseSeq ≠ n)
      unlinked := s.unlinked ++ s.segs.filter (·.baseSeq = n) }
  | .create n => { s with segs := s.segs ++ [⟨s.nextIno, n, []⟩], nextIno := s.nextIno + 1 }
  | .write k => { s with
      segs := writeLast k s.segs
      nextBlockSeq := k.seq + 1
      durablePos := k.finish }
  | .dropIntent => { s with intent := none }

/-- The greatest block that starts at or below `pos`. -/
def covering (ks : List ArchivedBlock) (pos : ℕ) : Option ArchivedBlock :=
  (ks.takeWhile (·.base ≤ pos)).getLast?

/-- The record that keeps the head of the block that the cut goes through. -/
def headOf (k : ArchivedBlock) (seq pos : ℕ) (roll : Bool) : List FileOp :=
  if k.base = pos then []
  else (if roll then [.create seq] else []) ++ [.write ⟨seq, k.base, k.bytes.take (pos - k.base)⟩]

/-- `Journal::truncate_all`. -/
def truncateAll (segs : List SegFile) : List FileOp :=
  .putIntent none :: segs.map (fun f => .unlink f.baseSeq) ++ [.create 0, .dropIntent]

/-- `Journal::truncate_after`. -/
def truncateAfter (keep : ℕ) (segs : List SegFile) : List FileOp :=
  [.putIntent (some keep), .shrink keep] ++
    (segs.filter (keep < ·.baseSeq)).map (fun f => .unlink f.baseSeq) ++ [.dropIntent]

/-- `truncate_to`, up to its first call: in the first block the journal is cleared and
    seeded again, else the block and all after it are dropped. -/
def startCut (s : Instance V) (pos : ℕ) (roll : Bool) : Instance V :=
  match covering s.retained pos with
  | none => s
  | some k =>
    if s.retained.head?.map ArchivedBlock.seq = some k.seq then
      { s with
        pending := truncateAll s.segs ++ headOf k 0 pos false
        nextBlockSeq := 0
        durablePos := k.base
        below := s.below ++ bytesOf (s.purged.flatMap SegFile.recs)
        purged := []
        unlinked := s.unlinked ++ s.purged }
    else
      { s with
        pending := truncateAfter (k.seq - 1) s.segs ++ headOf k k.seq pos roll
        nextBlockSeq := k.seq
        durablePos := k.base }

/-- The next call of the cut. -/
def cutOp (s : Instance V) : Instance V :=
  match s.pending with
  | [] => s
  | op :: ops => apply { s with pending := ops } op

/-- The directory when the cut is done. -/
def finish (s : Instance V) : Instance V := s.pending.foldl apply { s with pending := [] }

/-- A purge below `pos` drops the first segment: the next one starts at or below the
    block that covers `pos`. -/
def Purges (s : Instance V) (pos : ℕ) : Prop :=
  match s.segs, covering s.retained pos with
  | _ :: g :: _, some k => s.retained.head?.any (·.seq < k.seq) = true ∧ g.baseSeq - 1 ≤ k.seq - 1
  | _, _ => False

instance (s : Instance V) (pos : ℕ) : Decidable (s.Purges pos) := by
  unfold Purges
  split <;> infer_instance

/-- The file that the copier has open. -/
def content (s : Instance V) (ino : ℕ) : List ArchivedBlock :=
  ((s.purged ++ s.segs ++ s.unlinked).find? (·.ino = ino)).elim [] SegFile.recs

/-- A new artifact of a family. -/
def publish (s : Instance V) (f : Family) (pos : ℕ) : Instance V :=
  { s with
    dirs := if f ∈ s.dirs then s.dirs else s.dirs ++ [f]
    arts := Function.update s.arts f (s.arts f ++ [(pos, s.committed.take pos)]) }

/-- Retention drops an artifact. -/
def retain (s : Instance V) (f : Family) (pos : ℕ) : Instance V :=
  { s with arts := Function.update s.arts f ((s.arts f).filter (·.1 ≠ pos)) }

end Instance

namespace VoteFile

variable {V : Type}

/-- The slot is being written. -/
def startStore (f : VoteFile V) (v : V) : VoteFile V :=
  { f with slot := Function.update f.slot f.nextSlot none, writing := some v }

/-- The slot is written. -/
def endStore (f : VoteFile V) : VoteFile V :=
  match f.writing with
  | none => f
  | some v => { f with
      slot := Function.update f.slot f.nextSlot (some (f.gen + 1, some v))
      nextSlot := !f.nextSlot
      gen := f.gen + 1
      writing := none
      stored := f.stored ++ [some v] }

end VoteFile

/-! ## The copy -/

/-- What a backup leaves. -/
structure Artifact (V : Type) where
  segs : List SegFile
  intent : Option (Option ℕ)
  slot : Bool → Option (ℕ × Option V)
  /-- The numbered directories of `snapshots/`. -/
  ids : List ℕ
  arts : Family → List (ℕ × Bytes)

namespace Artifact

variable {V : Type}

/-- `apply_truncate_to_segments` on the records. -/
def truncated (keep : Option ℕ) (segs : List SegFile) : List ArchivedBlock :=
  match keep with
  | none => []
  | some keep =>
    (segs.takeWhile (·.baseSeq ≤ keep)).flatMap fun f => f.recs.takeWhile (·.seq ≤ keep)

/-- The records that `Journal::open` finds. -/
def blocks (a : Artifact V) : List ArchivedBlock :=
  match a.intent with
  | none => a.segs.flatMap SegFile.recs
  | some keep => truncated keep a.segs

def firstBase (a : Artifact V) : ℕ := (a.blocks.head?.map ArchivedBlock.base).getD 0

def lastPos (a : Artifact V) : ℕ := (a.blocks.getLast?.map ArchivedBlock.finish).getD 0

def newest (a : Artifact V) (f : Family) : Option ℕ := ((a.arts f).map Prod.fst).max?

/-- `pick_slot` of `vote.state`. -/
def vote (a : Artifact V) : Option (ℕ × Option V) :=
  match a.slot false, a.slot true with
  | none, none => none
  | some x, none => some x
  | none, some y => some y
  | some x, some y => if y.1 ≤ x.1 then some x else some y

/-- `verify_artifact`. -/
def Verifies (a : Artifact V) : Prop :=
  a.vote.isSome ∧ (0 < a.firstBase →
    (a.ids ≠ [] ∧ ∀ id ∈ a.ids, (a.newest (.row id)).any (a.firstBase ≤ ·) = true) ∧
    (a.newest .cluster).all (a.firstBase ≤ ·) = true)

instance (a : Artifact V) : Decidable a.Verifies := inferInstanceAs (Decidable (_ ∧ _))

end Artifact

/-- A file of `journal/` in the listing. -/
inductive Name where
  | seg (baseSeq : ℕ)
  | intent
deriving DecidableEq

/-- How far a backup is. -/
inductive Stage where
  | ready
  /-- `journal/` is to be listed. -/
  | list (attempt : ℕ)
  | files (attempt : ℕ) (left : List Name)
  | reading (attempt ino baseSeq : ℕ) (left : List Name)
  /-- The slot of `vote.state` to be read. -/
  | slots (second : Bool)
  | ids
  /-- The directory is to be listed. -/
  | family (attempt : ℕ) (f : Family) (left : List Family)
  | artifacts (attempt : ℕ) (f : Family) (names : List ℕ) (left : List Family)
  | clusterDir
  | finished
  | failed
deriving DecidableEq

/-- A backup under way. -/
structure Backup (V : Type) where
  stage : Stage
  out : Artifact V
  /-- What was read of the open file. -/
  got : List ArchivedBlock
  /-- The generation of the vote when the backup began, and when its first slot was read. -/
  voteBefore : ℕ
  voteAtFirst : ℕ
  /-- The beginning of the journal and the commit when `journal/` was listed. -/
  listedBase : ℕ
  listedCommit : ℕ

def maxCopyRetries : ℕ := 5

namespace Backup

variable {V : Type}

/-- Before the backup. -/
def start : Backup V where
  stage := .ready
  out := { segs := [], intent := none, slot := fun _ => none, ids := [], arts := fun _ => [] }
  got := []
  voteBefore := 0
  voteAtFirst := 0
  listedBase := 0
  listedCommit := 0

/-- What comes after a file of `journal/`. -/
def nextFile (attempt : ℕ) (left : List Name) : Stage :=
  if left = [] then .slots false else .files attempt left

/-- What comes after a directory of `snapshots/`. -/
def nextFamily (f : Family) : List Family → Stage
  | g :: left => .family 1 g left
  | [] => if f = .cluster then .finished else .clusterDir

/-- A listed file of `journal/` is gone. -/
def retryJournal (b : Backup V) (attempt : ℕ) : Backup V :=
  { b with
    stage := if attempt < maxCopyRetries then .list (attempt + 1) else .failed
    out := { b.out with segs := [], intent := none } }

/-- A listed artifact is gone. -/
def retryFamily (b : Backup V) (attempt : ℕ) (f : Family) (left : List Family) : Backup V :=
  { b with
    stage := if attempt < maxCopyRetries then .family (attempt + 1) f left else .failed
    out := { b.out with arts := Function.update b.out.arts f [] } }

/-- The names in `journal/`. -/
def listJournal (b : Backup V) (s : Instance V) (attempt : ℕ) : Backup V :=
  { b with
    stage := nextFile attempt (s.segs.map (.seg ·.baseSeq) ++ (if s.intent.isSome then [.intent] else []))
    out := { b.out with segs := [], intent := none }
    listedBase := s.firstBase
    listedCommit := s.committed.length }

/-- A segment is opened, if it is there. -/
def openFile (b : Backup V) (s : Instance V) (attempt n : ℕ) (left : List Name) : Backup V :=
  match s.segs.find? (·.baseSeq = n) with
  | none => b.retryJournal attempt
  | some f => { b with stage := .reading attempt f.ino f.baseSeq left, got := [] }

/-- The copy of a segment is done. -/
def closeFile (b : Backup V) (attempt ino baseSeq : ℕ) (left : List Name) : Backup V :=
  { b with
    stage := nextFile attempt left
    out := { b.out with segs := b.out.segs ++ [⟨ino, baseSeq, b.got⟩] } }

/-- A torn copy of the intent is no intent. -/
def copyIntent (b : Backup V) (s : Instance V) (torn : Bool) (attempt : ℕ) (left : List Name) : Backup V :=
  match s.intent with
  | none => b.retryJournal attempt
  | some keep => { b with
      stage := nextFile attempt left
      out := { b.out with intent := if torn then none else some keep } }

/-- One slot of the vote. -/
def readSlot (b : Backup V) (s : Instance V) (second : Bool) : Backup V :=
  { b with
    stage := if second then .ids else .slots true
    out := { b.out with slot := Function.update b.out.slot second (s.vote.slot second) }
    voteAtFirst := if second then b.voteAtFirst else s.vote.gen }

/-- The rows that have artifacts. -/
def listIds (b : Backup V) (s : Instance V) : Backup V :=
  let ids := s.dirs.filterMap Family.id?
  { b with
    stage := match ids with
      | [] => .clusterDir
      | id :: left => .family 1 (.row id) (left.map .row)
    out := { b.out with ids } }

/-- The artifacts of one family. -/
def listFamily (b : Backup V) (s : Instance V) (attempt : ℕ) (f : Family) (left : List Family) :
    Backup V :=
  { b with
    stage := if s.arts f = [] then nextFamily f left
      else .artifacts attempt f ((s.arts f).map Prod.fst) left
    out := { b.out with arts := Function.update b.out.arts f [] } }

/-- One artifact, if it is still there. -/
def copyArtifact (b : Backup V) (s : Instance V) (attempt : ℕ) (f : Family) (pos : ℕ) (names : List ℕ)
    (left : List Family) : Backup V :=
  match (s.arts f).find? (·.1 = pos) with
  | none => b.retryFamily attempt f left
  | some x => { b with
      stage := if names = [] then nextFamily f left else .artifacts attempt f names left
      out := { b.out with arts := Function.update b.out.arts f (b.out.arts f ++ [x]) } }

/-- The next call of `backup_instance`; a record of the open file, or its end. -/
def copy (b : Backup V) (s : Instance V) (torn : Bool) : Backup V :=
  match b.stage with
  | .ready => { b with stage := .list 1, voteBefore := s.vote.gen }
  | .list attempt => b.listJournal s attempt
  | .files attempt (.seg n :: left) => b.openFile s attempt n left
  | .files attempt (.intent :: left) => b.copyIntent s torn attempt left
  | .reading attempt ino baseSeq left =>
    match (s.content ino)[b.got.length]? with
    | some k => { b with got := b.got ++ [k] }
    | none => b.closeFile attempt ino baseSeq left
  | .slots second => b.readSlot s second
  | .ids => b.listIds s
  | .family attempt f left => b.listFamily s attempt f left
  | .artifacts attempt f (pos :: names) left => b.copyArtifact s attempt f pos names left
  | .clusterDir => { b with stage := if .cluster ∈ s.dirs then .family 1 .cluster [] else .finished }
  | _ => b

end Backup

/-! ## Runs -/

/-- The node and its backup. -/
structure World (V : Type) where
  src : Instance V
  job : Backup V

/-- A step of the node or of the backup. -/
inductive BackupStep (V : Type) where
  /-- The journal rolls to a new segment. -/
  | roll
  | record (bytes : Bytes)
  | startCut (pos : ℕ) (roll : Bool)
  | cutOp
  | purge (below : ℕ)
  | commit (pos : ℕ)
  | publish (f : Family) (pos : ℕ)
  | moveFloor (pos : ℕ)
  | retain (f : Family) (pos : ℕ)
  | startVote (v : V)
  | endVote
  | copy (torn : Bool)
deriving DecidableEq

namespace World

variable {V : Type} (rows : List ℕ)

/-- One step of either. -/
def exec (w : World V) : BackupStep V → World V
  | .roll => { w with src := w.src.apply (.create w.src.nextBlockSeq) }
  | .record bytes => { w with src := w.src.apply (.write ⟨w.src.nextBlockSeq, w.src.durablePos, bytes⟩) }
  | .startCut pos roll => { w with src := w.src.startCut pos roll }
  | .cutOp => { w with src := w.src.cutOp }
  | .purge _ => { w with src := { w.src with
      segs := w.src.segs.tail
      purged := w.src.purged ++ w.src.segs.take 1 } }
  | .commit pos => { w with src := { w.src with committed := w.src.finish.log.take pos } }
  | .publish f pos => { w with src := w.src.publish f pos }
  | .moveFloor pos => { w with src := { w.src with floor := pos } }
  | .retain f pos => { w with src := w.src.retain f pos }
  | .startVote v => { w with src := { w.src with vote := w.src.vote.startStore v } }
  | .endVote => { w with src := { w.src with vote := w.src.vote.endStore } }
  | .copy torn => { w with job := w.job.copy w.src torn }

/-- When a step can be taken.  A cut keeps what is committed, a purge stays below the
    floor, the floor is the position of a complete set, and retention drops what is
    below the floor. -/
def Possible (w : World V) : BackupStep V → Prop
  | .roll => w.src.pending = [] ∧ w.src.segs.getLast?.all (·.recs ≠ []) = true
  | .record bytes => w.src.pending = [] ∧ w.src.segs ≠ [] ∧ bytes ≠ []
  | .startCut pos _ => w.src.pending = [] ∧ w.src.committed.length ≤ pos ∧ pos < w.src.durablePos ∧
      w.src.firstBase ≤ pos
  | .cutOp => w.src.pending ≠ []
  | .purge below => w.src.pending = [] ∧ below ≤ w.src.floor ∧ w.src.Purges below
  | .commit pos => w.src.committed.length ≤ pos ∧ pos ≤ w.src.finish.log.length
  | .publish _ pos => pos ≤ w.src.committed.length
  | .moveFloor pos => w.src.floor ≤ pos ∧ ∀ f ∈ families rows, pos ∈ (w.src.arts f).map Prod.fst
  | .retain _ pos => pos < w.src.floor
  | .startVote _ => w.src.vote.writing.isNone
  | .endVote => w.src.vote.writing.isSome
  | .copy _ => w.job.stage ≠ .finished ∧ w.job.stage ≠ .failed

instance (w : World V) : DecidablePred (w.Possible rows) := fun st => by
  cases st <;> simp only [Possible] <;> infer_instance

def run (w : World V) (sts : List (BackupStep V)) : World V := sts.foldl exec w

end World

end HotBackup

end UltimaCluster
