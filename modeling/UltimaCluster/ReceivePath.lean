/-
  The follower's receive path (`uc_net/src/receiver.rs`, `uc_log/src/writer.rs`,
  `uc_log/src/counters.rs`): DATA datagrams are copied into the ring, and the
  append counter is raised over what is contiguous, while the archive primes
  the counters and advances the durable one on its own thread.

  A step is one access to what the threads share.  The stream that the leader
  of a term sends is given by its frames; a byte of the ring is known by the
  stream and the position it was copied from, and by the number of primes that
  its datagram was taken up after.  Only the counters `append` and `durable`,
  the prime generation, the gate, the term and the install cell are shared.
-/
import UltimaCluster.LogRing
import UltimaCluster.Rebuild

namespace UltimaCluster

/-! ## Streams and datagrams -/

/-- A frame on the wire: the length in its header, and whether it is padding. -/
structure WireFrame where
  length : ℕ
  padding : Bool
deriving DecidableEq

namespace WireFrame

/-- What the stream advances by. -/
def aligned (f : WireFrame) : ℕ := alignFrameLen f.length

/-- What is sent and copied: padding goes header-only. -/
def wireLen (f : WireFrame) : ℕ := if f.padding then headerLen else f.aligned

end WireFrame

/-- The stream of one leader: the frame that starts at a position.  Frames do
    not overlap. -/
structure LeaderStream where
  frame : ℕ → Option WireFrame
  header : ∀ p f, frame p = some f → headerLen ≤ f.length
  disjoint : ∀ p q f, frame p = some f → p < q → q < p + f.aligned → frame q = none

/-- A datagram of the data plane. -/
structure DataDgram where
  term : ℕ
  position : ℕ
  body : List WireFrame
deriving DecidableEq

/-- `walk_advance`: the stream advance of a run, `none` if it is malformed. -/
def walkAdvance : List WireFrame → Option ℕ
  | [] => some 0
  | f :: fs =>
    if f.length < headerLen then none
    else if f.padding then if fs = [] then some f.aligned else none
    else (walkAdvance fs).map (f.aligned + ·)

def wireLenOf (fs : List WireFrame) : ℕ := (fs.map WireFrame.wireLen).sum

/-- The body is a run of consecutive frames of the stream. -/
def LeaderStream.Sends (s : LeaderStream) : ℕ → List WireFrame → Prop
  | _, [] => True
  | p, f :: fs => s.frame p = some f ∧ s.Sends (p + f.aligned) fs

/-! ## The threads -/

/-- A byte of the ring: byte `pos` of the stream of `term`, copied from a
    datagram that was accepted after `epoch` primes. -/
structure RingByte where
  pos : ℕ
  term : ℕ
  epoch : ℕ
deriving DecidableEq

/-- An accepted datagram, with the prime generation that was sampled for it. -/
structure Accepted where
  dgram : DataDgram
  epoch : ℕ
  gen : ℕ
deriving DecidableEq

/-- Where `on_datagram` is. -/
inductive RxPc where
  | idle
  /-- Past the term filter; `resync_after_truncation` is to load the counter. -/
  | resync (dgram : DataDgram)
  /-- The generation is to be sampled. -/
  | sample (dgram : DataDgram)
  /-- The gate is to be read, and the accept rule applied. -/
  | gate (dgram : DataDgram) (gen : ℕ)
  /-- The overrun gate is to load `durable`. -/
  | room (x : Accepted)
  /-- `write_run` is to load `durable`; the overrun gate loaded `bound`. -/
  | writeRun (x : Accepted) (bound : ℕ)
  /-- The bytes are to be copied and the run inserted; `write_run` loaded `low`. -/
  | copy (x : Accepted) (bound low : ℕ)
  /-- The generation is to be rechecked. -/
  | recheck (x : Accepted)
  /-- The live counter is to be compared. -/
  | check (x : Accepted)
  /-- The counter is to be stored; the comparison was made after `seen` primes. -/
  | publish (x : Accepted) (seen : ℕ)
deriving DecidableEq

/-- Where the archive is in a prime. -/
inductive PrimePc where
  | none
  /-- `durable` was stored, `append` is to be; the floor will be `floor`. -/
  | append (target floor : ℕ)
  /-- The generation is to be bumped. -/
  | gen
deriving DecidableEq

/-- The receiver and what it shares. -/
structure ReceivePath where
  append : ℕ
  durable : ℕ
  /-- The archive's first base. -/
  floor : ℕ
  primeGen : ℕ
  gateOpen : Bool
  term : ℕ
  adoptPending : ℕ
  ring : ℕ → Option RingByte
  rebuilt : Rebuilt
  lastPublished : ℕ
  oooTerm : ℕ
  pc : RxPc
  prime : PrimePc
  /-- The number of primes so far; nothing reads it. -/
  epoch : ℕ
  /-- A byte below the append counter was written; nothing reads it. -/
  rewrote : Bool

namespace ReceivePath

/-- `resync_after_truncation`. -/
def resyncAfterTruncation (n : ReceivePath) : ReceivePath :=
  if n.rebuilt.contiguous < n.append then
    if n.adoptPending = 0 then
      { n with rebuilt := .new n.append, lastPublished := n.append } else n
  else if n.append < n.rebuilt.contiguous then
    { n with rebuilt := .new n.append, lastPublished := n.append }
  else n

/-- `resync_after_snapshot_install`. -/
def resyncAfterSnapshotInstall (n : ReceivePath) : ReceivePath :=
  if n.adoptPending = 0 ∨ n.append < n.adoptPending then n
  else if n.rebuilt.contiguous < n.append then
    { n with rebuilt := .new n.append, lastPublished := n.append, adoptPending := 0 }
  else { n with adoptPending := 0 }

/-- `discard_ooo_on_term_change`. -/
def discardOooOnTermChange (n : ReceivePath) (term : ℕ) : ReceivePath :=
  if term = n.oooTerm then n
  else if n.rebuilt.highest = n.rebuilt.contiguous then { n with oooTerm := term }
  else { n with oooTerm := term, rebuilt := .new n.rebuilt.contiguous }

/-- The copy of a run that does not cross the wrap. -/
def writeRing (capacity pos len term epoch : ℕ) (ring : ℕ → Option RingByte) :
    ℕ → Option RingByte :=
  fun slot => if pos % capacity ≤ slot ∧ slot < pos % capacity + len then
    some ⟨pos + (slot - pos % capacity), term, epoch⟩ else ring slot

/-- The accept rule and the checks of the header, before the overrun gate. -/
def acceptable (contiguous : ℕ) (d : DataDgram) : Bool :=
  contiguous ≤ d.position && d.position % frameAlignment == 0 && (walkAdvance d.body).any (0 < ·)

/-- The end of the run, where `walk_advance` accepts it. -/
def runEnd (d : DataDgram) : ℕ := d.position + (walkAdvance d.body).getD 0

/-- The checks of `write_run`. -/
def writable (capacity durable : ℕ) (d : DataDgram) : Bool :=
  d.body ≠ [] && wireLenOf d.body ≤ capacity - d.position % capacity
    && d.position + wireLenOf d.body ≤ durable + capacity && durable ≤ d.position

/-- The copy and the insertion of an accepted run. -/
def copyRun (capacity : ℕ) (n : ReceivePath) (x : Accepted) : ReceivePath :=
  let d := x.dgram
  let r := n.rebuilt.insert d.position (runEnd d)
  { n with
    ring := writeRing capacity d.position (wireLenOf d.body) d.term x.epoch n.ring
    rewrote := n.rewrote || d.position < n.append
    rebuilt := r.1
    pc := if r.2 then .recheck x else .idle }

/-- The next access of `on_datagram`. -/
def receive (capacity : ℕ) (n : ReceivePath) : ReceivePath :=
  match n.pc with
  | .idle => n
  | .resync d =>
    { n.resyncAfterTruncation.discardOooOnTermChange d.term with pc := .sample d }
  | .sample d => { n with pc := .gate d n.primeGen }
  | .gate d gen =>
    if n.gateOpen && acceptable n.rebuilt.contiguous d then
      { n with pc := .room ⟨d, n.epoch, gen⟩ } else { n with pc := .idle }
  | .room x =>
    if runEnd x.dgram ≤ n.durable + capacity then { n with pc := .writeRun x n.durable }
    else { n with pc := .idle }
  | .writeRun x bound =>
    if writable capacity n.durable x.dgram then { n with pc := .copy x bound n.durable }
    else { n with pc := .idle }
  | .copy x _ _ => n.copyRun capacity x
  | .recheck x => if n.primeGen ≠ x.gen then { n with pc := .idle } else { n with pc := .check x }
  | .check x =>
    if n.append < n.lastPublished then { n with pc := .idle }
    else { n with pc := .publish x n.epoch }
  | .publish _ _ =>
    { n with
      lastPublished := n.rebuilt.contiguous, append := n.rebuilt.contiguous, pc := .idle }

/-! ## Runs -/

variable (streams : ℕ → LeaderStream) (capacity : ℕ)

/-- The frame whose header the archive's walk reads at `pos`. -/
def frameAt (n : ReceivePath) (pos : ℕ) : Option WireFrame :=
  (n.ring (pos % capacity)).bind fun b => (streams b.term).frame b.pos

/-- A step of the receiver, or around it. -/
inductive RxStep where
  /-- A DATA datagram arrives; the term filter. -/
  | take (d : DataDgram)
  /-- A datagram of another kind that is of the current term. -/
  | hear (term : ℕ)
  /-- The top of `do_work`. -/
  | cycle
  /-- The next access of the datagram in process. -/
  | receive
  | setTerm (term : ℕ)
  | setGate (isOpen : Bool)
  | setAdopt (pos : ℕ)
  /-- The archive: a prime, store by store. -/
  | primeDurable (target : ℕ)
  | primeAppend
  | bumpGen
  /-- The archive records the next frame. -/
  | advance
deriving DecidableEq

/-- When a step can be taken: a datagram carries frames of its term's stream,
    a cut lies between the archive's floor and its frontier, a floor is adopted
    above the frontier. -/
def Possible (n : ReceivePath) : RxStep → Prop
  | .take d => n.pc = .idle ∧ (streams d.term).Sends d.position d.body
  | .hear _ | .cycle => n.pc = .idle
  | .receive | .setTerm _ | .setGate _ | .setAdopt _ => True
  | .primeDurable target => n.prime = .none ∧ n.floor ≤ target
  | .primeAppend => ∃ target floor, n.prime = .append target floor
  | .bumpGen => n.prime = .gen
  | .advance => n.prime = .none ∧ ∃ f, frameAt streams capacity n n.durable = some f ∧
      n.durable + f.aligned ≤ n.append

/-- One access of a thread. -/
def step (n : ReceivePath) : RxStep → ReceivePath
  | .take d => if d.term = n.term then { n with pc := .resync d } else n
  | .hear term =>
    if term = n.term then n.resyncAfterTruncation.discardOooOnTermChange term else n
  | .cycle => n.resyncAfterTruncation.resyncAfterSnapshotInstall
  | .receive => n.receive capacity
  | .setTerm term => { n with term }
  | .setGate isOpen => { n with gateOpen := isOpen }
  | .setAdopt pos => { n with adoptPending := pos }
  | .primeDurable target =>
    { n with
      durable := target
      prime := .append target (if n.durable < target then target else n.floor) }
  | .primeAppend =>
    match n.prime with
    | .append target floor =>
      { n with append := target, floor, prime := .gen, epoch := n.epoch + 1 }
    | _ => n
  | .bumpGen => { n with primeGen := n.primeGen + 1, prime := .none }
  | .advance =>
    match frameAt streams capacity n n.durable with
    | some f => { n with durable := n.durable + f.aligned }
    | none => n

def run (n : ReceivePath) (sts : List RxStep) : ReceivePath :=
  sts.foldl (step streams capacity) n

def Runs (n : ReceivePath) (sts : List RxStep) : Prop :=
  Trace.Admits (step streams capacity) (Possible streams capacity) n sts

/-- A receiver at its first duty cycle, the counters primed at `start`. -/
def boot (start floor : ℕ) (ring : ℕ → Option RingByte) : ReceivePath where
  append := start
  durable := start
  floor
  primeGen := 0
  gateOpen := false
  term := 0
  adoptPending := 0
  ring
  rebuilt := .new start
  lastPublished := start
  oooTerm := 0
  pc := .idle
  prime := .none
  epoch := 0
  rewrote := false

end ReceivePath

end UltimaCluster
