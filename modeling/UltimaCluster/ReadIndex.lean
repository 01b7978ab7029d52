/-
  Linearizable reads over whole runs of a cluster.

  A certified read was backed: a majority of the voters of that moment, the
  leader among them, were each in the read's term at some instant between its
  admission and its certification.  The acks of a round are counted as they
  come, so there need not be one instant for all of them.
-/
import UltimaCluster.ElectionSafety
import UltimaCluster.ReadSafety

namespace UltimaCluster

open ElectionSm

theorem ElectionSm.new_serving {cfg : ElectionConfig} {vote : Option (ℕ × NodeId)} {map : TermMap}
    {durable nowNs : ℕ} {sm : ElectionSm} (h : new cfg vote map durable nowNs = some sm) :
    sm.serving = false := by
  unfold new at h
  dsimp only at h
  split_ifs at h
  cases h
  obtain ⟨r, d, hf⟩ := armTimeout_frame _ nowNs
  rw [hf]

theorem Node.boot_serving (n : Node) (map : TermMap) (durable nowNs : ℕ) (seed : UInt64) :
    (n.boot map durable nowNs seed).sm.serving = false ∨ (n.boot map durable nowNs seed).sm = n.sm := by
  unfold Node.boot
  split
  · exact .inr rfl
  · dsimp only
    split
    · rename_i sm hsm
      have hs : sm.serving = false := new_serving hsm
      exact .inl hs
    · exact .inr rfl

namespace ReadCluster

open Reader

/-- An ack is counted only if it answers a probe of the process that it
    reaches. -/
def CountsOwn (w : ReadCluster) : ReadStep → Prop
  | .readProbeAck a => ∀ round ∈ (w.readers a.dest).currentRound, round.nonce = a.nonce →
      (w.readers a.dest).startedAt ≤ a.probedAt
  | _ => True

instance (w : ReadCluster) : (st : ReadStep) → Decidable (w.CountsOwn st)
  | .readProbeAck _ => inferInstanceAs (Decidable (∀ round ∈ _, _))
  | .cluster _ | .drainQueryRing _ _ _ _ _ _ | .advancePendingReads _ _ _ _ | .readProbe _ _ =>
    .isTrue trivial

/-! ## The invariant -/

/-- An ack was sent in the term that it names, in answer to a probe. -/
structure AckOk (Seen : NodeId → ℕ → ℕ → Prop) (now : ℕ) (probes : List Probe) (a : Ack) : Prop where
  seen : Seen a.src a.term a.sentAt
  past : a.sentAt ≤ now
  probe : ∃ p ∈ probes, p.src = a.dest ∧ p.nonce = a.nonce ∧ p.sentAt = a.probedAt ∧
    p.term = a.term ∧ a.probedAt ≤ a.sentAt

/-- The invariant of a run. -/
structure ReadInv (Seen : NodeId → ℕ → ℕ → Prop) (now : ℕ) (w : ReadCluster) : Prop where
  ids : ∀ n, (w.readers n).id = n
  sound : ∀ n, Sound Seen now (w.sm n) w.probes (w.readers n)
  acks : ∀ a ∈ w.acks, AckOk Seen now w.probes a
  probes : ∀ p ∈ w.probes, p.sentAt ≤ now
  certified : ∀ c ∈ w.certified, Backed Seen c

variable {Seen Seen' : NodeId → ℕ → ℕ → Prop} {now : ℕ} {w : ReadCluster}

theorem Backed.mono {c : Certificate} (h : Backed Seen c) (hs : ∀ v t k, Seen v t k → Seen' v t k) :
    Backed Seen' c := by
  obtain ⟨q, h1, h2, h3, h4, h5⟩ := h
  refine ⟨q, h1, h2, h3, h4, fun v hv => ?_⟩
  obtain ⟨k, hk1, hk2, hk3⟩ := h5 v hv
  exact ⟨k, hk1, hk2, hs _ _ _ hk3⟩

theorem ReadInv.mono (h : ReadInv Seen now w) (hs : ∀ v t k, Seen v t k → Seen' v t k) :
    ReadInv Seen' (now + 1) w where
  ids := h.ids
  sound n := (h.sound n).mono hs (Nat.le_succ now)
  acks a ha := { h.acks a ha with
    seen := hs _ _ _ (h.acks a ha).seen
    past := (h.acks a ha).past.trans (Nat.le_succ now) }
  probes p hp := (h.probes p hp).trans (Nat.le_succ now)
  certified c hc := Backed.mono (h.certified c hc) hs

variable {n : NodeId}

theorem mem_probesOf {now : ℕ} {out : List ReadAction} {p : Probe} (h : p ∈ probesOf n now out) :
    p.src = n ∧ p.sentAt = now := by
  obtain ⟨a, -, ha⟩ := List.mem_filterMap.mp h
  cases a with
  | sendReadProbe _ _ _ =>
    cases ha
    exact ⟨rfl, rfl⟩
  | _ => cases ha

theorem mem_certificatesOf {config : ClusterConfig} {now : ℕ} {out : List ReadAction}
    {c : Certificate} (h : c ∈ certificatesOf n config now out) :
    ∃ read, .certified read ∈ out ∧ c = certificate n config now read := by
  obtain ⟨a, hmem, ha⟩ := List.mem_filterMap.mp h
  cases a with
  | certified read =>
    cases ha
    exact ⟨read, hmem, rfl⟩
  | _ => cases ha

@[simp] theorem perform_sm (w : ReadCluster) (n m : NodeId) (r : Reader × List ReadAction) :
    (w.perform n r).sm m = w.sm m := rfl

/-! ## One step -/

theorem AckOk.moreProbes {probes more : List Probe} {a : Ack} (h : AckOk Seen now probes a) :
    AckOk Seen now (more ++ probes) a := by
  obtain ⟨p, hp, hrest⟩ := h.probe
  exact { h with probe := ⟨p, List.mem_append_right _ hp, hrest⟩ }

/-- A function of the read barrier at `n`. -/
theorem ReadInv.perform {r : Reader × List ReadAction} (h : ReadInv Seen (w.clock + 1) w)
    (hk : Keeps Seen (w.clock + 1) (w.sm n) w.probes n r) :
    ReadInv Seen (w.clock + 1) (w.perform n r) where
  ids m := by
    by_cases hm : m = n
    · subst hm
      exact (congrArg Reader.id (if_pos rfl)).trans hk.owner
    · exact (congrArg Reader.id (if_neg hm)).trans (h.ids m)
  sound m := by
    by_cases hm : m = n
    · subst hm
      have : (w.perform m r).readers m = r.1 := if_pos rfl
      rw [this]
      exact hk.sound
    · have : (w.perform n r).readers m = w.readers m := if_neg hm
      rw [this]
      refine (h.sound m).moreProbes fun p hp => ?_
      rw [(mem_probesOf hp).1, h.ids]
      exact fun heq => hm heq.symm
  acks a ha := (h.acks a ha).moreProbes
  probes p hp := by
    rcases List.mem_append.mp hp with hp | hp
    · exact (mem_probesOf hp).2.le
    · exact h.probes p hp
  certified c hc := by
    rcases List.mem_append.mp hc with hc | hc
    · obtain ⟨read, hmem, rfl⟩ := mem_certificatesOf hc
      exact hk.backed read hmem
    · exact h.certified c hc

theorem exec_sm (c : Cluster) (st : Step) (hr : ∀ n map d t s, st ≠ .restart n map d t s)
    (m : NodeId) : ((c.exec st).nodes m).sm = match fed c st with
      | some (n, ev) => if m = n then ((c.nodes n).sm.step ev).1 else (c.nodes m).sm
      | none => (c.nodes m).sm := by
  have hfeed : ∀ (c : Cluster) n ev, ((c.feed n ev).nodes m).sm =
      if m = n then ((c.nodes n).sm.step ev).1 else (c.nodes m).sm := by
    intro c n ev
    split
    · rename_i hm
      subst hm
      rw [Cluster.feed_nodes_self, Node.feed_sm]
    · rename_i hm
      rw [Cluster.feed_nodes_ne c hm]
  cases st with
  | event n ev => exact hfeed c n ev
  | report n durable => rfl
  | propose n op slack position =>
    dsimp only [fed, Cluster.exec]
    cases (c.nodes n).sm.proposeConfig op slack with
    | ok config => exact hfeed _ n _
    | error e => rfl
  | restart n map durable nowNs seed => exact absurd rfl (hr _ _ _ _ _)

theorem sound_start {sm : ElectionSm} {probes : List Probe} (hserv : sm.serving → sm.role = .leader)
    (hold : ∀ p ∈ probes, p.sentAt < now) (n : NodeId) :
    Sound Seen now sm probes (.start n sm.config now) where
  peers := rfl
  serving := hserv
  leads r hr := by cases hr
  ticking _ := .inl rfl
  admitted r hr := by cases hr
  round round hr := by cases hr
  probes p hp _ hstart := absurd hstart (not_le.mpr (hold p hp))

theorem exec_clock (w : ReadCluster) (st : ReadStep) : (w.exec st).clock = w.clock + 1 := by
  cases st with
  | cluster st => cases st <;> rfl
  | _ => rfl

theorem exec_cluster {st : Step} (hr : ∀ n map d t s, st ≠ .restart n map d t s) :
    w.exec (.cluster st) = { w with
      cluster := w.cluster.exec st
      readers := match fed w.cluster st with
        | some (n, ev) => w.setReader n ((w.readers n).feed (w.sm n) ev)
        | none => w.readers
      clock := w.clock + 1 } := by
  cases st with
  | restart n map durable nowNs seed => exact absurd rfl (hr _ _ _ _ _)
  | _ => rfl

theorem ReadInv.moveNode (h : ReadInv Seen now w) {w' : ReadCluster} (n : NodeId)
    (hs : Sound Seen now (w'.sm n) w.probes (w'.readers n)) (hid : (w'.readers n).id = n)
    (hother : ∀ m, m ≠ n → w'.sm m = w.sm m ∧ w'.readers m = w.readers m)
    (hnet : w'.probes = w.probes ∧ w'.acks = w.acks ∧ w'.certified = w.certified) :
    ReadInv Seen now w' := by
  obtain ⟨hp, ha, hc⟩ := hnet
  refine ⟨fun m => ?_, fun m => ?_, ?_, ?_, ?_⟩
  · by_cases hm : m = n
    · rw [hm, hid]
    · rw [(hother m hm).2, h.ids]
  · rw [hp]
    by_cases hm : m = n
    · rw [hm]
      exact hs
    · rw [(hother m hm).1, (hother m hm).2]
      exact h.sound m
  · rw [ha, hp]
    exact h.acks
  · rw [hp]
    exact h.probes
  · rw [hc]
    exact h.certified

theorem ReadInv.execCluster (h : ReadInv Seen now w) {st : Step}
    (hr : ∀ n map d t s, st ≠ .restart n map d t s) (hp : w.Possible (.cluster st)) :
    ReadInv Seen now (w.exec (.cluster st)) := by
  have hsm := exec_sm w.cluster st hr
  rw [exec_cluster hr]
  cases hfed : fed w.cluster st with
  | none =>
    rw [hfed] at hsm
    refine h.moveNode 0 ?_ (h.ids 0) (fun m _ => ⟨hsm m, rfl⟩) ⟨rfl, rfl, rfl⟩
    have h0 : ((w.cluster.exec st).nodes 0).sm = w.sm 0 := hsm 0
    rw [sm, h0]
    exact h.sound 0
  | some e =>
    obtain ⟨n, ev⟩ := e
    have hin : InPass (w.readers n).pass ev := hp.2 (n, ev) hfed
    rw [hfed] at hsm
    have h1 : ((w.cluster.exec st).nodes n).sm = ((w.sm n).step ev).1 := (hsm n).trans (if_pos rfl)
    have h2 : w.setReader n ((w.readers n).feed (w.sm n) ev) n = (w.readers n).feed (w.sm n) ev :=
      if_pos rfl
    refine h.moveNode n ?_ ?_ (fun m hm => ⟨(hsm m).trans (if_neg hm), if_neg hm⟩) ⟨rfl, rfl, rfl⟩
    · rw [sm, h1]
      dsimp only
      rw [h2]
      exact (h.sound n).feed hin
    · dsimp only
      rw [h2]
      refine Eq.trans ?_ (h.ids n)
      cases ev <;> exact (foldl_obey_obeyed _ _).id

theorem ReadInv.execRestart (h : ReadInv Seen (w.clock + 1) w)
    (hpast : ∀ p ∈ w.probes, p.sentAt ≤ w.clock) (n : NodeId) (map : TermMap)
    (durable nowNs : ℕ) (seed : UInt64) :
    ReadInv Seen (w.clock + 1) (w.exec (.cluster (.restart n map durable nowNs seed))) := by
  have h1 : (w.exec (.cluster (.restart n map durable nowNs seed))).sm n =
      ((w.cluster.nodes n).boot map durable nowNs seed).sm := congrArg Node.sm (if_pos rfl)
  have h2 : (w.exec (.cluster (.restart n map durable nowNs seed))).readers n =
      .start n ((w.exec (.cluster (.restart n map durable nowNs seed))).sm n).config
        (w.clock + 1) := if_pos rfl
  have hserv : ((w.cluster.nodes n).boot map durable nowNs seed).sm.serving →
      ((w.cluster.nodes n).boot map durable nowNs seed).sm.role = .leader := by
    rcases (w.cluster.nodes n).boot_serving map durable nowNs seed with hf | heq
    · intro ht
      rw [hf] at ht
      cases ht
    · rw [heq]
      exact (h.sound n).serving
  refine h.moveNode n ?_ ?_ (fun m hm => ⟨congrArg Node.sm (if_neg hm), if_neg hm⟩) ⟨rfl, rfl, rfl⟩
  · rw [h2, h1]
    exact sound_start hserv (fun p hp => Nat.lt_succ_of_le (hpast p hp)) n
  · rw [h2]
    rfl

theorem ReadInv.execProbe (h : ReadInv Seen (w.clock + 1) w) {p : Probe} (hp : p ∈ w.probes)
    (hnow : Seen n (w.sm n).currentTerm (w.clock + 1)) :
    ReadInv Seen (w.clock + 1) (w.exec (.readProbe n p)) := by
  refine { h with acks := fun a ha => ?_ }
  dsimp only [exec] at ha
  split at ha
  · rename_i hans
    rcases List.mem_cons.mp ha with rfl | ha
    · have hterm : p.term = (w.sm n).currentTerm := by
        unfold onReadProbe at hans
        simp only [Bool.and_eq_true, beq_iff_eq] at hans
        exact hans.2
      exact ⟨hnow, le_rfl, p, hp, rfl, rfl, rfl, hterm, h.probes p hp⟩
    · exact h.acks a ha
  · exact h.acks a ha

theorem ReadInv.execAck (h : ReadInv Seen (w.clock + 1) w) {a : Ack}
    (hp : w.Possible (.readProbeAck a)) (hown : w.CountsOwn (.readProbeAck a)) :
    ReadInv Seen (w.clock + 1) (w.exec (.readProbeAck a)) := by
  obtain ⟨hpass, ha⟩ := hp
  have hsound := h.sound a.dest
  have hk := hsound.onReadProbeAck (by simp [hpass]) (by
    intro round hround hnonce
    have hack := h.acks a ha
    obtain ⟨p, hp, hsrc, hpn, hpat, hpt, hle⟩ := hack.probe
    have hstart : (w.readers a.dest).startedAt ≤ p.sentAt := hpat.symm ▸ hown round hround hnonce
    obtain ⟨hterm, hissued⟩ := (hsound.probes p hp (hsrc.trans (h.ids _).symm) hstart).2 round
      hround (hpn.trans hnonce.symm)
    refine ⟨a.sentAt, ?_, hack.past, ?_⟩
    · exact hissued.trans (hpat.symm ▸ hle)
    · rw [← hterm, hpt]
      exact hack.seen)
  rw [h.ids] at hk
  exact h.perform hk

theorem ReadInv.exec (h : ReadInv Seen w.clock w) {st : ReadStep} (hp : w.Possible st)
    (hown : w.CountsOwn st) (hs : ∀ v t k, Seen v t k → Seen' v t k)
    (hnow : ∀ v, Seen' v ((w.exec st).sm v).currentTerm (w.clock + 1)) :
    ReadInv Seen' (w.exec st).clock (w.exec st) := by
  have h' := h.mono hs
  rw [exec_clock]
  cases st with
  | cluster st =>
    by_cases hr : ∃ n map d t s, st = .restart n map d t s
    · obtain ⟨n, map, d, t, s, rfl⟩ := hr
      exact h'.execRestart h.probes n map d t s
    · exact h'.execCluster (fun n map d t s he => hr ⟨n, map, d, t, s, he⟩) hp
  | drainQueryRing n gate ring qs commit nowNs =>
    have hk := (h'.sound n).drainQueryRing ((h'.ids n).symm ▸ hnow n) gate ring qs commit nowNs
    rw [h'.ids] at hk
    exact h'.perform hk
  | advancePendingReads n slot commit nowNs =>
    have hk := (h'.sound n).advancePendingReads ((h'.ids n).symm ▸ hnow n) slot commit nowNs
    rw [h'.ids] at hk
    exact h'.perform hk
  | readProbe n p => exact h'.execProbe hp.2.1 (hnow n)
  | readProbeAck a => exact h'.execAck hp hown

/-! ## Runs -/

/-- At the instant `k` of the run, node `v` was in term `t`. -/
def InTerm (w : ReadCluster) (sts : List ReadStep) (v : NodeId) (t k : ℕ) : Prop :=
  Trace.HeldAt exec w sts (fun w => (w.sm v).currentTerm = t) k

theorem Genesis.readInv {genesis : ClusterConfig} (h : Genesis genesis w) :
    ReadInv Seen w.clock w where
  ids n := by rw [h.readers]; rfl
  sound n := by
    obtain ⟨cfg, nowNs, -, hcfg, -, hnew⟩ := h.cluster.booted n
    have hconfig : (w.sm n).config = genesis := (new_recovers hnew).2.2.2.2.2.1.trans hcfg
    have hserv : (w.sm n).serving = false := new_serving hnew
    rw [h.readers, h.probes, h.clock, ← hconfig]
    exact sound_start (by simp [hserv]) (by simp) n
  acks := by simp [h.acks]
  probes := by simp [h.probes]
  certified := by simp [h.certified]

/-- **Certified reads are backed**: in every run in which no node counts an ack
    to a probe of an earlier process, for every read that passes to
    `AwaitApplied` a majority of the voters of that moment, the leader included,
    were each in the term of its admission at an instant since. -/
theorem certified_read_backed {genesis : ClusterConfig} {w : ReadCluster} (h0 : Genesis genesis w)
    {sts : List ReadStep} (hrun : Runs CountsOwn w sts) :
    ∀ c ∈ (w.run sts).certified, ∃ q : List NodeId, q.Nodup ∧ c.leader ∈ q ∧
      (∀ v ∈ q, v ∈ c.voters) ∧ c.voters.length < 2 * q.length ∧
      ∀ v ∈ q, ∃ k, c.read.admittedAt ≤ k ∧ k ≤ c.certifiedAt ∧ InTerm w sts v c.read.term k := by
  have hinv : (w.run sts).clock = sts.length ∧
      ReadInv (InTerm w sts) (w.run sts).clock (w.run sts) := by
    refine Trace.Admits.rule (P := fun sts => (w.run sts).clock = sts.length ∧
      ReadInv (InTerm w sts) (w.run sts).clock (w.run sts)) ⟨h0.clock, h0.readInv⟩ ?_ hrun
    rintro sts st ⟨hclock, hinv⟩ ⟨hposs, hown⟩
    have hsnoc : w.run (sts ++ [st]) = (w.run sts).exec st := List.foldl_concat ..
    have hlen : (w.run sts).clock + 1 = (sts ++ [st]).length := by simp [hclock]
    rw [hsnoc]
    refine ⟨by rw [exec_clock, hlen], hinv.exec hposs hown (fun v t k hk => hk.append [st]) ?_⟩
    intro v
    rw [hlen]
    refine Trace.heldAt_length ?_
    rw [← hsnoc]
    rfl
  exact hinv.2.certified

/-! ## Two runs -/

/-- The fresh cluster of nodes that start with the given voters. -/
def fresh (voters : List NodeId) : ReadCluster where
  cluster := .fresh voters
  readers n := .start n (.genesis (voters.map fun v => (v, 0, v)) []) 0
  probes := []
  acks := []
  certified := []
  clock := 0

theorem fresh_genesis (v : NodeId) (voters : List NodeId) :
    Genesis (.genesis ((v :: voters).map fun v => (v, 0, v)) []) (fresh (v :: voters)) where
  cluster := Cluster.fresh_genesis v voters
  readers _ := rfl
  probes := rfl
  acks := rfl
  certified := rfl
  clock := rfl

/-- The end of a duty cycle of `n`, from its query ring to its tick. -/
def pass (n : NodeId) (qs : List QueryRecord) (commit nowNs : ℕ) : List ReadStep :=
  [.drainQueryRing n true (fun _ => true) qs commit nowNs,
    .advancePendingReads n (fun _ => ⟨0, 0, false⟩) commit nowNs,
    .cluster (.event n (.tick nowNs))]

/-- A linearizable query for service 0. -/
def query (commit nowNs : ℕ) : QueryRecord := ⟨7, 1, false, true, [0], commit, nowNs⟩

/-- `follower` holds the leader's first 64 bytes, of term 1. -/
def follows (follower : NodeId) : List ReadStep :=
  [.cluster (.event follower (.dataTermObserved 1 0)),
    .cluster (.event follower (.durableAdvanced 64)),
    .cluster (.event follower (.termMapReceived 1 [(1, 0)])),
    .cluster (.report follower 64),
    .cluster (.event 1 (.report follower 1 64 1))]

/-- Node 1 of five voters leads term 1 and serves, with the votes and bytes of
    nodes 2 and 3; then node 2 stands for term 2. -/
def serveAndStand : List ReadStep :=
  pass 1 [] 0 20 ++
    [.cluster (.event 2 (.requestVote 1 1 0 0)),
      .cluster (.event 3 (.requestVote 1 1 0 0)),
      .cluster (.event 1 (.vote 2 1 true)),
      .cluster (.event 1 (.vote 3 1 true)),
      .cluster (.event 1 (.newTermAppended 64)),
      .cluster (.event 1 (.durableAdvanced 64))] ++
    follows 2 ++ follows 3 ++ pass 2 [] 0 20 ++ pass 2 [] 0 40

/-- A read is admitted and its round certified with the acks of node 3, which
    goes on to term 2, and of node 4, which came to term 1 after that. -/
def ackInTurn : List ReadStep :=
  pass 1 [query 64 30] 64 30 ++
    [.readProbe 3 ⟨0, 1, 1, [2, 3, 4, 5], 26⟩,
      .cluster (.event 3 (.requestVote 2 2 1 64)),
      .cluster (.event 4 (.leaderSeen 1)),
      .readProbe 4 ⟨0, 1, 1, [2, 3, 4, 5], 26⟩,
      .readProbeAck ⟨0, 3, 1, 1, 29, 26⟩,
      .readProbeAck ⟨0, 4, 1, 1, 32, 26⟩]

/-- The read of that run is backed by nodes 1, 3 and 4. -/
theorem certified_read_backed_in_turn :
    Runs CountsOwn (fresh [1, 2, 3, 4, 5]) (serveAndStand ++ ackInTurn) ∧
      ((fresh [1, 2, 3, 4, 5]).run (serveAndStand ++ ackInTurn)).certified.length = 1 ∧
      ∀ c ∈ ((fresh [1, 2, 3, 4, 5]).run (serveAndStand ++ ackInTurn)).certified,
        ∃ q : List NodeId, q.Nodup ∧ c.leader ∈ q ∧ (∀ v ∈ q, v ∈ c.voters) ∧
          c.voters.length < 2 * q.length ∧ ∀ v ∈ q, ∃ k, c.read.admittedAt ≤ k ∧
            k ≤ c.certifiedAt ∧
            InTerm (fresh [1, 2, 3, 4, 5]) (serveAndStand ++ ackInTurn) v c.read.term k := by
  have hrun : Runs CountsOwn (fresh [1, 2, 3, 4, 5]) (serveAndStand ++ ackInTurn) := by
    decide +kernel
  exact ⟨hrun, by decide +kernel, certified_read_backed (fresh_genesis 1 [2, 3, 4, 5]) hrun⟩

/-- The acks are counted as they come: in that run at no instant since the
    admission more than two of the five voters were in term 1. -/
theorem acks_of_different_instants :
    ¬ ∀ genesis w, Genesis genesis w → ∀ sts, Runs (fun _ _ => True) w sts →
      ∀ c ∈ (w.run sts).certified, ∃ k, c.read.admittedAt ≤ k ∧ ∃ q : List NodeId, q.Nodup ∧
        (∀ v ∈ q, v ∈ c.voters) ∧ c.voters.length < 2 * q.length ∧
        ∀ v ∈ q, InTerm w sts v c.read.term k := by
  intro h
  have hfacts : Runs (fun _ _ => True) (fresh [1, 2, 3, 4, 5]) (serveAndStand ++ ackInTurn) ∧
      (∀ k ≤ 34, 26 ≤ k → ([1, 2, 3, 4, 5].filter fun v => (((fresh [1, 2, 3, 4, 5]).run
        ((serveAndStand ++ ackInTurn).take k)).sm v).currentTerm = 1).length ≤ 2) ∧
      ∃ c ∈ ((fresh [1, 2, 3, 4, 5]).run (serveAndStand ++ ackInTurn)).certified,
        c.voters = [1, 2, 3, 4, 5] ∧ c.read.term = 1 ∧ c.read.admittedAt = 26 := by
    decide +kernel
  obtain ⟨hrun, hfew, c, hc, hvoters, hterm, hat⟩ := hfacts
  obtain ⟨k, hk, q, hnodup, hsub, hmaj, hin⟩ := h _ _ (fresh_genesis 1 [2, 3, 4, 5]) _ hrun c hc
  rw [hvoters] at hsub hmaj
  rw [hterm] at hin
  -- a majority is not empty, so the instant lies in the run
  have hlen : k ≤ 34 := by
    cases q with
    | nil => simp at hmaj
    | cons v q => exact (hin v List.mem_cons_self).1
  have hle : q.length ≤ 2 := by
    refine le_trans ((List.subperm_of_subset hnodup ?_).length_le) (hfew k hlen (hat ▸ hk))
    intro v hv
    exact List.mem_filter.mpr ⟨hsub v hv, decide_eq_true (hin v hv).2⟩
  simp only [List.length_cons, List.length_nil] at hmaj
  omega

/-- Node 1 of three voters serves term 1 with node 2, and its first round is
    acked by node 2; the ack is delayed. -/
def delayAck : List ReadStep :=
  pass 1 [] 0 20 ++
    [.cluster (.event 2 (.requestVote 1 1 0 0)),
      .cluster (.event 1 (.vote 2 1 true)),
      .cluster (.event 1 (.newTermAppended 64)),
      .cluster (.event 1 (.durableAdvanced 64))] ++
    follows 2 ++ follows 3 ++ pass 1 [query 64 30] 64 30 ++ [.readProbe 2 ⟨0, 1, 1, [2, 3], 18⟩]

/-- Node 1 restarts and serves term 2 with node 3; then nodes 2 and 3 go on to
    term 3. -/
def restartAndServe : List ReadStep :=
  [.cluster (.restart 1 [(1, 0)] 64 50 1)] ++ pass 1 [] 0 80 ++
    [.cluster (.event 3 (.requestVote 1 2 1 64)),
      .cluster (.event 1 (.vote 3 2 true)),
      .cluster (.event 1 (.newTermAppended 128)),
      .cluster (.event 1 (.durableAdvanced 128)),
      .cluster (.event 3 (.dataTermObserved 2 64)),
      .cluster (.event 3 (.durableAdvanced 128)),
      .cluster (.event 3 (.termMapReceived 2 [(1, 0), (2, 64)])),
      .cluster (.report 3 128),
      .cluster (.event 1 (.report 3 2 128 2))] ++
    pass 2 [] 64 100 ++ pass 2 [] 64 200 ++ pass 2 [] 64 300 ++
    [.cluster (.event 3 (.requestVote 2 3 1 64))]

/-- The nonces start over with the process: the delayed ack of term 1 certifies
    a read of term 2, when no other node has been in that term since. -/
theorem ack_of_earlier_process_counts :
    ∃ sts, Runs (fun _ _ => True) (fresh [1, 2, 3]) sts ∧ ∃ c ∈ ((fresh [1, 2, 3]).run sts).certified,
      c.voters = [1, 2, 3] ∧ c.leader = 1 ∧ ∀ k ≤ sts.length, c.read.admittedAt ≤ k →
        ∀ v ∈ c.voters, (((fresh [1, 2, 3]).run (sts.take k)).sm v).currentTerm = c.read.term →
          v = c.leader := by
  refine ⟨delayAck ++ restartAndServe ++ pass 1 [query 128 90] 128 90 ++
    [.readProbeAck ⟨0, 2, 1, 1, 21, 18⟩], ?_⟩
  decide +kernel

end ReadCluster

end UltimaCluster
