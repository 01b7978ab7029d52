/-
  What a certified read rests on.

  A round certifies a read only with acks that were sent after the round was
  issued, by voters that were in the round's term when they sent them, and the
  round was issued after the read was admitted, in the term of its admission.
  Two facts about the duty cycle carry this: reads that lost their leader are
  swept before the tick, the one place where a candidacy starts, and a round
  issued on the way is dropped with them.
-/
import UltimaCluster.ConfigLog
import UltimaCluster.ReadNet
import UltimaCluster.Serving

namespace UltimaCluster

/-! ## The peers follow the config -/

namespace ElectionSm

/-- Either the config stays and nothing is announced, or the new config is
    announced first. -/
theorem Trans.announces {ev : Event} {s s' : ElectionSm} {out : List Action}
    (h : Trans ev s s' out) : (s'.config = s.config ∧ NoAdoption out) ∨
      ∃ position prevPosition prev rest, NoAdoption rest ∧
        out = .configAdopted position s'.config prevPosition prev :: rest := by
  cases h with
  | adopt term _ _ =>
    exact .inl ⟨rfl, (haltIfRemovedFollower_spares (adoptTerm term none s).1
      (.becomeFollower term none) ⟨by simp [NoAdoption], rfl⟩).1⟩
  | stepDown _ _ =>
    exact .inl ⟨rfl, (haltIfRemovedFollower_spares s.stepDownToFollower.1
      (.becomeFollower s.currentTerm none) ⟨by simp [NoAdoption], rfl⟩).1⟩
  | rank nowNs _ _ =>
    obtain ⟨_, _, _, _, _, _, _, _, h⟩ := rankLeader_frame s nowNs
    exact .inl ⟨by rw [h], (rankLeader_spares nowNs s).1⟩
  | durableAdvance durable _ =>
    refine .inl ⟨?_, by simp [NoAdoption]⟩
    unfold onDurableAdvanced
    dsimp only
    split <;> rfl
  | gossip _ _ =>
    obtain ⟨_, _, h⟩ := advanceGossipCommit_frame s
    exact .inl ⟨by rw [h], (advanceGossipCommit_spares s).1⟩
  | finish _ _ =>
    obtain ⟨_, _, h⟩ := finishValidation_frame s
    exact .inl ⟨by rw [h], (finishValidation_spares s).1⟩
  | observeTerm term base _ hlt _ =>
    rw [onDataTermObserved, if_pos hlt]
    exact .inl ⟨rfl, by simp [NoAdoption]⟩
  | revert _ target _ =>
    unfold revertConfig
    split
    · exact .inr ⟨_, _, _, [], by simp [NoAdoption], rfl⟩
    · exact .inl ⟨rfl, by simp [NoAdoption]⟩
  | observeConfig position config _ _ =>
    obtain ⟨_, _, h⟩ := adoptConfig_frame s position config
    obtain ⟨rest, hrest, hout⟩ := adoptConfig_announces position config s
    rw [h]
    exact .inr ⟨_, _, _, rest, hrest.1, hout⟩
  | win _ _ _ => exact .inl ⟨rfl, by simp [NoAdoption, becomeLeader]⟩
  | grant _ _ _ _ _ _ _ => exact .inl ⟨rfl, by simp [NoAdoption, grantVote]⟩
  | cut _ _ _ _ _ _ | wipe _ _ _ _ => exact .inl ⟨rfl, by simp [NoAdoption, issueTruncate]⟩
  | _ => exact .inl ⟨rfl, by simp [NoAdoption]⟩

end ElectionSm

namespace Reader

open ElectionSm

/-- What the actions of a step can do to the read barrier. -/
structure Obeyed (rd rd' : Reader) : Prop where
  id : rd'.id = rd.id
  seq : rd'.nextRoundSeq = rd.nextRoundSeq
  nonce : rd'.nextNonce = rd.nextNonce
  started : rd'.startedAt = rd.startedAt
  reads : rd'.pendingReads = rd.pendingReads ∨ rd'.pendingReads = []
  round : (rd'.currentRound = rd.currentRound ∧ rd'.peers = rd.peers) ∨ rd'.currentRound = none

theorem obey_obeyed (rd : Reader) (a : Action) : Obeyed rd (rd.obey a) := by
  cases a with
  | configAdopted _ _ _ _ => exact ⟨rfl, rfl, rfl, rfl, .inl rfl, .inr rfl⟩
  | haltRemoved | stepDownRemoved => exact ⟨rfl, rfl, rfl, rfl, .inr rfl, .inr rfl⟩
  | _ => exact ⟨rfl, rfl, rfl, rfl, .inl rfl, .inl ⟨rfl, rfl⟩⟩

theorem Obeyed.trans {rd rd' rd'' : Reader} (h : Obeyed rd rd') (h' : Obeyed rd' rd'') :
    Obeyed rd rd'' where
  id := h'.id.trans h.id
  seq := h'.seq.trans h.seq
  nonce := h'.nonce.trans h.nonce
  started := h'.started.trans h.started
  reads := by
    rcases h'.reads with h1 | h1
    · rw [h1]
      exact h.reads
    · exact .inr h1
  round := by
    rcases h'.round with ⟨h1, h2⟩ | h1
    · rw [h1, h2]
      exact h.round
    · exact .inr h1

theorem foldl_obey_obeyed (out : List Action) (rd : Reader) : Obeyed rd (out.foldl obey rd) := by
  induction out generalizing rd with
  | nil => exact ⟨rfl, rfl, rfl, rfl, .inl rfl, .inl ⟨rfl, rfl⟩⟩
  | cons a out ih => exact (obey_obeyed rd a).trans (ih _)

theorem foldl_obey_pass (out : List Action) (rd : Reader) :
    (out.foldl obey rd).pass = rd.pass := by
  induction out generalizing rd with
  | nil => rfl
  | cons a out ih =>
    rw [List.foldl_cons, ih]
    cases a <;> rfl

theorem foldl_obey_peers {out : List Action} (h : NoAdoption out) (rd : Reader) :
    (out.foldl obey rd).peers = rd.peers := by
  induction out generalizing rd with
  | nil => rfl
  | cons a out ih =>
    have htail : NoAdoption out := fun p c pp pc hmem => h p c pp pc (List.mem_cons_of_mem _ hmem)
    rw [List.foldl_cons, ih htail]
    cases a with
    | configAdopted p c pp pc => exact absurd List.mem_cons_self (h p c pp pc)
    | _ => rfl

/-- The peers are the voters of the node's config, but for the node itself. -/
def PeersOf (config : ClusterConfig) (rd : Reader) : Prop :=
  rd.peers = (derivePeerMaps config rd.id).2

theorem PeersOf.steps {ev : Event} {s s' : ElectionSm} {out : List Action} (h : Steps ev s s' out)
    {rd : Reader} (hp : rd.PeersOf s.config) : (out.foldl obey rd).PeersOf s'.config := by
  induction h generalizing rd with
  | nil => exact hp
  | cons ht _ ih =>
    rw [List.foldl_append]
    refine ih ?_
    rcases ht.announces with ⟨hc, hn⟩ | ⟨position, prevPosition, prev, rest, hn, rfl⟩
    · rw [PeersOf, foldl_obey_peers hn, (foldl_obey_obeyed _ rd).id, hc]
      exact hp
    · rw [List.foldl_cons, PeersOf, foldl_obey_peers hn, (foldl_obey_obeyed _ _).id]
      rfl

/-! ## The invariant of one node

`Seen v t k` is to say that node `v` was in term `t` at the instant `k`. -/

/-- A majority of the voters, the leader among them, were each in the read's
    term at an instant between its admission and its certification. -/
def Backed (Seen : NodeId → ℕ → ℕ → Prop) (c : Certificate) : Prop :=
  ∃ q : List NodeId, q.Nodup ∧ c.leader ∈ q ∧ (∀ v ∈ q, v ∈ c.voters) ∧
    c.voters.length < 2 * q.length ∧
    ∀ v ∈ q, ∃ k, c.read.admittedAt ≤ k ∧ k ≤ c.certifiedAt ∧ Seen v c.read.term k

section

variable (Seen : NodeId → ℕ → ℕ → Prop) (now : ℕ)

/-- What holds of the round in flight. -/
structure RoundOk (rd : Reader) (round : ProbeRound) : Prop where
  seq : round.seq < rd.nextRoundSeq
  nonce : round.nonce < rd.nextNonce
  quorum : round.quorum = rd.quorum
  nodup : round.ackers.Nodup
  self : rd.id ∈ round.ackers
  voters : ∀ v ∈ round.ackers, v ∈ rd.id :: rd.peers
  seen : ∀ v ∈ round.ackers, ∃ k, round.issuedAt ≤ k ∧ k ≤ now ∧ Seen v round.term k
  admitted : ∀ r ∈ rd.pendingReads, r.roundSeq ≤ round.seq → r.admittedAt ≤ round.issuedAt
  -- a round issued after the leadership was lost is dropped by the same pass
  term : rd.pass ≠ .advance → ∀ r ∈ rd.pendingReads, r.roundSeq ≤ round.seq → r.term = round.term

/-- What a reader's rounds rest on. -/
structure Sound (sm : ElectionSm) (probes : List Probe) (rd : Reader) : Prop where
  peers : rd.PeersOf sm.config
  serving : sm.serving → sm.role = .leader
  leads : ∀ r ∈ rd.pendingReads,
    sm.role ≠ .candidate ∧ (sm.role = .leader → r.term = sm.currentTerm)
  ticking : rd.pass = .tick → rd.pendingReads = [] ∨ sm.serving
  admitted : ∀ r ∈ rd.pendingReads, r.admittedAt ≤ now ∧ Seen rd.id r.term r.admittedAt
  round : ∀ round ∈ rd.currentRound, RoundOk Seen now rd round
  probes : ∀ p ∈ probes, p.src = rd.id → rd.startedAt ≤ p.sentAt → p.nonce < rd.nextNonce ∧
    ∀ round ∈ rd.currentRound, p.nonce = round.nonce →
      p.term = round.term ∧ round.issuedAt ≤ p.sentAt

end

variable {Seen Seen' : NodeId → ℕ → ℕ → Prop} {now now' : ℕ} {sm sm' : ElectionSm}
  {probes : List Probe} {rd rd' : Reader}

theorem Sound.mono (h : Sound Seen now sm probes rd) (hs : ∀ v t k, Seen v t k → Seen' v t k)
    (hn : now ≤ now') : Sound Seen' now' sm probes rd :=
  { h with
    admitted := fun r hr => ⟨(h.admitted r hr).1.trans hn, hs _ _ _ (h.admitted r hr).2⟩
    round := fun round hround =>
      { h.round round hround with
        seen := by
          intro v hv
          obtain ⟨k, hk1, hk2, hk3⟩ := (h.round round hround).seen v hv
          exact ⟨k, hk1, hk2.trans hn, hs _ _ _ hk3⟩ } }

theorem Sound.moreProbes (h : Sound Seen now sm probes rd) {more : List Probe}
    (hm : ∀ p ∈ more, p.src ≠ rd.id) : Sound Seen now sm (more ++ probes) rd :=
  { h with
    probes := by
      intro p hp hsrc
      rcases List.mem_append.mp hp with hp | hp
      · exact absurd hsrc (hm p hp)
      · exact h.probes p hp hsrc }

theorem Sound.dropRound (h : Sound Seen now sm probes rd) :
    Sound Seen now sm probes { rd with currentRound := none } :=
  { h with
    round := fun _ h => by cases h
    probes := fun p hp hsrc hstart => ⟨(h.probes p hp hsrc hstart).1, fun _ h => by cases h⟩ }

theorem Sound.subreads (h : Sound Seen now sm probes rd) {reads : List PendingRead}
    (hsub : ∀ r ∈ reads, ∃ r0 ∈ rd.pendingReads, r.roundSeq = r0.roundSeq ∧ r.term = r0.term ∧
      r.admittedAt = r0.admittedAt) :
    Sound Seen now sm probes { rd with pendingReads := reads } where
  peers := h.peers
  serving := h.serving
  leads := by
    intro r hr
    obtain ⟨r0, hr0, -, ht, -⟩ := hsub r hr
    rw [ht]
    exact h.leads r0 hr0
  ticking := by
    intro ht
    refine (h.ticking ht).imp_left fun hnil => List.eq_nil_iff_forall_not_mem.mpr fun r hr => ?_
    obtain ⟨r0, hr0, -⟩ := hsub r hr
    rw [hnil] at hr0
    cases hr0
  admitted := by
    intro r hr
    obtain ⟨r0, hr0, -, ht, ha⟩ := hsub r hr
    rw [ht, ha]
    exact h.admitted r0 hr0
  round := fun round hround =>
    { h.round round hround with
      admitted := by
        intro r hr hseq
        obtain ⟨r0, hr0, hs, -, ha⟩ := hsub r hr
        rw [ha]
        exact (h.round round hround).admitted r0 hr0 (hs ▸ hseq)
      term := by
        intro hpass r hr hseq
        obtain ⟨r0, hr0, hs, ht, -⟩ := hsub r hr
        rw [ht]
        exact (h.round round hround).term hpass r0 hr0 (hs ▸ hseq) }
  probes := h.probes

/-! ## Events -/

theorem Sound.obeyed (h : Sound Seen now sm probes rd) (ho : Obeyed rd rd')
    (hpeers : rd'.PeersOf sm'.config) (hserv : sm'.serving → sm'.role = .leader)
    (hlead : ∀ r ∈ rd.pendingReads,
      sm'.role ≠ .candidate ∧ (sm'.role = .leader → r.term = sm'.currentTerm))
    (hpass : rd.pass ≠ .advance) (htick : rd'.pass ≠ .tick) : Sound Seen now sm' probes rd' := by
  have hreads : ∀ r ∈ rd'.pendingReads, r ∈ rd.pendingReads := by
    intro r hr
    rcases ho.reads with h1 | h1
    · rwa [← h1]
    · rw [h1] at hr
      cases hr
  have hround : ∀ round ∈ rd'.currentRound, round ∈ rd.currentRound ∧ rd'.peers = rd.peers := by
    intro round hr
    rcases ho.round with ⟨h1, h2⟩ | h1
    · exact ⟨h1 ▸ hr, h2⟩
    · rw [h1] at hr
      cases hr
  refine ⟨hpeers, hserv, fun r hr => hlead r (hreads r hr), fun ht => absurd ht htick, ?_, ?_, ?_⟩
  · intro r hr
    rw [ho.id]
    exact h.admitted r (hreads r hr)
  · intro round hr
    obtain ⟨hr, hp⟩ := hround round hr
    have hok := h.round round hr
    exact { hok with
      seq := ho.seq ▸ hok.seq
      nonce := ho.nonce ▸ hok.nonce
      quorum := by rw [hok.quorum, quorum, quorum, hp]
      self := ho.id ▸ hok.self
      voters := by
        rw [ho.id, hp]
        exact hok.voters
      admitted := fun r hr => hok.admitted r (hreads r hr)
      term := fun _ r hr => hok.term hpass r (hreads r hr) }
  · intro p hp hsrc hstart
    obtain ⟨h1, h2⟩ := h.probes p hp (hsrc.trans ho.id) (ho.started ▸ hstart)
    exact ⟨ho.nonce ▸ h1, fun round hr => h2 round (hround round hr).1⟩

theorem endPass_obeyed (rd : Reader) : Obeyed rd rd.endPass :=
  ⟨rfl, rfl, rfl, rfl, .inl rfl, .inl ⟨rfl, rfl⟩⟩

theorem endPass_pass (rd : Reader) : rd.endPass.pass ≠ .tick := by
  unfold endPass
  split <;> simp

theorem Sound.feed (h : Sound Seen now sm probes rd) {ev : Event}
    (hp : ReadCluster.InPass rd.pass ev) : Sound Seen now (sm.step ev).1 probes (rd.feed sm ev) := by
  have ho := foldl_obey_obeyed (sm.step ev).2 rd
  have hpeers : ((sm.step ev).2.foldl obey rd).PeersOf (sm.step ev).1.config :=
    PeersOf.steps (step_steps sm ev) h.peers
  have hserv := step_serving h.serving ev
  by_cases htick : ∃ nowNs, ev = .tick nowNs
  · obtain ⟨nowNs, rfl⟩ := htick
    have hpass : rd.pass = .tick := hp
    refine h.obeyed (ho.trans (endPass_obeyed _)) hpeers hserv ?_ (by simp [hpass])
      (endPass_pass _)
    intro r hr
    -- whoever still has reads at the tick serves
    have hs : sm.serving := (h.ticking hpass).resolve_left (List.ne_nil_of_mem hr)
    obtain ⟨h1, h2⟩ := step_tick_leads nowNs (h.serving hs)
    exact ⟨h1, fun _ => ((h.leads r hr).2 (h.serving hs)).trans h2.symm⟩
  · have hev : ∀ nowNs, ev ≠ .tick nowNs := fun nowNs he => htick ⟨nowNs, he⟩
    have hpass : rd.pass = .drain := by
      cases ev <;> first | exact hp | exact absurd rfl (hev _)
    have hfeed : rd.feed sm ev = (sm.step ev).2.foldl obey rd := by
      cases ev <;> first | rfl | exact absurd rfl (hev _)
    rw [hfeed]
    refine h.obeyed ho hpeers hserv ?_ (by simp [hpass]) (by simp [foldl_obey_pass, hpass])
    intro r hr
    obtain ⟨h1, h2⟩ := step_leads hev (h.leads r hr).1
    refine ⟨h1, fun hl => ?_⟩
    obtain ⟨h3, h4⟩ := h2 hl
    exact ((h.leads r hr).2 h3).trans h4.symm

/-! ## Rounds -/

theorem mem_release {sel : PendingRead → Bool} {r : PendingRead}
    (h : r ∈ (rd.release sel).1.pendingReads) : ∃ r0 ∈ rd.pendingReads,
      r.roundSeq = r0.roundSeq ∧ r.term = r0.term ∧ r.admittedAt = r0.admittedAt := by
  obtain ⟨r0, hr0, rfl⟩ := List.mem_map.mp h
  refine ⟨r0, hr0, ?_⟩
  split <;> exact ⟨rfl, rfl, rfl⟩

theorem Sound.release (h : Sound Seen now sm probes rd) (sel : PendingRead → Bool) :
    Sound Seen now sm probes (rd.release sel).1 :=
  h.subreads fun _ hr => mem_release hr

/-- No probe is among the actions. -/
def Silent (out : List ReadAction) : Prop :=
  ∀ nonce term targets, .sendReadProbe nonce term targets ∉ out

theorem release_silent (sel : PendingRead → Bool) (rd : Reader) : Silent (rd.release sel).2 := by
  intro nonce term targets hmem
  obtain ⟨r, -, hr⟩ := List.mem_map.mp hmem
  cases hr

theorem probesOf_silent {out : List ReadAction} (h : Silent out) (n : NodeId) (now : ℕ) :
    ReadCluster.probesOf n now out = [] := by
  refine List.filterMap_eq_nil_iff.mpr fun a ha => ?_
  cases a with
  | sendReadProbe nonce term targets => exact absurd ha (h nonce term targets)
  | _ => rfl

theorem probesOf_append (n : NodeId) (now : ℕ) (out out' : List ReadAction) :
    ReadCluster.probesOf n now (out ++ out') =
      ReadCluster.probesOf n now out ++ ReadCluster.probesOf n now out' :=
  List.filterMap_append

/-- What passes in a step of `id`, with the voters of that moment. -/
def certificate (id : NodeId) (config : ClusterConfig) (now : ℕ) (read : PendingRead) :
    Certificate :=
  ⟨id, id :: config.voterIds.filter (· != id), read, now⟩

/-- A function of the barrier that returns `r`: the invariant holds after it,
    with the probes that it sent, and what it lets pass is backed. -/
structure Keeps (Seen : NodeId → ℕ → ℕ → Prop) (now : ℕ) (sm : ElectionSm) (probes : List Probe)
    (id : NodeId) (r : Reader × List ReadAction) : Prop where
  owner : r.1.id = id
  sound : Sound Seen now sm (ReadCluster.probesOf id now r.2 ++ probes) r.1
  backed : ∀ read, .certified read ∈ r.2 → Backed Seen (certificate id sm.config now read)

theorem Sound.ofSubset (h : Sound Seen now sm probes rd) {probes' : List Probe}
    (hsub : probes' ⊆ probes) : Sound Seen now sm probes' rd :=
  { h with probes := fun p hp => h.probes p (hsub hp) }

theorem Keeps.andThen {id : NodeId} {r r' : Reader × List ReadAction}
    (h : Keeps Seen now sm probes id r)
    (h' : Keeps Seen now sm (ReadCluster.probesOf id now r.2 ++ probes) id r') :
    Keeps Seen now sm probes id (r'.1, r.2 ++ r'.2) where
  owner := h'.owner
  sound := h'.sound.ofSubset (by
    rw [probesOf_append, List.append_assoc]
    intro p hp
    simp only [List.mem_append] at hp ⊢
    tauto)
  backed := by
    intro read hmem
    rcases List.mem_append.mp hmem with hmem | hmem
    · exact h.backed read hmem
    · exact h'.backed read hmem

theorem Sound.keeps (h : Sound Seen now sm probes rd) {id : NodeId} (hid : rd.id = id)
    {out : List ReadAction} (hs : Silent out) (hc : ∀ read, .certified read ∉ out) :
    Keeps Seen now sm probes id (rd, out) where
  owner := hid
  sound := by
    rw [probesOf_silent hs]
    exact h
  backed := fun read hmem => absurd hmem (hc read)

variable {read : PendingRead}

theorem mem_release_out {sel : PendingRead → Bool} (h : .certified read ∈ (rd.release sel).2) :
    read ∈ rd.pendingReads ∧ sel read = true := by
  obtain ⟨r, hr, heq⟩ := List.mem_map.mp h
  cases heq
  obtain ⟨hmem, hsel⟩ := List.mem_filter.mp hr
  exact ⟨hmem, (Bool.and_eq_true_iff.mp hsel).2⟩

theorem voters_length (hp : rd.PeersOf sm.config) (now : ℕ) (read : PendingRead) :
    (certificate rd.id sm.config now read).voters.length = rd.peers.length + 1 := by
  rw [hp]
  rfl

variable {round : ProbeRound}

theorem RoundOk.backs (h : RoundOk Seen now rd round) (hfull : round.quorum ≤ round.ackers.length)
    (hp : rd.PeersOf sm.config) (hpass : rd.pass ≠ .advance) (hr : read ∈ rd.pendingReads)
    (hseq : read.roundSeq ≤ round.seq) : Backed Seen (certificate rd.id sm.config now read) := by
  refine ⟨round.ackers, h.nodup, h.self, ?_, ?_, ?_⟩
  · intro v hv
    have := h.voters v hv
    rwa [hp] at this
  · rw [voters_length hp]
    have hq : round.quorum = (rd.peers.length + 1) / 2 + 1 := h.quorum
    omega
  · intro v hv
    obtain ⟨k, h1, h2, h3⟩ := h.seen v hv
    have hterm := h.term hpass read hr hseq
    exact ⟨k, (h.admitted read hr hseq).trans h1, h2, by rw [certificate, hterm]; exact h3⟩

theorem Sound.backsAlone (h : Sound Seen now sm probes rd) (hq : rd.quorum ≤ 1)
    (hr : read ∈ rd.pendingReads) : Backed Seen (certificate rd.id sm.config now read) := by
  obtain ⟨h1, h2⟩ := h.admitted read hr
  refine ⟨[rd.id], List.nodup_singleton _, List.mem_singleton_self _, ?_, ?_, ?_⟩
  · intro v hv
    cases List.mem_singleton.mp hv
    exact List.mem_cons_self
  · rw [voters_length h.peers, List.length_singleton]
    have : (rd.peers.length + 1) / 2 + 1 ≤ 1 := hq
    omega
  · intro v hv
    cases List.mem_singleton.mp hv
    exact ⟨read.admittedAt, le_rfl, h1, h2⟩

theorem Sound.maybeIssueRound (h : Sound Seen now sm probes rd) (hnow : Seen rd.id sm.currentTerm now)
    (hpass : rd.pass = .advance ∨ rd.pass = .tick) (commit nowNs : ℕ) :
    Keeps Seen now sm probes rd.id (rd.maybeIssueRound sm now commit nowNs) := by
  unfold Reader.maybeIssueRound
  split_ifs with _ _ hq
  · exact h.keeps rfl (by simp [Silent]) (by simp)
  · refine ⟨rfl, ?_, fun read hmem => h.backsAlone hq (mem_release_out hmem).1⟩
    rw [probesOf_silent (release_silent _ rd)]
    exact h.release _
  · refine ⟨rfl, ?_, by simp⟩
    have hok : RoundOk Seen now { rd with
          nextRoundSeq := rd.nextRoundSeq + 1, nextNonce := rd.nextNonce + 1
          currentRound := some (ProbeRound.new rd.nextRoundSeq rd.nextNonce rd.quorum rd.id
            sm.currentTerm commit nowNs now) }
        (ProbeRound.new rd.nextRoundSeq rd.nextNonce rd.quorum rd.id sm.currentTerm commit nowNs
          now) :=
      { seq := Nat.lt_succ_self _
        nonce := Nat.lt_succ_self _
        quorum := rfl
        nodup := List.nodup_singleton _
        self := List.mem_singleton_self _
        voters := fun v hv => List.mem_cons.mpr (.inl (List.mem_singleton.mp hv))
        seen := by
          intro v hv
          cases List.mem_singleton.mp hv
          exact ⟨now, le_rfl, le_rfl, hnow⟩
        admitted := fun r hr _ => (h.admitted r hr).1
        term := by
          intro hp r hr _
          have hs := (h.ticking (hpass.resolve_left hp)).resolve_left (List.ne_nil_of_mem hr)
          exact (h.leads r hr).2 (h.serving hs) }
    refine { h with round := ?_, probes := ?_ }
    · intro round hround
      cases hround
      exact hok
    · intro p hp hsrc hstart
      rcases List.mem_cons.mp hp with rfl | hp
      · refine ⟨Nat.lt_succ_self _, fun round hround _ => ?_⟩
        cases hround
        exact ⟨rfl, le_rfl⟩
      · -- an older probe has an older nonce
        have hlt := (h.probes p hp hsrc hstart).1
        refine ⟨hlt.trans (Nat.lt_succ_self _), fun round hround heq => ?_⟩
        cases hround
        exact absurd heq hlt.ne
  · exact h.keeps rfl (by simp [Silent]) (by simp)

theorem RoundOk.recordAck (h : RoundOk Seen now rd round) {src : NodeId} (hp : src ∈ rd.peers)
    (hs : ∃ k, round.issuedAt ≤ k ∧ k ≤ now ∧ Seen src round.term k) :
    RoundOk Seen now rd (round.recordAck src).1 := by
  unfold ProbeRound.recordAck
  split_ifs with hmem
  · exact h
  · refine { h with nodup := ?_, self := ?_, voters := ?_, seen := ?_ }
    · exact List.nodup_append.mpr ⟨h.nodup, List.nodup_singleton _, by
        rintro v hv w hw rfl
        cases List.mem_singleton.mp hw
        exact hmem (List.contains_iff_mem.mpr hv)⟩
    · exact List.mem_append_left _ h.self
    · refine List.forall_mem_snoc h.voters ?_
      exact List.mem_cons_of_mem _ hp
    · refine List.forall_mem_snoc h.seen ?_
      exact hs

theorem recordAck_nonce (round : ProbeRound) (src : NodeId) :
    (round.recordAck src).1.nonce = round.nonce ∧ (round.recordAck src).1.term = round.term ∧
      (round.recordAck src).1.issuedAt = round.issuedAt := by
  unfold ProbeRound.recordAck
  split <;> exact ⟨rfl, rfl, rfl⟩

theorem recordAck_full {src : NodeId} (h : (round.recordAck src).2 = true) :
    (round.recordAck src).1.quorum ≤ (round.recordAck src).1.ackers.length :=
  of_decide_eq_true h

/-- An ack arrives: `seen` is for a round that it answers. -/
theorem Sound.onReadProbeAck (h : Sound Seen now sm probes rd) (hpass : rd.pass ≠ .advance)
    {nonce : ℕ} {src : NodeId} (hseen : ∀ round ∈ rd.currentRound, round.nonce = nonce →
      ∃ k, round.issuedAt ≤ k ∧ k ≤ now ∧ Seen src round.term k) :
    Keeps Seen now sm probes rd.id (rd.onReadProbeAck nonce src) := by
  have hquiet : Keeps Seen now sm probes rd.id (rd, []) := h.keeps rfl (by simp [Silent]) (by simp)
  unfold Reader.onReadProbeAck
  split
  · exact hquiet
  · rename_i hmem
    have hpeer : src ∈ rd.peers := List.contains_iff_mem.mp (not_not.mp hmem)
    split
    · exact hquiet
    · rename_i round hround
      split
      · exact hquiet
      · rename_i hnonce
        have hnonce : round.nonce = nonce := not_not.mp hnonce
        have hok := (h.round round hround).recordAck hpeer (hseen round hround hnonce)
        obtain ⟨h1, h2, h3⟩ := recordAck_nonce round src
        dsimp only
        split
        · rename_i hfull
          have hdrop := h.dropRound
          refine ⟨rfl, ?_, fun read hc => ?_⟩
          · rw [probesOf_silent (release_silent _ _)]
            exact hdrop.release _
          · obtain ⟨hr, hsel⟩ := mem_release_out hc
            exact hok.backs (recordAck_full hfull) h.peers hpass hr (of_decide_eq_true hsel)
        · have hs : Sound Seen now sm probes
              { rd with currentRound := some (round.recordAck src).1 } := by
            refine { h with round := ?_, probes := ?_ }
            · intro round' hr
              cases hr
              exact { hok with }
            · intro p hp hsrc hstart
              obtain ⟨hlt, hold⟩ := h.probes p hp hsrc hstart
              refine ⟨hlt, fun round' hr heq => ?_⟩
              cases hr
              rw [h2, h3]
              exact hold round hround (heq.trans h1)
          exact hs.keeps rfl (by simp [Silent]) (by simp)

/-! ## Admission -/

/-- A record opens a read on a serving node, or leaves the reads as they are. -/
theorem takeRecord_cases (sm : ElectionSm) (ring : UInt8 → Bool) (now : ℕ) (q : QueryRecord)
    (rd : Reader) : (Silent (rd.takeRecord sm ring now q).2 ∧
      ∀ read, .certified read ∉ (rd.takeRecord sm ring now q).2) ∧
      ((rd.takeRecord sm ring now q).1 = rd ∨ ∃ read : PendingRead, sm.serving ∧
        read.roundSeq = rd.nextRoundSeq ∧ read.term = sm.currentTerm ∧ read.admittedAt = now ∧
        (rd.takeRecord sm ring now q).1 =
          { rd with pendingReads := rd.pendingReads ++ [read] }) := by
  unfold takeRecord
  split
  · exact ⟨⟨by simp [Silent], by simp⟩, .inl rfl⟩
  · split
    · exact ⟨⟨by simp [Silent], by simp⟩, .inl rfl⟩
    · split
      · exact ⟨⟨by simp [Silent], by simp⟩, .inl rfl⟩
      · split
        · exact ⟨⟨by simp [Silent], by simp⟩, .inl rfl⟩
        · split
          · exact ⟨⟨by simp [Silent], by simp⟩, .inl rfl⟩
          · rename_i hserve
            have hserve : (rd.jumboGateOpen && sm.serving && !rd.haltRemoved) = true :=
              not_not.mp hserve
            simp only [Bool.and_eq_true] at hserve
            exact ⟨⟨by simp [Silent], by simp⟩, .inr ⟨_, hserve.1.2, rfl, rfl, rfl, rfl⟩⟩

theorem Sound.takeRecord (h : Sound Seen now sm probes rd) (hnow : Seen rd.id sm.currentTerm now)
    (hpass : rd.pass = .advance) (ring : UInt8 → Bool) (q : QueryRecord) :
    Sound Seen now sm probes (rd.takeRecord sm ring now q).1 := by
  rcases (takeRecord_cases sm ring now q rd).2 with heq | ⟨read, hs, hseq, hterm, hat, heq⟩
  · rwa [heq]
  · rw [heq]
    refine { h with leads := ?_, ticking := ?_, admitted := ?_, round := ?_ }
    · refine List.forall_mem_snoc h.leads ?_
      exact ⟨by simp [h.serving hs], fun _ => hterm⟩
    · intro ht
      exact absurd (hpass.symm.trans ht) (by simp)
    · refine List.forall_mem_snoc h.admitted ?_
      rw [hat, hterm]
      exact ⟨le_rfl, hnow⟩
    · intro round hround
      have hok := h.round round hround
      refine { hok with admitted := ?_, term := fun hp => absurd hpass hp }
      intro r hr hle
      rcases List.mem_append.mp hr with hr | hr
      · exact hok.admitted r hr hle
      · -- a read admitted while the round is in flight has a larger number
        cases List.mem_singleton.mp hr
        have := hok.seq
        rw [hseq] at hle
        exact absurd hle (not_le.mpr this)

theorem takeRecord_frame (sm : ElectionSm) (ring : UInt8 → Bool) (now : ℕ) (q : QueryRecord)
    (rd : Reader) : (rd.takeRecord sm ring now q).1.id = rd.id ∧
      (rd.takeRecord sm ring now q).1.pass = rd.pass := by
  rcases (takeRecord_cases sm ring now q rd).2 with heq | ⟨_, -, -, -, -, heq⟩ <;> rw [heq] <;>
    exact ⟨rfl, rfl⟩

theorem admitAll_frame (sm : ElectionSm) (ring : UInt8 → Bool) (now : ℕ) (qs : List QueryRecord)
    (rd : Reader) : (admitAll sm ring now qs rd).1.id = rd.id ∧
      (admitAll sm ring now qs rd).1.pass = rd.pass := by
  induction qs generalizing rd with
  | nil => exact ⟨rfl, rfl⟩
  | cons q qs ih =>
    obtain ⟨h1, h2⟩ := ih (rd.takeRecord sm ring now q).1
    obtain ⟨h3, h4⟩ := takeRecord_frame sm ring now q rd
    exact ⟨h1.trans h3, h2.trans h4⟩

theorem Sound.admitAll (h : Sound Seen now sm probes rd) (hnow : Seen rd.id sm.currentTerm now)
    (hpass : rd.pass = .advance) (ring : UInt8 → Bool) (qs : List QueryRecord) :
    Keeps Seen now sm probes rd.id (admitAll sm ring now qs rd) := by
  induction qs generalizing rd probes with
  | nil => exact h.keeps rfl (by simp [Silent]) (by simp)
  | cons q qs ih =>
    obtain ⟨hid, hp⟩ := takeRecord_frame sm ring now q rd
    obtain ⟨hs, hc⟩ := (takeRecord_cases sm ring now q rd).1
    have hone : Keeps Seen now sm probes rd.id (rd.takeRecord sm ring now q) :=
      (h.takeRecord hnow hpass ring q).keeps hid hs hc
    have hrest := ih hone.sound (hid.symm ▸ hnow) (hp.trans hpass)
    rw [hid] at hrest
    exact hone.andThen hrest

theorem Sound.drainQueryRing (h : Sound Seen now sm probes rd)
    (hnow : Seen rd.id sm.currentTerm now) (gate : Bool) (ring : UInt8 → Bool)
    (qs : List QueryRecord) (commit nowNs : ℕ) :
    Keeps Seen now sm probes rd.id (rd.drainQueryRing sm gate ring qs now commit nowNs) := by
  have hstart : Sound Seen now sm probes { rd with jumboGateOpen := gate, pass := .advance } :=
    { h with
      ticking := fun ht => by cases ht
      round := fun round hround =>
        { h.round round hround with term := fun hp => absurd rfl hp } }
  have hall := hstart.admitAll hnow rfl ring (qs.take queryDrainPerCycle)
  obtain ⟨hid, hp⟩ := admitAll_frame sm ring now (qs.take queryDrainPerCycle)
    { rd with jumboGateOpen := gate, pass := .advance }
  have hissue := hall.sound.maybeIssueRound (hid.symm ▸ hnow) (.inl hp) commit nowNs
  rw [hid] at hissue
  exact hall.andThen hissue

/-! ## The advance -/

theorem sweep_subset (canServe : Bool) (slot : PendingRead → ServiceSlot) (nowNs : ℕ)
    (rs : List PendingRead) : (sweep canServe slot nowNs rs).1 ⊆ rs := by
  induction rs with
  | nil => exact List.Subset.refl _
  | cons r rs ih =>
    unfold sweep
    split_ifs
    · exact List.subset_cons_of_subset _ ih
    · exact List.subset_cons_of_subset _ ih
    · exact List.cons_subset_cons _ ih

theorem sweep_lost (slot : PendingRead → ServiceSlot) (nowNs : ℕ) (rs : List PendingRead) :
    (sweep false slot nowNs rs).1 = [] := by
  induction rs with
  | nil => rfl
  | cons r rs ih =>
    unfold sweep
    rw [if_pos (.inr (by simp))]
    exact ih

theorem sweep_quiet (canServe : Bool) (slot : PendingRead → ServiceSlot) (nowNs : ℕ)
    (rs : List PendingRead) : Silent (sweep canServe slot nowNs rs).2 ∧
      ∀ read, .certified read ∉ (sweep canServe slot nowNs rs).2 := by
  induction rs with
  | nil => exact ⟨by simp [sweep, Silent], by simp [sweep]⟩
  | cons r rs ih =>
    unfold Silent at ih ⊢
    unfold sweep
    split_ifs
    · simpa using ih
    · simpa using ih
    · exact ih

theorem Sound.retransmit (h : Sound Seen now sm probes rd)
    (hterm : ∀ round ∈ rd.currentRound, round.term = sm.currentTerm) (nowNs : ℕ) :
    Keeps Seen now sm probes rd.id (rd.retransmit sm nowNs) := by
  have hquiet : Keeps Seen now sm probes rd.id (rd, []) := h.keeps rfl (by simp [Silent]) (by simp)
  unfold Reader.retransmit
  split
  · exact hquiet
  · rename_i round hround
    split
    · have hok := h.round round hround
      obtain ⟨k, hk1, hk2, -⟩ := hok.seen _ hok.self
      refine ⟨rfl, { h with round := ?_, probes := ?_ }, by simp⟩
      · intro round' hr
        cases hr
        exact { hok with }
      · intro p hp hsrc hstart
        rcases List.mem_cons.mp hp with rfl | hp
        · -- the same nonce again, later
          refine ⟨hok.nonce, fun round' hr _ => ?_⟩
          cases hr
          exact ⟨(hterm round hround).symm, hk1.trans hk2⟩
        · obtain ⟨h1, h2⟩ := h.probes p hp hsrc hstart
          refine ⟨h1, fun round' hr heq => ?_⟩
          cases hr
          exact h2 round hround heq
    · exact hquiet

theorem retransmit_frame (sm : ElectionSm) (nowNs : ℕ) (rd : Reader) :
    (rd.retransmit sm nowNs).1.id = rd.id ∧ (rd.retransmit sm nowNs).1.pass = rd.pass := by
  unfold Reader.retransmit
  split
  · exact ⟨rfl, rfl⟩
  · split <;> exact ⟨rfl, rfl⟩

/-- The sweep leaves reads to a serving leader only, and a round of its own
    term only. -/
theorem Sound.swept (h : Sound Seen now sm probes rd) (slot : PendingRead → ServiceSlot)
    (nowNs : ℕ) : Sound Seen now sm probes { rd with
      currentRound := rd.currentRound.filter fun round =>
        rd.canServe sm && round.term == sm.currentTerm
      pendingReads := (sweep (rd.canServe sm) slot nowNs rd.pendingReads).1, pass := .tick } := by
  have hsub := sweep_subset (rd.canServe sm) slot nowNs rd.pendingReads
  have hround : ∀ round ∈ rd.currentRound.filter (fun round =>
      rd.canServe sm && round.term == sm.currentTerm), round ∈ rd.currentRound ∧
        sm.role = .leader ∧ round.term = sm.currentTerm := by
    intro round hr
    obtain ⟨hr, hcond⟩ := Option.mem_filter_iff.mp hr
    unfold canServe at hcond
    simp only [Bool.and_eq_true, beq_iff_eq] at hcond
    exact ⟨hr, h.serving hcond.1.1.2, hcond.2⟩
  refine ⟨h.peers, h.serving, fun r hr => h.leads r (hsub hr), ?_,
    fun r hr => h.admitted r (hsub hr), ?_, ?_⟩
  · intro _
    by_cases hs : rd.canServe sm
    · unfold canServe at hs
      simp only [Bool.and_eq_true] at hs
      exact .inr hs.1.2
    · left
      rw [Bool.not_eq_true] at hs
      rw [hs]
      exact sweep_lost slot nowNs _
  · intro round hr
    obtain ⟨hr, hlead, hterm⟩ := hround round hr
    have hok := h.round round hr
    exact { hok with
      admitted := fun r hr => hok.admitted r (hsub hr)
      term := fun _ r hr _ => ((h.leads r (hsub hr)).2 hlead).trans hterm.symm }
  · intro p hp hsrc hstart
    obtain ⟨h1, h2⟩ := h.probes p hp hsrc hstart
    exact ⟨h1, fun round hr => h2 round (hround round hr).1⟩

theorem Sound.advancePendingReads (h : Sound Seen now sm probes rd)
    (hnow : Seen rd.id sm.currentTerm now) (slot : PendingRead → ServiceSlot) (commit nowNs : ℕ) :
    Keeps Seen now sm probes rd.id (rd.advancePendingReads sm slot now commit nowNs) := by
  unfold Reader.advancePendingReads
  split
  · rename_i hnil
    have hs : Sound Seen now sm probes { rd with currentRound := none, pass := .tick } :=
      { h.dropRound with
        ticking := fun _ => .inl (List.isEmpty_iff.mp hnil)
        round := fun _ h => by cases h }
    exact hs.keeps rfl (by simp [Silent]) (by simp)
  · have hswept := h.swept slot nowNs
    obtain ⟨hsilent, hcert⟩ := sweep_quiet (rd.canServe sm) slot nowNs rd.pendingReads
    have hfirst := hswept.keeps rfl hsilent hcert
    have hre := hfirst.sound.retransmit (fun round hr => by
      have hcond := (Option.mem_filter_iff.mp hr).2
      simp only [Bool.and_eq_true, beq_iff_eq] at hcond
      exact hcond.2) nowNs
    obtain ⟨hid, hp⟩ := retransmit_frame sm nowNs { rd with
      currentRound := rd.currentRound.filter fun round =>
        rd.canServe sm && round.term == sm.currentTerm
      pendingReads := (sweep (rd.canServe sm) slot nowNs rd.pendingReads).1, pass := .tick }
    have hboth := hfirst.andThen hre
    have hissue := hboth.sound.maybeIssueRound (hid.symm ▸ hnow) (.inr hp) commit nowNs
    rw [hid] at hissue
    exact hboth.andThen hissue

end Reader

end UltimaCluster
