/-
  Kernel and cluster FSM agree on the membership.

  Every log of the cluster holds each version next to its predecessor or repeats it, so the
  FSM refuses only repeats.  A leader's kernel holds what the FSM makes of the leader's whole
  log, or a forced config that the log does not carry yet; the latch is set only once it
  does (`PeerOk.config_latched`).  The main result is `kernel_fsm_agree`; forcing a node
  twice in a row breaks it.
-/
import UltimaCluster.KernelViewTracks

namespace UltimaCluster.KernelView

open World

variable {g : ClusterConfig} {l l' C C' q : List LogItem} {e : LogItem} {v : View} {p : Peer}
  {n : NodeId} {c : ClusterConfig} {forced forced' : Option (NodeId × ClusterConfig)} {k length : ℕ}
  {kind : LogKind} {w : World}

/-! ## What a log covers -/

theorem reached_iff : Reached g l c ↔ ∃ q, q <+: l ∧ c = membershipOf g q := by
  simp [Reached]

theorem covers_iff : Covers g l v ↔ ∃ q, q <+: l ∧ v.membership = membershipOf g q ∧
    ∃ q', q' <+: q ∧ v.consumed = logEnd q' := by
  simp [Covers]

theorem reached_mono (h : Reached g l c) (hl : l <+: l') : Reached g l' c := by
  obtain ⟨q, hq, hc⟩ := reached_iff.mp h
  exact reached_iff.mpr ⟨q, hq.trans hl, hc⟩

theorem covers_mono (h : Covers g l v) (hl : l <+: l') : Covers g l' v := by
  obtain ⟨q, hq, hv⟩ := covers_iff.mp h
  exact covers_iff.mpr ⟨q, hq.trans hl, hv⟩

theorem covers_reached (h : Covers g l v) : Reached g l v.membership := by
  obtain ⟨q, hq, hv, -⟩ := covers_iff.mp h
  exact reached_iff.mpr ⟨q, hq, hv⟩

theorem covers_seed (h : Reached g l c) : Covers g l ⟨c, 0, 0⟩ := by
  obtain ⟨q, hq, hc⟩ := reached_iff.mp h
  exact covers_iff.mpr ⟨q, hq, hc, [], List.nil_prefix, rfl⟩

theorem walk_consumed (v : View) (e : LogItem) : (v.walk e).consumed = v.consumed + e.length := by
  unfold View.walk
  cases e.kind <;> rfl

theorem walk_membership (v : View) (e : LogItem) : (v.walk e).membership = feed v.membership e := by
  unfold View.walk feed LogItem.config?
  cases e.kind <;> rfl

theorem covers_next (hl : LogOk g l) (h : Covers g l v) (he : itemAt l v.consumed = some e) :
    (∀ d ∈ e.config?, d.version = v.membership.version + 1 ∨ d.version ≤ v.membership.version) ∧
      Covers g l (v.walk e) := by
  obtain ⟨q, hq, hv, q', hq', hcons⟩ := covers_iff.mp h
  rw [hcons, itemAt_iff hl.positive (hq'.trans hq)] at he
  have hend : v.consumed + e.length = logEnd (q' ++ [e]) := by simp [hcons]
  have hnext : ∀ d ∈ e.config?, d.version ≤ (membershipOf g q').version + 1 :=
    (chain_concat.mp (hl.chain.restrict he)).2
  rw [covers_iff, walk_membership, walk_consumed, hend]
  by_cases hin : q' ++ [e] <+: q
  · -- the image is ahead of the cursor
    have hle : ∀ d ∈ e.config?, d.version ≤ v.membership.version := by
      intro d hd
      have hd' := (hl.chain.restrict he).version_le (by simp) hd
      exact hd'.trans ((membershipOf_mono hin).trans_eq (by rw [hv]))
    refine ⟨fun d hd => .inr (hle d hd), q, hq, ?_, q' ++ [e], hin, rfl⟩
    rw [← hv]
    cases hc : e.config? with
    | none => rw [feed_of_none hc]
    | some d =>
      have hd := hle d hc
      rw [feed_of_some hc, acceptMembership, if_neg (by omega)]
  · have hout : q <+: q' := by
      rcases List.prefix_or_prefix_of_prefix he hq with hpre | hpre
      · exact absurd hpre hin
      · rcases List.prefix_concat_iff.mp hpre with heq | hpre
        · exact absurd (heq ▸ List.prefix_refl _) hin
        · exact hpre
    have hqq : q = q' := hout.eq_of_length_le hq'.length_le
    subst hqq
    refine ⟨?_, q ++ [e], he, by rw [hv, membershipOf_concat], q ++ [e], List.prefix_refl _, rfl⟩
    intro d hd
    have hd' := hnext d hd
    rw [hv]
    omega

/-- Where the log's membership has the version of the forced config, it is that config. -/
def AgreesAt (g F : ClusterConfig) (l : List LogItem) : Prop :=
  ∀ q, q <+: l → (membershipOf g q).version = F.version → membershipOf g q = F

variable {F : ClusterConfig}

theorem AgreesAt.restrict (h : AgreesAt g F l') (hl : l <+: l') : AgreesAt g F l :=
  fun q hq => h q (hq.trans hl)

theorem agreesAt_of_lt (h : (membershipOf g l).version < F.version) : AgreesAt g F l := by
  intro q hq hv
  have hle := membershipOf_mono (g := g) hq
  omega

theorem AgreesAt.concat (h : AgreesAt g F l) (he : ∀ d ∈ e.config?, d.version = F.version → d = F) :
    AgreesAt g F (l ++ [e]) := by
  intro q hq hv
  rcases List.prefix_concat_iff.mp hq with rfl | hq
  · rw [membershipOf_concat] at hv ⊢
    cases hc : e.config? with
    | none =>
      rw [feed_of_none hc] at hv ⊢
      exact h l (List.prefix_refl l) hv
    | some d =>
      rw [feed_of_some hc, acceptMembership] at hv ⊢
      split
      · rename_i hnext
        rw [if_pos hnext] at hv
        exact he d hc hv
      · rename_i hnext
        rw [if_neg hnext] at hv
        exact h l (List.prefix_refl l) hv
  · exact h q hq hv

theorem AgreesAt.reached (h : AgreesAt g F l) (hl : Chain g l) (hlow : g.version < F.version)
    (hhigh : F.version ≤ (membershipOf g l).version) : Reached g l F := by
  obtain ⟨q, hq, hv⟩ := hl.reaches hlow hhigh
  exact reached_iff.mpr ⟨q, hq, (h q hq hv).symm⟩

/-! ## Nodes -/

/-- The node that was forced, until its config is committed. -/
structure Survivor (g F : ClusterConfig) (p : Peer) : Prop where
  forcedAt : ∃ base, base <+: p.log ∧ base.length ≤ p.durable ∧ 0 < logEnd base ∧
    F.version = (membershipOf g base).version + 1 ∧ p.kept = (F, logEnd base)
  latched : p.latched = true → F.version ≤ (membershipOf g p.log).version

theorem Survivor.genesis_lt (h : Survivor g F p) : g.version < F.version := by
  obtain ⟨base, -, -, -, hv, -⟩ := h.forcedAt
  have hle : g.version ≤ (membershipOf g base).version := le_membershipOf
  omega

/-- What a force somewhere in the cluster means for a node. -/
structure ForcedPeer (g : ClusterConfig) (n : NodeId) (f : NodeId × ClusterConfig) (p : Peer) :
    Prop where
  agrees : AgreesAt g f.2 p.log
  alone : f.1 ≠ n → p.leader = false
  survivor : f.1 = n → Survivor g f.2 p

/-- A leader, over its own log. -/
structure Leads (g : ClusterConfig) (C : List LogItem) (forced : Option (NodeId × ClusterConfig))
    (n : NodeId) (p : Peer) : Prop where
  seen : p.seen = p.log.length
  kept : Reached g p.log p.kept.1 ∨ ∃ f ∈ forced, f.1 = n
  view : Covers g p.log p.view
  commit : ∃ c, c <+: C ∧ c <+: p.log ∧ p.commitSeen ≤ logEnd c

/-- What a node and its log keep. -/
structure PeerOk (g : ClusterConfig) (C : List LogItem) (forced : Option (NodeId × ClusterConfig))
    (n : NodeId) (p : Peer) : Prop where
  log : LogOk g p.log
  durable : p.durable ≤ p.log.length
  seen : p.seen ≤ p.log.length
  tracks : Tracks p.kept (p.log.take p.seen) p.kernel
  kept : Reached g C p.kept.1 ∨ ∃ f ∈ forced, f.1 = n
  view : Covers g C p.view
  artifact : ∀ v ∈ p.artifact, Covers g C v
  commit : p.commitSeen ≤ logEnd C
  ofForce : ∀ f ∈ forced, ForcedPeer g n f p
  leads : p.leader = true → Leads g C forced n p

/-- A forced config that the leader's log does not carry yet. -/
def Unreconciled (g : ClusterConfig) (n : NodeId) (f : NodeId × ClusterConfig) (p : Peer) : Prop :=
  f.1 = n ∧ (membershipOf g p.log).version < f.2.version ∧ p.kernel.config = f.2 ∧
    p.kernel.position = p.kept.2

namespace PeerOk

theorem tracks_all (h : PeerOk g C forced n p) (hl : p.leader = true) :
    Tracks p.kept p.log p.kernel := by
  have ht := h.tracks
  rwa [(h.leads hl).seen, List.take_length] at ht

/-- A leader's config is the membership of its log, or forced and not carried yet. -/
theorem config (h : PeerOk g C forced n p) (hl : p.leader = true) :
    p.kernel.config = membershipOf g p.log ∨ ∃ f ∈ forced, Unreconciled g n f p := by
  have ht := h.tracks_all hl
  rcases (h.leads hl).kept with hkept | ⟨f, hf, hn⟩
  · obtain ⟨q, hq, hk⟩ := reached_iff.mp hkept
    exact .inl (ht.config_eq.trans (adoptedFrom_eq h.log.chain hq hk))
  · have hs := (h.ofForce f hf).survivor hn
    obtain ⟨base, -, -, -, -, hk⟩ := hs.forcedAt
    have hk1 : p.kept.1 = f.2 := by rw [hk]
    by_cases hv : f.2.version ≤ (membershipOf g p.log).version
    · obtain ⟨q, hq, hF⟩ :=
        reached_iff.mp ((h.ofForce f hf).agrees.reached h.log.chain hs.genesis_lt hv)
      exact .inl (ht.config_eq.trans (adoptedFrom_eq h.log.chain hq (hk1.trans hF)))
    · have hv : (membershipOf g p.log).version < f.2.version := not_le.mp hv
      have hkeep : adoptedFrom p.kept p.log = p.kept :=
        adoptedFrom_of_le h.log.chain (by rw [hk1]; exact hv.le)
      refine .inr ⟨f, hf, hn, hv, ?_, ?_⟩
      · rw [ht.config_eq, hkeep, hk1]
      · rw [ht.position_eq, hkeep]

theorem config_latched (h : PeerOk g C forced n p) (hl : p.leader = true)
    (hlat : p.latched = true) : p.kernel.config = membershipOf g p.log := by
  rcases h.config hl with heq | ⟨f, hf, hn, hv, -⟩
  · exact heq
  · exact absurd (((h.ofForce f hf).survivor hn).latched hlat) (not_le.mpr hv)

theorem config_version (h : PeerOk g C forced n p) (hl : p.leader = true) :
    p.kernel.config.version ≤ (membershipOf g p.log).version + 1 := by
  rcases h.config hl with heq | ⟨f, hf, hn, hv, hc, -⟩
  · rw [heq]
    exact Nat.le_succ _
  · obtain ⟨base, hbase, -, -, hF, -⟩ := ((h.ofForce f hf).survivor hn).forcedAt
    have hle := membershipOf_mono (g := g) hbase
    rw [hc]
    omega

/-! ### The leader's appends -/

theorem append_eq (hseen : p.seen = p.log.length) : p.append kind length =
    { p with
      log := p.log ++ [⟨p.term, length, kind⟩]
      kernel := (LogItem.frameAt ⟨p.term, length, kind⟩ (logEnd p.log)).elim p.kernel p.kernel.observe
      seen := p.log.length + 1 } := by
  unfold Peer.append Peer.observeNext
  simp [hseen]

theorem append (h : PeerOk g C forced n p) (hl : p.leader = true) (hlen : 0 < length)
    (hv : ∀ d ∈ LogItem.config? ⟨p.term, length, kind⟩,
      d.version ≤ (membershipOf g p.log).version + 1)
    (hF : ∀ f ∈ forced, ∀ d ∈ LogItem.config? ⟨p.term, length, kind⟩, d.version = f.2.version → d = f.2) :
    PeerOk g C forced n (p.append kind length) := by
  have hL := h.leads hl
  have hpre : p.log <+: p.log ++ [⟨p.term, length, kind⟩] := List.prefix_append _ _
  rw [append_eq hL.seen]
  refine ⟨h.log.concat hlen hv, ?_, ?_, ?_, h.kept, h.view, h.artifact, h.commit, ?_, fun _ => ?_⟩
  · exact h.durable.trans hpre.length_le
  · simp
  · have htake : (p.log ++ [(⟨p.term, length, kind⟩ : LogItem)]).take (p.log.length + 1) =
        p.log ++ [⟨p.term, length, kind⟩] := List.take_of_length_le (by simp)
    rw [htake]
    exact (h.tracks_all hl).observe hlen
  · intro f hf
    have hfp := h.ofForce f hf
    refine ⟨hfp.agrees.concat (hF f hf), hfp.alone, fun hn => ?_⟩
    have hs := hfp.survivor hn
    obtain ⟨base, hbase, hd, hpos, hver, hk⟩ := hs.forcedAt
    exact ⟨⟨base, hbase.trans hpre, hd, hpos, hver, hk⟩,
      fun hlat => (hs.latched hlat).trans (membershipOf_mono hpre)⟩
  · obtain ⟨c, hc, hcl, hle⟩ := hL.commit
    exact ⟨by simp, hL.kept.imp_left fun hr => reached_mono hr hpre, covers_mono hL.view hpre,
      c, hc, hcl.trans hpre, hle⟩

theorem append_other (h : PeerOk g C forced n p) (hl : p.leader = true) (hlen : 0 < length)
    (hkind : ∀ term, LogItem.config? ⟨term, length, kind⟩ = none) :
    PeerOk g C forced n (p.append kind length) := by
  refine h.append hl hlen ?_ ?_ <;> simp [hkind]

theorem gates (h : PeerOk g C forced n p) (newTermEnd lastClusterAppend : ℕ) :
    PeerOk g C forced n
      { p with newTermEnd := newTermEnd, lastClusterAppend := lastClusterAppend } :=
  ⟨h.log, h.durable, h.seen, h.tracks, h.kept, h.view, h.artifact, h.commit,
    fun f hf => ⟨(h.ofForce f hf).agrees, (h.ofForce f hf).alone,
      fun hn => ⟨((h.ofForce f hf).survivor hn).forcedAt, ((h.ofForce f hf).survivor hn).latched⟩⟩,
    fun hl => ⟨(h.leads hl).seen, (h.leads hl).kept, (h.leads hl).view, (h.leads hl).commit⟩⟩

theorem latch (h : PeerOk g C forced n p)
    (hF : ∀ f ∈ forced, f.1 = n → f.2.version ≤ (membershipOf g p.log).version) :
    PeerOk g C forced n { p with latched := true } :=
  ⟨h.log, h.durable, h.seen, h.tracks, h.kept, h.view, h.artifact, h.commit,
    fun f hf => ⟨(h.ofForce f hf).agrees, (h.ofForce f hf).alone,
      fun hn => ⟨((h.ofForce f hf).survivor hn).forcedAt, fun _ => hF f hf hn⟩⟩,
    fun hl => ⟨(h.leads hl).seen, (h.leads hl).kept, (h.leads hl).view, (h.leads hl).commit⟩⟩

/-! ### The reconcile -/

variable {f : NodeId × ClusterConfig}

theorem position_ne_zero (h : PeerOk g C forced n p) (hf : f ∈ forced) (hn : f.1 = n) :
    p.kernel.position ≠ 0 := by
  obtain ⟨base, -, -, hpos, -, hk⟩ := ((h.ofForce f hf).survivor hn).forcedAt
  have hpos' := adoptedFrom_pos (h.log.positive.restrict (List.take_prefix p.seen p.log))
    (show 0 < p.kept.2 by rw [hk]; exact hpos)
  rw [h.tracks.position_eq]
  exact hpos'.ne'

/-- The FSM has consumed the forced record's position, so it is one version behind. -/
theorem unreconciled_view (h : PeerOk g C forced n p) (hl : p.leader = true) (hf : f ∈ forced)
    (hu : Unreconciled g n f p) (hcons : p.kernel.position ≤ p.view.consumed) :
    p.kernel.config.version = p.view.membership.version + 1 := by
  obtain ⟨hn, hlt, hcfg, hpos⟩ := hu
  obtain ⟨base, hbase, -, -, hF, hk⟩ := ((h.ofForce f hf).survivor hn).forcedAt
  obtain ⟨q, hq, hv, q', hq', hc⟩ := covers_iff.mp (h.leads hl).view
  have hbq : base <+: q' := by
    refine h.log.positive.prefix_of_le hbase (hq'.trans hq) ?_
    rw [hpos, hk, hc] at hcons
    exact hcons
  have hlow := membershipOf_mono (g := g) (hbq.trans hq')
  have hhigh := membershipOf_mono (g := g) hq
  rw [hcfg, hv]
  omega

theorem view_le (h : PeerOk g C forced n p) (hl : p.leader = true) :
    p.view.membership.version ≤ (membershipOf g p.log).version := by
  obtain ⟨q, hq, hv, -⟩ := covers_iff.mp (h.leads hl).view
  rw [hv]
  exact membershipOf_mono hq

theorem forced_le (h : PeerOk g C forced n p) (hl : p.leader = true) (hf : f ∈ forced)
    (hn : f.1 = n) : f.2.version ≤ p.kernel.config.version := by
  obtain ⟨base, -, -, -, -, hk⟩ := ((h.ofForce f hf).survivor hn).forcedAt
  have hle : p.kept.1.version ≤ p.kernel.config.version := by
    rw [(h.tracks_all hl).config_eq]
    exact le_adoptedFrom
  rwa [hk] at hle

theorem reconcile_append (h : PeerOk g C forced n p) (hl : p.leader = true) (hlen : 0 < length) :
    PeerOk g C forced n
      { p.appendClusterFrame (.membership p.kernel.config) length with latched := true } := by
  have hL := h.leads hl
  have happ : PeerOk g C forced n (p.append (.membership p.kernel.config) length) := by
    refine h.append hl hlen ?_ ?_
    · rintro d ⟨⟩
      exact h.config_version hl
    · rintro f hf d ⟨⟩ hd
      -- the version of a forced config is only ever written with its content
      rcases h.config hl with heq | ⟨f', hf', -, -, hc, -⟩
      · rw [heq] at hd ⊢
        exact (h.ofForce f hf).agrees p.log (List.prefix_refl _) hd
      · rw [hc, Option.mem_unique hf hf']
  refine (happ.latch ?_).gates _ _
  intro f hf hn
  rw [append_eq hL.seen]
  rw [membershipOf_concat, feed_of_some rfl, acceptMembership]
  rcases h.config hl with heq | ⟨f', hf', -, hlt, hc, -⟩
  · have hle := h.forced_le hl hf hn
    rw [heq] at hle ⊢
    rw [if_neg (by omega)]
    exact hle
  · have hv := h.config_version hl
    rw [Option.mem_unique hf hf', ← hc] at *
    split
    · exact le_rfl
    · omega

theorem reconcile (h : PeerOk g C forced n p) (hl : p.leader = true) (hlen : 0 < length)
    (full : Bool) : PeerOk g C forced n (p.reconcile full length) := by
  unfold Peer.reconcile
  by_cases hcons : p.view.consumed < p.kernel.position
  · rw [if_pos hcons]
    exact h
  rw [if_neg hcons]
  by_cases hver : p.kernel.config.version ≤ p.view.membership.version
  · rw [if_pos hver]
    exact h.latch fun f hf hn => (h.forced_le hl hf hn).trans (hver.trans (h.view_le hl))
  rw [if_neg hver]
  by_cases h0 : p.kernel.position = 0
  · rw [if_pos h0]
    exact h.latch fun f hf hn => absurd h0 (h.position_ne_zero hf hn)
  rw [if_neg h0]
  by_cases hflight : p.view.position < p.lastClusterAppend
  · rw [if_pos hflight]
    exact h
  rw [if_neg hflight]
  by_cases hnext : p.kernel.config.version ≠ p.view.membership.version + 1
  · rw [if_pos hnext]
    refine h.latch ?_
    intro f hf hn
    rcases h.config hl with heq | ⟨f', hf', hu⟩
    · rw [← heq]
      exact h.forced_le hl hf hn
    · exact absurd (h.unreconciled_view hl hf' hu (not_lt.mp hcons)) hnext
  rw [if_neg hnext]
  cases full with
  | true => exact h
  | false => exact h.reconcile_append hl hlen

theorem reconcile_frame (hseen : p.seen = p.log.length) (full : Bool) (length : ℕ) :
    (p.reconcile full length).kernel = p.kernel ∧ (p.reconcile full length).leader = p.leader := by
  unfold Peer.reconcile
  split_ifs <;> try exact ⟨rfl, rfl⟩
  unfold Peer.appendClusterFrame
  rw [append_eq hseen]
  exact ⟨if_pos le_rfl, rfl⟩

theorem proposeConfig_ok {id : NodeId} {op : ConfigOp} {reported slack : ℕ}
    (h : p.proposeConfig id op reported slack = .ok c) :
    p.leader = true ∧ c.version = p.kernel.config.version + 1 := by
  have happly : ∀ {c'}, p.kernel.config.apply op = .ok c' → c'.version = p.kernel.config.version + 1 := by
    intro c' hc'
    cases ClusterConfig.apply_applied hc' <;> rfl
  unfold Peer.proposeConfig at h
  cases hl : p.leader with
  | false =>
    rw [hl] at h
    cases h
  | true =>
    refine ⟨rfl, ?_⟩
    rw [hl] at h
    split_ifs at h
    split at h
    · dsimp only at h
      split_ifs at h
      exact happly h
    · exact happly h

theorem proposeAndAppend (h : PeerOk g C forced n p) (id : NodeId) (op : ConfigOp)
    (reported slack : ℕ) (reconcileFull full : Bool) {reconcileLength : ℕ}
    (hlen : 0 < reconcileLength) (hlen' : 0 < length) :
    PeerOk g C forced n
      (p.proposeAndAppend id op reported slack reconcileFull full reconcileLength length) := by
  unfold Peer.proposeAndAppend
  cases hprop : p.proposeConfig id op reported slack with
  | error => exact h
  | ok config =>
    obtain ⟨hl, hnext⟩ := proposeConfig_ok hprop
    dsimp only
    -- the latch is attempted first, which leaves the config as it is
    obtain ⟨p', hp', hok, hk, hl'⟩ : ∃ p', (if p.latched = true then p
        else p.reconcile reconcileFull reconcileLength) = p' ∧ PeerOk g C forced n p' ∧
        p'.kernel = p.kernel ∧ p'.leader = true := by
      refine ⟨_, rfl, ?_⟩
      split
      · exact ⟨h, rfl, hl⟩
      · have hframe := reconcile_frame (h.leads hl).seen reconcileFull reconcileLength
        exact ⟨h.reconcile hl hlen reconcileFull, hframe.1, hframe.2.trans hl⟩
    rw [hp']
    by_cases hlat : p'.latched = true
    · rw [hlat]
      cases full with
      | true => exact hok
      | false =>
        have hcfg := hok.config_latched hl' hlat
        rw [hk] at hcfg
        refine (hok.append hl' hlen' ?_ ?_).gates _ _
        · rintro d ⟨⟩
          rw [hnext, hcfg]
        · rintro f hf d ⟨⟩ hd
          by_cases hn : f.1 = n
          · have hle := ((hok.ofForce f hf).survivor hn).latched hlat
            rw [hnext, hcfg] at hd
            omega
          · rw [(hok.ofForce f hf).alone hn] at hl'
            cases hl'
    · rw [Bool.not_eq_true] at hlat
      rw [hlat]
      exact hok

/-! ### The follower -/

theorem receive (h : PeerOk g C forced n p) (hl : p.leader = false) {p' : Peer}
    (h' : LogOk g p'.log) (hF : ∀ f ∈ forced, AgreesAt g f.2 p'.log) (hpre : p.log <+: p'.log) :
    PeerOk g C forced n { p with log := p'.log.take (p.log.length + 1) } := by
  have hgrow : p.log <+: p'.log.take (p.log.length + 1) :=
    List.prefix_take_iff.mpr ⟨hpre, Nat.le_succ _⟩
  have hin : p'.log.take (p.log.length + 1) <+: p'.log := List.take_prefix _ _
  refine ⟨h'.restrict hin, h.durable.trans hgrow.length_le, h.seen.trans hgrow.length_le, ?_, h.kept,
    h.view, h.artifact, h.commit, ?_, ?_⟩
  · obtain ⟨s, hs⟩ := hgrow
    have ht := h.tracks
    rw [← hs, List.take_append_of_le_length h.seen]
    exact ht
  · intro f hf
    refine ⟨(hF f hf).restrict hin, (h.ofForce f hf).alone, fun hn => ?_⟩
    obtain ⟨⟨base, hbase, hd, hpos, hv, hk⟩, hlat⟩ := (h.ofForce f hf).survivor hn
    exact ⟨⟨base, hbase.trans hgrow, hd, hpos, hv, hk⟩, fun hx => (hlat hx).trans (membershipOf_mono hgrow)⟩
  · intro hx
    dsimp only at hx
    rw [hl] at hx
    cases hx

theorem observeNext (h : PeerOk g C forced n p) : PeerOk g C forced n p.observeNext := by
  unfold Peer.observeNext
  cases he : p.log[p.seen]? with
  | none => exact h
  | some e =>
    obtain ⟨hlt, hget⟩ := List.getElem?_eq_some_iff.mp he
    refine { h with seen := hlt, tracks := ?_, ofForce := ?_, leads := ?_ }
    · have htake : p.log.take (p.seen + 1) = p.log.take p.seen ++ [e] := by
        rw [← hget, List.take_concat_get']
      rw [htake]
      exact h.tracks.observe (h.log.positive e (List.mem_of_getElem? he))
    · exact fun f hf => ⟨(h.ofForce f hf).agrees, (h.ofForce f hf).alone,
        fun hn => ⟨((h.ofForce f hf).survivor hn).forcedAt, ((h.ofForce f hf).survivor hn).latched⟩⟩
    · intro hl
      have hseen := (h.leads hl).seen
      omega

theorem observeAll (h : PeerOk g C forced n p) (hle : p.seen + k ≤ p.log.length) :
    PeerOk g C forced n (p.observeAll k) ∧ (p.observeAll k).seen = p.seen + k ∧
      (p.observeAll k).log = p.log ∧ (p.observeAll k).kept = p.kept ∧
      (p.observeAll k).view = p.view ∧ (p.observeAll k).commitSeen = p.commitSeen := by
  induction k generalizing p with
  | zero => exact ⟨h, rfl, rfl, rfl, rfl, rfl⟩
  | succ k ih =>
    have hget : p.log[p.seen]? = some (p.log.get ⟨p.seen, by omega⟩) := by simp
    have hnext : p.observeNext.seen = p.seen + 1 ∧ p.observeNext.log = p.log ∧
        p.observeNext.kept = p.kept ∧ p.observeNext.view = p.view ∧
        p.observeNext.commitSeen = p.commitSeen := by
      unfold Peer.observeNext
      rw [hget]
      exact ⟨rfl, rfl, rfl, rfl, rfl⟩
    obtain ⟨h1, h2, h3, h4, h5⟩ := hnext
    obtain ⟨ok, i1, i2, i3, i4, i5⟩ := ih h.observeNext (by rw [h1, h2]; omega)
    exact ⟨ok, by rw [Peer.observeAll, i1, h1]; omega, i2.trans h2, i3.trans h3, i4.trans h4,
      i5.trans h5⟩

theorem elect (h : PeerOk g C forced n p) (hC : C <+: p.log) (hF : ∀ f ∈ forced, f.1 = n)
    (term : ℕ) :
    PeerOk g C forced n { p.observeAll (p.log.length - p.seen) with leader := true, term := term } := by
  have hseen := h.seen
  obtain ⟨ok, h1, h2, h3, h4, h5⟩ := h.observeAll (k := p.log.length - p.seen) (by omega)
  refine ⟨ok.log, ok.durable, ok.seen, ok.tracks, ok.kept, ok.view, ok.artifact, ok.commit, ?_, ?_⟩
  · exact fun f hf => ⟨(ok.ofForce f hf).agrees, fun hn => absurd (hF f hf) hn,
      fun hn => ⟨((ok.ofForce f hf).survivor hn).forcedAt, ((ok.ofForce f hf).survivor hn).latched⟩⟩
  · intro _
    have hC' : C <+: (p.observeAll (p.log.length - p.seen)).log := by rwa [h2]
    refine ⟨?_, ok.kept.imp_left fun hr => reached_mono hr hC', covers_mono ok.view hC',
      C, List.prefix_refl C, hC', ok.commit⟩
    rw [h1, h2]
    omega

theorem not_survivor {m : NodeId} {p' : Peer} (h : PeerOk g C forced m p') (hl : p'.leader = true)
    (hmn : m ≠ n) : ∀ f ∈ forced, f.1 ≠ n := by
  intro f hf hn
  have hm : f.1 ≠ m := by
    rw [hn]
    exact hmn.symm
  rw [(h.ofForce f hf).alone hm] at hl
  cases hl

theorem cut (h : PeerOk g C forced n p) (hl : p.leader = false) (hF : ∀ f ∈ forced, f.1 ≠ n)
    (hord : if logEnd (p.log.take k) = 0 then 0 < p.kernel.position → Reached g C p.kernel.config
      else RecordWithin p k) :
    PeerOk g C forced n (p.cut k) := by
  have hpre : p.log.take k <+: p.log := List.take_prefix k p.log
  have hseen : (p.log.take k).take (min p.seen k) = (p.log.take p.seen).take k := by
    rw [List.take_take, List.take_take]
    congr 1
    omega
  have hlog := h.log.restrict hpre
  have hfp : ∀ f ∈ forced, ForcedPeer g n f (p.cut k) := fun f hf =>
    ⟨(h.ofForce f hf).agrees.restrict hpre, fun _ => hl, fun hn => absurd hn (hF f hf)⟩
  have hnl : (p.cut k).leader = true → Leads g C forced n (p.cut k) := fun hx =>
    nomatch hl.symm.trans hx
  have hlen : min p.durable k ≤ (p.log.take k).length ∧ min p.seen k ≤ (p.log.take k).length := by
    have hd := h.durable
    have hs := h.seen
    rw [List.length_take]
    omega
  refine ⟨hlog, hlen.1, hlen.2, ?_, ?_, h.view, h.artifact, h.commit, hfp, hnl⟩
  · unfold Peer.cut
    dsimp only
    rw [hseen]
    by_cases h0 : logEnd (p.log.take k) = 0
    · have hnil : p.log.take k = [] := hlog.positive.eq_nil h0
      have hnil' : (p.log.take p.seen).take k = [] := by
        rw [List.take_take, Nat.min_comm, ← List.take_take, hnil, List.take_nil]
      rw [hnil', h0, ConfigRecord.revert]
      by_cases hpos : 0 < p.kernel.position
      · rw [if_pos ⟨hpos, rfl⟩, if_pos hpos, if_pos rfl]
        exact .seed p.kernel.config
      · rw [if_neg (fun hx => hpos hx.1), if_neg hpos]
        exact h.tracks.restrict List.nil_prefix (by rw [logEnd_nil]; omega)
    · rw [if_neg h0] at hord
      rw [if_neg (fun hx => h0 hx.2)]
      rcases Nat.le_total k p.seen with hk | hk
      · have hcut : (p.log.take p.seen).take k = p.log.take k := by
          rw [List.take_take, Nat.min_eq_left hk]
        rw [hcut]
        exact h.tracks.revert (hcut ▸ List.take_prefix k (p.log.take p.seen)) h0 hord
      · -- what is cut was not observed
        have hcut : (p.log.take p.seen).take k = p.log.take p.seen := by
          rw [List.take_take, Nat.min_eq_right hk]
        have hle : p.kernel.position ≤ logEnd (p.log.take k) :=
          h.tracks.within.trans (logEnd_le (List.take_prefix_take_left hk))
        rw [hcut, ConfigRecord.revert, if_neg (not_lt.mpr hle)]
        exact h.tracks
  · unfold Peer.cut
    dsimp only
    split
    · rename_i hwipe
      rw [if_pos hwipe.2] at hord
      exact .inl (hord (by omega))
    · exact h.kept

theorem learn (h : PeerOk g C forced n p) (hl : p.leader = false) {c : ℕ} (hc : c ≤ logEnd C) :
    PeerOk g C forced n { p with commitSeen := max p.commitSeen c } :=
  { h with commit := max_le h.commit hc, ofForce := fun f hf => ⟨(h.ofForce f hf).agrees,
    (h.ofForce f hf).alone, fun hn => ⟨((h.ofForce f hf).survivor hn).forcedAt,
    ((h.ofForce f hf).survivor hn).latched⟩⟩, leads := fun hx => nomatch hl.symm.trans hx }

theorem leader_next (h : PeerOk g C forced n p) (hC : LogOk g C) (hl : p.leader = true)
    (he : itemAt C p.view.consumed = some e) (hle : p.view.consumed + e.length ≤ p.commitSeen) :
    itemAt p.log p.view.consumed = some e := by
  obtain ⟨q, hq, -, q', hq', hcons⟩ := covers_iff.mp h.view
  obtain ⟨c, hc, hcl, hcommit⟩ := (h.leads hl).commit
  rw [hcons, itemAt_iff hC.positive (hq'.trans hq)] at he
  have hin : q' ++ [e] <+: c := by
    refine hC.positive.prefix_of_le he hc ?_
    rw [logEnd_append, logEnd_cons, logEnd_nil]
    omega
  rw [hcons, itemAt_iff h.log.positive ((List.prefix_append q' [e]).trans (hin.trans hcl))]
  exact hin.trans hcl

theorem consume (h : PeerOk g C forced n p) (hC : LogOk g C)
    (he : itemAt C p.view.consumed = some e) (hle : p.view.consumed + e.length ≤ p.commitSeen) :
    PeerOk g C forced n { p with view := p.view.walk e } := by
  refine ⟨h.log, h.durable, h.seen, h.tracks, h.kept, (covers_next hC h.view he).2, h.artifact,
    h.commit, fun f hf => ⟨(h.ofForce f hf).agrees, (h.ofForce f hf).alone,
      fun hn => ⟨((h.ofForce f hf).survivor hn).forcedAt, ((h.ofForce f hf).survivor hn).latched⟩⟩,
    fun hl => ?_⟩
  have hL := h.leads hl
  exact ⟨hL.seen, hL.kept, (covers_next h.log hL.view (h.leader_next hC hl he hle)).2, hL.commit⟩

theorem freeze (h : PeerOk g C forced n p) : PeerOk g C forced n { p with artifact := some p.view } := by
  refine { h with artifact := ?_, ofForce := fun f hf => ⟨(h.ofForce f hf).agrees,
    (h.ofForce f hf).alone, fun hn => ⟨((h.ofForce f hf).survivor hn).forcedAt,
    ((h.ofForce f hf).survivor hn).latched⟩⟩, leads := fun hl => ⟨(h.leads hl).seen,
    (h.leads hl).kept, (h.leads hl).view, (h.leads hl).commit⟩ }
  rintro v ⟨⟩
  exact h.view

theorem install (h : PeerOk g C forced n p) (hl : p.leader = false) (hv : Covers g C v) :
    PeerOk g C forced n { p with view := v, artifact := some v } := by
  refine { h with view := hv, artifact := ?_, ofForce := fun f hf => ⟨(h.ofForce f hf).agrees,
    (h.ofForce f hf).alone, fun hn => ⟨((h.ofForce f hf).survivor hn).forcedAt,
    ((h.ofForce f hf).survivor hn).latched⟩⟩, leads := fun hx => nomatch hl.symm.trans hx }
  rintro v ⟨⟩
  exact hv

theorem persist (h : PeerOk g C forced n p) (k : ℕ) :
    PeerOk g C forced n { p with durable := max p.durable (min k p.log.length) } := by
  refine ⟨h.log, max_le h.durable (min_le_right _ _), h.seen, h.tracks, h.kept, h.view, h.artifact,
    h.commit, fun f hf => ⟨(h.ofForce f hf).agrees, (h.ofForce f hf).alone, fun hn => ?_⟩,
    fun hl => ⟨(h.leads hl).seen, (h.leads hl).kept, (h.leads hl).view, (h.leads hl).commit⟩⟩
  obtain ⟨⟨base, hbase, hd, hrest⟩, hlat⟩ := (h.ofForce f hf).survivor hn
  exact ⟨⟨base, hbase, hd.trans (le_max_left _ _), hrest⟩, hlat⟩

theorem adopt (h : PeerOk g C forced n p) (hC : LogOk g C) (hl : p.leader = false)
    (hF : ∀ f ∈ forced, f.1 ≠ n) (hCF : ∀ f ∈ forced, AgreesAt g f.2 C) (hq : q <+: C)
    (hcons : logEnd q ≤ p.view.consumed) : PeerOk g C forced n (p.adopt q) := by
  obtain ⟨a, ha, hm, b, hb, hbc⟩ := covers_iff.mp h.view
  have hqa : q <+: a := (hC.positive.prefix_of_le hq (hb.trans ha) (hbc ▸ hcons)).trans hb
  refine ⟨hC.restrict hq, le_rfl, le_rfl, ?_, .inl (covers_reached h.view), h.view, h.artifact, h.commit,
    fun f hf => ⟨(hCF f hf).restrict hq, fun _ => hl, fun hn => absurd hn (hF f hf)⟩,
    fun hx => nomatch hl.symm.trans hx⟩
  unfold Peer.adopt
  rw [List.take_length]
  refine Tracks.fiat ?_
  intro e he d hd
  rw [hm]
  exact ((hC.chain.restrict hq).version_le he hd).trans (membershipOf_mono hqa)

theorem boot (h : PeerOk g C forced n p) (hd : p.durable ≤ k) (hw : RecordWithin p k)
    (hview : Covers g C (p.boot g k).view) : PeerOk g C forced n (p.boot g k) := by
  have hpre : p.log.take k <+: p.log := List.take_prefix k p.log
  refine ⟨h.log.restrict hpre, le_rfl, le_rfl, ?_, h.kept, hview, h.artifact, Nat.zero_le _, ?_,
    fun hx => nomatch hx⟩
  · have ht := h.tracks.recover (List.take_prefix _ _) hpre h.log.positive hw g
    unfold Peer.boot
    rw [List.take_length]
    exact ht
  · intro f hf
    refine ⟨(h.ofForce f hf).agrees.restrict hpre, fun _ => rfl, fun hn => ?_⟩
    obtain ⟨⟨base, hbase, hbd, hrest⟩, -⟩ := (h.ofForce f hf).survivor hn
    have hin : base <+: p.log.take k := List.prefix_take_iff.mpr ⟨hbase, hbd.trans hd⟩
    exact ⟨⟨base, hin, hin.length_le, hrest⟩, fun hx => nomatch hx⟩

/-- The committed log grows; a forced config that it reaches is no longer an exception. -/
theorem grow (h : PeerOk g C forced n p) (hC : C <+: C') (hsub : ∀ f ∈ forced', f ∈ forced)
    (hdrop : ∀ f ∈ forced, f ∉ forced' → f.1 = n →
      Reached g C' f.2 ∧ (p.leader = true → Reached g p.log f.2)) :
    PeerOk g C' forced' n p := by
  have hk : ∀ f ∈ forced, f.1 = n → p.kept.1 = f.2 := by
    intro f hf hn
    obtain ⟨base, -, -, -, -, hk⟩ := ((h.ofForce f hf).survivor hn).forcedAt
    rw [hk]
  refine ⟨h.log, h.durable, h.seen, h.tracks, ?_, covers_mono h.view hC,
    fun v hv => covers_mono (h.artifact v hv) hC, h.commit.trans (logEnd_le hC),
    fun f hf => h.ofForce f (hsub f hf), fun hl => ?_⟩
  · rcases h.kept with hr | ⟨f, hf, hn⟩
    · exact .inl (reached_mono hr hC)
    · by_cases hf' : f ∈ forced'
      · exact .inr ⟨f, hf', hn⟩
      · exact .inl (hk f hf hn ▸ (hdrop f hf hf' hn).1)
  · have hL := h.leads hl
    obtain ⟨c, hc, hcl, hle⟩ := hL.commit
    refine ⟨hL.seen, ?_, hL.view, c, hc.trans hC, hcl, hle⟩
    rcases hL.kept with hr | ⟨f, hf, hn⟩
    · exact .inl hr
    · by_cases hf' : f ∈ forced'
      · exact .inr ⟨f, hf', hn⟩
      · exact .inl (hk f hf hn ▸ (hdrop f hf hf' hn).2 hl)

theorem fresh (hF : ∀ f ∈ forced, f.1 ≠ n ∧ g.version < f.2.version) :
    PeerOk g C forced n (.fresh g) := by
  have hg : Reached g C g := reached_iff.mpr ⟨[], List.nil_prefix, rfl⟩
  refine ⟨.nil, le_rfl, le_rfl, .seed g, .inl hg, covers_seed hg, (fun v hv => nomatch hv),
    Nat.zero_le _, fun f hf => ⟨?_, fun _ => rfl, fun hn => absurd hn (hF f hf).1⟩, (fun hx => nomatch hx)⟩
  exact agreesAt_of_lt (hF f hf).2

end PeerOk

/-! ## The cluster -/

namespace World

/-- The invariant of a run. -/
structure Inv (g : ClusterConfig) (w : World) : Prop where
  committed : LogOk g w.committed
  agrees : ∀ f ∈ w.forced, AgreesAt g f.2 w.committed
  artifacts : ∀ v ∈ w.artifacts, Covers g w.committed v
  peers : ∀ n, PeerOk g w.committed w.forced n (w.peers n)

@[simp] theorem set_peers_self : (w.set n p).peers n = p := Function.update_self ..

theorem set_peers_of_ne {m : NodeId} (h : m ≠ n) : (w.set n p).peers m = w.peers m :=
  Function.update_of_ne h ..

theorem inv_fresh (g : ClusterConfig) : Inv g (fresh g) :=
  ⟨.nil, (fun _ hf => nomatch hf), (fun _ hv => nomatch hv), fun _ => .fresh fun _ hf => nomatch hf⟩

namespace Inv

theorem set (h : Inv g w) (hp : PeerOk g w.committed w.forced n p) : Inv g (w.set n p) := by
  refine { h with peers := ?_ }
  intro m
  by_cases hm : m = n
  · subst hm
    rw [set_peers_self]
    exact hp
  · rw [set_peers_of_ne hm]
    exact h.peers m

theorem elect (h : Inv g w) {term : ℕ} (hlen : 0 < length) (hC : w.committed <+: (w.peers n).log)
    (hF : ∀ f ∈ w.forced, f.1 = n) : Inv g (exec g w (.elect n term length)) := by
  dsimp only [exec]
  split
  · exact h
  · exact h.set ((((h.peers n).elect hC hF term).append_other rfl hlen fun _ => rfl).gates _ _)

theorem append (h : Inv g w) {cluster : Bool} (hlen : 0 < length) :
    Inv g (exec g w (.append n cluster length)) := by
  dsimp only [exec]
  split
  · exact h
  · rename_i hl
    have hl : (w.peers n).leader = true := by simpa using hl
    cases cluster with
    | true => exact h.set (((h.peers n).append_other hl hlen fun _ => rfl).gates _ _)
    | false => exact h.set ((h.peers n).append_other hl hlen fun _ => rfl)

theorem reconcile (h : Inv g w) {full : Bool} (hlen : 0 < length) :
    Inv g (exec g w (.reconcile n full length)) := by
  dsimp only [exec]
  split
  · exact h
  · rename_i hgate
    have hl : (w.peers n).leader = true := by
      simp only [Peer.canServe, Bool.or_eq_true, Bool.not_eq_true', Bool.and_eq_false_iff, not_or,
        Bool.not_eq_false] at hgate
      exact hgate.2.1
    exact h.set ((h.peers n).reconcile hl hlen full)

theorem receive (h : Inv g w) {m : NodeId} : Inv g (exec g w (.receive n m)) := by
  dsimp only [exec]
  split
  · exact h
  · rename_i hgate
    simp only [Bool.or_eq_true, Bool.not_eq_true', decide_eq_false_iff_not, not_or, not_not,
      Bool.not_eq_true] at hgate
    exact h.set ((h.peers n).receive hgate.1 (h.peers m).log
      (fun f hf => ((h.peers m).ofForce f hf).agrees) hgate.2)

theorem cut (h : Inv g w) {m : NodeId} (hm : m ≠ n) (hlead : (w.peers m).leader = true)
    (hord : Orderly g w (.cut n m k)) : Inv g (exec g w (.cut n m k)) := by
  dsimp only [exec]
  split
  · exact h
  · rename_i hl
    exact h.set ((h.peers n).cut (by simpa using hl) ((h.peers m).not_survivor hlead hm) hord)

theorem commit (h : Inv g w) (hC : w.committed <+: (w.peers n).log.take k) :
    Inv g (exec g w (.commit n k)) := by
  dsimp only [exec]
  by_cases hl : (w.peers n).leader = true
  swap
  · rw [if_pos (by simpa using hl)]
    exact h
  rw [if_neg (by simpa using hl)]
  set C' := (w.peers n).log.take k with hC'
  have hin : C' <+: (w.peers n).log := List.take_prefix k _
  have hlog : LogOk g C' := (h.peers n).log.restrict hin
  have hsub : ∀ f ∈ settle g w.forced C', f ∈ w.forced := by
    intro f hf
    exact (Option.filter_eq_some_iff.mp hf).1
  have hforcedN : ∀ f ∈ w.forced, f.1 = n := by
    intro f hf
    by_contra hn
    rw [((h.peers n).ofForce f hf).alone hn] at hl
    cases hl
  have hdrop : ∀ f ∈ w.forced, f ∉ settle g w.forced C' → Reached g C' f.2 := by
    intro f hf hdropped
    have hfp := (h.peers n).ofForce f hf
    refine (hfp.agrees.restrict hin).reached hlog.chain (hfp.survivor (hforcedN f hf)).genesis_lt ?_
    by_contra hlt
    exact hdropped (Option.filter_eq_some_iff.mpr ⟨hf, decide_eq_true (not_le.mp hlt)⟩)
  refine ⟨hlog, fun f hf => ((h.peers n).ofForce f (hsub f hf)).agrees.restrict hin,
    fun v hv => covers_mono (h.artifacts v hv) hC, ?_⟩
  intro m
  have hgrow : PeerOk g C' (settle g w.forced C') m (w.peers m) := by
    refine (h.peers m).grow hC hsub ?_
    intro f hf hdropped hm
    have hmn : m = n := hm.symm.trans (hforcedN f hf)
    subst hmn
    exact ⟨hdrop f hf hdropped, fun _ => reached_mono (hdrop f hf hdropped) hin⟩
  by_cases hm : m = n
  · subst hm
    rw [set_peers_self]
    have hL := hgrow.leads hl
    exact { hgrow with commit := le_rfl, ofForce := fun f hf => ⟨(hgrow.ofForce f hf).agrees,
      (hgrow.ofForce f hf).alone, fun hn => ⟨((hgrow.ofForce f hf).survivor hn).forcedAt,
      ((hgrow.ofForce f hf).survivor hn).latched⟩⟩, leads := fun _ => ⟨hL.seen, hL.kept, hL.view,
      C', List.prefix_refl _, hin, le_rfl⟩ }
  · rw [set_peers_of_ne hm]
    exact hgrow

theorem learn (h : Inv g w) (hk : (w.peers n).log.take k <+: w.committed) :
    Inv g (exec g w (.learn n k)) := by
  dsimp only [exec]
  split
  · exact h
  · rename_i hl
    exact h.set ((h.peers n).learn (by simpa using hl) (logEnd_le hk))

theorem consume (h : Inv g w) : Inv g (exec g w (.consume n)) := by
  dsimp only [exec]
  cases he : itemAt w.committed (w.peers n).view.consumed with
  | none => exact h
  | some e =>
    dsimp only
    split
    · exact h.set ((h.peers n).consume h.committed he ‹_›)
    · exact h

theorem freeze (h : Inv g w) : Inv g (exec g w (.freeze n)) := by
  have hset := h.set (h.peers n).freeze
  refine { hset with artifacts := ?_ }
  intro v hv
  rcases List.mem_cons.mp hv with rfl | hv
  · exact (h.peers n).view
  · exact h.artifacts v hv

theorem install (h : Inv g w) (hv : v ∈ w.artifacts) : Inv g (exec g w (.install n v)) := by
  dsimp only [exec]
  split
  · exact h
  · rename_i hgate
    simp only [Bool.or_eq_true, not_or, Bool.not_eq_true] at hgate
    exact h.set ((h.peers n).install hgate.1 (h.artifacts v hv))

theorem adopt (h : Inv g w) {m : NodeId} (hm : m ≠ n) (hlead : (w.peers m).leader = true)
    (hl : (w.peers n).leader = false)
    (hcons : logEnd (w.committed.take k) ≤ (w.peers n).view.consumed) :
    Inv g (exec g w (.adopt n m k true)) := by
  dsimp only [exec]
  split
  · exact h
  · exact h.set ((h.peers n).adopt h.committed hl ((h.peers m).not_survivor hlead hm) h.agrees
      (List.take_prefix _ _) hcons)

theorem restart (h : Inv g w) (hd : (w.peers n).durable ≤ k) (hord : Orderly g w (.restart n k)) :
    Inv g (exec g w (.restart n k)) := by
  refine h.set ((h.peers n).boot hd hord.1 ?_)
  cases ha : (w.peers n).artifact with
  | none =>
    unfold Peer.boot
    rw [ha]
    exact covers_seed (hord.2 ha)
  | some v =>
    unfold Peer.boot
    rw [ha]
    exact (h.peers n).artifact v ha

theorem planForce_some {r : ConfigRecord} (h : (w.peers n).planForceSingleMember n k = some r)
    (hp : PeerOk g w.committed w.forced n (w.peers n)) :
    RecordWithin (w.peers n) k ∧
      r.config.version = ((w.peers n).boot g k).kernel.config.version + 1 ∧
      r = ⟨logEnd ((w.peers n).log.take k), r.config, logEnd ((w.peers n).log.take k), r.config⟩ := by
  unfold Peer.planForceSingleMember at h
  dsimp only at h
  split_ifs at h with hahead htomb
  have hw : RecordWithin (w.peers n) k := by
    unfold RecordWithin
    omega
  obtain ⟨survivor, -, rfl⟩ := Option.map_eq_some_iff.mp h
  refine ⟨hw, ?_, rfl⟩
  -- the settings that are passed in play no part
  have hpre : (w.peers n).log.take k <+: (w.peers n).log := List.take_prefix k _
  have h1 := (hp.tracks.recover (List.take_prefix _ _) hpre hp.log.positive hw ⟨0, [], [], []⟩).config_eq
  have h2 := (hp.tracks.recover (List.take_prefix _ _) hpre hp.log.positive hw g).config_eq
  unfold Peer.boot
  rw [h1, h2]

theorem force (h : Inv g w) (hpos : 0 < logEnd ((w.peers n).log.take k))
    (hord : Orderly g w (.force n k)) : Inv g (exec g w (.force n k)) := by
  dsimp only [exec]
  cases hplan : (w.peers n).planForceSingleMember n k with
  | none => exact h
  | some r =>
    obtain ⟨hw, hver, hr⟩ := planForce_some hplan (h.peers n)
    obtain ⟨hcfg, v, hv, hcov⟩ := hord r hplan
    rw [hcfg] at hver
    set base := (w.peers n).log.take k with hbase
    have hlog : LogOk g base := (h.peers n).log.restrict (List.take_prefix k _)
    have hlt : (membershipOf g base).version < r.config.version := by omega
    have hgen : g.version < r.config.version := (le_membershipOf.trans_lt hlt)
    have hboot : Tracks (r.config, logEnd base) base
        (recoverConfigRecord (some r) (framesFrom 0 base) 0 (logEnd base) g) := by
      have hfiat : Tracks (r.config, logEnd base) base r := by
        have hf : Tracks (r.config, logEnd base) base ⟨logEnd base, r.config, logEnd base, r.config⟩ :=
          Tracks.fiat fun e he d hd => (hlog.chain.version_le he hd).trans hlt.le
        rwa [← hr] at hf
      refine hfiat.recover (List.prefix_refl _) (List.prefix_refl _) hlog.positive (.inl ?_) g
      rw [hr]
    have hforced : PeerOk g base (some (n, r.config)) n
        (({ w.peers n with kernel := r, kept := (r.config, r.position) } : Peer).boot g k) := by
      have hpos' : r.position = logEnd base := by rw [hr]
      unfold Peer.boot
      rw [← hbase, hv, hpos']
      refine ⟨hlog, le_rfl, le_rfl, ?_, .inr ⟨_, rfl, rfl⟩, hcov, ?_, Nat.zero_le _, ?_,
        (fun hx => nomatch hx)⟩
      · rw [List.take_length]
        exact hboot
      · rintro v' ⟨⟩
        exact hcov
      · rintro f ⟨⟩
        exact ⟨agreesAt_of_lt hlt, fun _ => rfl, fun _ =>
          ⟨⟨base, List.prefix_refl _, le_rfl, hpos, hver, rfl⟩, fun hx => nomatch hx⟩⟩
    refine ⟨hlog, ?_, ?_, ?_⟩
    · rintro f ⟨⟩
      exact agreesAt_of_lt hlt
    · intro v' hv'
      rw [Option.mem_toList] at hv'
      rw [Option.mem_unique hv' hv]
      exact hcov
    · intro m
      by_cases hm : m = n
      · subst hm
        dsimp only
        rw [if_pos rfl]
        exact hforced
      · dsimp only
        rw [if_neg hm]
        refine .fresh ?_
        rintro f ⟨⟩
        exact ⟨Ne.symm hm, hgen⟩

theorem step {op : Op} (h : Inv g w) (hp : Possible w op) (ho : Orderly g w op) :
    Inv g (exec g w op) := by
  cases op with
  | elect n term length => exact h.elect hp.1 hp.2.1 hp.2.2
  | stepDown n =>
    have hn := h.peers n
    refine h.set { hn with ofForce := fun f hf => ⟨(hn.ofForce f hf).agrees, fun _ => rfl,
      fun hx => ⟨((hn.ofForce f hf).survivor hx).forcedAt,
      ((hn.ofForce f hf).survivor hx).latched⟩⟩, leads := (fun hx => nomatch hx) }
  | append n cluster length => exact h.append hp
  | propose n op reported slack reconcileFull full reconcileLength length =>
    exact h.set ((h.peers n).proposeAndAppend n op reported slack reconcileFull full hp.1 hp.2)
  | reconcile n full length => exact h.reconcile hp
  | receive n m => exact h.receive
  | persist n k => exact h.set ((h.peers n).persist k)
  | observe n => exact h.set (h.peers n).observeNext
  | cut n m k => exact h.cut hp.1 hp.2 ho
  | commit n k => exact h.commit hp
  | learn n k => exact h.learn hp
  | consume n => exact h.consume
  | freeze n => exact h.freeze
  | install n v => exact h.install hp
  | adopt n m k sent =>
    cases ho
    exact h.adopt hp.1 hp.2.1 hp.2.2.1 hp.2.2.2
  | restart n k => exact h.restart hp ho
  | force n k => exact h.force hp.2 ho

end Inv

theorem run_inv {ops : List Op}
    (h : Trace.Admits (exec g) (fun w op => Possible w op ∧ Orderly g w op) (fresh g) ops) :
    Inv g (run g (fresh g) ops) := by
  refine Trace.Admits.rule (P := fun ops => Inv g (run g (fresh g) ops)) (inv_fresh g) ?_ h
  intro ops op hinv hok
  rw [run, List.foldl_concat]
  exact hinv.step hok.1 hok.2

/-! ## Agreement -/

/-- The FSM of `n` takes the next committed membership frame, or has its version. -/
def Accepts (w : World) (n : NodeId) : Prop :=
  ∀ e ∈ itemAt w.committed (w.peers n).view.consumed, ∀ c ∈ e.config?, ∀ s : ClusterState,
    s.membership = (w.peers n).view.membership →
      s.validateReplicated (.membership c) = .ok () ∨ c.version ≤ s.membership.version

/-- A leader has latched, its config's position is committed, and its cluster agent has
    consumed every frame that it appended. -/
def CaughtUp (p : Peer) : Prop :=
  p.leader = true ∧ p.latched = true ∧ p.kernel.position ≤ p.commitSeen ∧
    logEnd p.log ≤ p.view.consumed

instance (p : Peer) : Decidable (CaughtUp p) := inferInstanceAs (Decidable (_ ∧ _))

/-- In every run in which no force is made on a config that the survivor's log and artifact
    do not reach, no wipe or start keeps a config that is not committed, no cut or crash
    takes two adopted configs away, and no floor command is dropped. -/
theorem kernel_fsm_agree {ops : List Op}
    (h : Trace.Admits (exec g) (fun w op => Possible w op ∧ Orderly g w op) (fresh g) ops)
    (n : NodeId) :
    Accepts (run g (fresh g) ops) n ∧
      (CaughtUp ((run g (fresh g) ops).peers n) →
        ((run g (fresh g) ops).peers n).view.membership =
          ((run g (fresh g) ops).peers n).kernel.config) := by
  have hinv := run_inv h
  generalize run g (fresh g) ops = w at hinv ⊢
  have hn := hinv.peers n
  constructor
  · intro e he c hc s hs
    rcases (covers_next hinv.committed hn.view he).1 c hc with hnext | hle
    · rw [← hs] at hnext
      exact .inl (if_neg (not_not.mpr hnext))
    · exact .inr (hs ▸ hle)
  · rintro ⟨hl, hlat, -, hcons⟩
    obtain ⟨q, hq, hv, q', hq', hc⟩ := covers_iff.mp (hn.leads hl).view
    have hall : (w.peers n).log <+: q' :=
      hn.log.positive.prefix_of_le (List.prefix_refl _) (hq'.trans hq) (hc ▸ hcons)
    have hqe : q = (w.peers n).log := hq.eq_of_length_le (hall.trans hq').length_le
    rw [hv, hqe, hn.config_latched hl hlat]

section Runs

/-- One voter. -/
def lone : ClusterConfig := ⟨0, [(1, (0, 0))], [], []⟩

/-- Term 1 commits, and the cluster agent writes an artifact. -/
def begun : List Op := [.elect 1 1 32, .persist 1 1, .commit 1 1, .consume 1, .freeze 1]

/-- The node leads again, its cluster agent catches up, and it reconciles. -/
def resumed : List Op := [.elect 1 2 32, .persist 1 2, .commit 1 2, .consume 1, .reconcile 1 false 64]

/-- Forced once: the forced config reaches the FSM, and a change on top of it. -/
theorem kernel_fsm_agree_forced :
    let ops := begun ++ [.force 1 1] ++ resumed ++ [.persist 1 3, .commit 1 3, .consume 1,
      .propose 1 (.addLearner 2 (0, 1)) 0 0 false false 64 64, .persist 1 4, .commit 1 4, .consume 1]
    CaughtUp ((run lone (fresh lone) ops).peers 1) ∧
      ((run lone (fresh lone) ops).peers 1).view.membership.version = 2 ∧
      ((run lone (fresh lone) ops).peers 1).view.membership =
        ((run lone (fresh lone) ops).peers 1).kernel.config := by
  refine ⟨by decide +kernel, by decide +kernel, (kernel_fsm_agree ?_ 1).2 (by decide +kernel)⟩
  decide +kernel

/-- Forced twice, the kernel is two versions ahead: its config is refused, the latch is
    set, and the FSM keeps the old membership. -/
theorem forced_twice_disagree :
    let ops := begun ++ [.force 1 1, .force 1 1] ++ resumed
    Trace.Admits (exec lone) Possible (fresh lone) ops ∧
      CaughtUp ((run lone (fresh lone) ops).peers 1) ∧
      ((run lone (fresh lone) ops).peers 1).view.membership ≠
        ((run lone (fresh lone) ops).peers 1).kernel.config := by
  decide +kernel

end Runs

end World

end UltimaCluster.KernelView
