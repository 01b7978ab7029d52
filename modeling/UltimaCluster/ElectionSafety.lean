/-
  Election safety: no two nodes lead one term, in every run of a cluster in
  which winners are voters of the config they count over, and have adopted what
  the membership changes of lower terms were proposed over.

  Every change is `ClusterConfig::apply` of the config that its leader had
  adopted, so that two winners of one term count over the two ends of one change:
  their majorities share a voter, who votes once in a term.
-/
import UltimaCluster.Ballots
import UltimaCluster.Quorum

namespace UltimaCluster

open ElectionSm

theorem Node.feed_vote (n : Node) (ev : Event) :
    (n.feed ev).vote = storedVote n.vote (n.sm.step ev).2 := by
  unfold Node.feed storedVote
  generalize (n.sm.step ev).2 = out
  have hgen : ∀ m : Node, (out.foldl Node.store m).vote =
      out.foldl (fun vote a => a.ballot?.or vote) m.vote := by
    induction out with
    | nil => intro m; rfl
    | cons a out ih =>
      intro m
      rw [List.foldl_cons, List.foldl_cons, ih]
      cases a <;> rfl
  exact hgen _

namespace Cluster

/-- `v` has stored a vote for `x` in `term`. -/
def Cast (c : Cluster) (v : NodeId) (term : ℕ) (x : NodeId) : Prop :=
  ∃ e ∈ c.emitted, e.node = v ∧ e.action.ballot? = some (term, x)

theorem cast_feed (c : Cluster) (n : NodeId) (ev : Event) (v : NodeId) (t : ℕ) (x : NodeId) :
    (c.feed n ev).Cast v t x ↔
      c.Cast v t x ∨ (v = n ∧ (t, x) ∈ ballots ((c.nodes n).sm.step ev).2) := by
  constructor
  · rintro ⟨e, he, rfl, hb⟩
    rcases List.mem_append.mp he with he | he
    · obtain ⟨a, ha, rfl⟩ := List.mem_map.mp he
      exact .inr ⟨rfl, mem_ballots.mpr ⟨a, ha, hb⟩⟩
    · exact .inl ⟨e, he, rfl, hb⟩
  · rintro (⟨e, he, hv, hb⟩ | ⟨rfl, hb⟩)
    · exact ⟨e, List.mem_append_right _ he, hv, hb⟩
    · obtain ⟨a, ha, hab⟩ := mem_ballots.mp hb
      exact ⟨_, List.mem_append_left _ (List.mem_map.mpr ⟨a, ha, rfl⟩), rfl, hab⟩

/-- A majority of the voters that the winner counted over voted for it. -/
def Backed (c : Cluster) (r : Reign) : Prop :=
  ∃ Q : Finset NodeId, Q ⊆ r.voters.toFinset ∧ r.voters.toFinset.card / 2 < Q.card ∧
    ∀ v ∈ Q, c.Cast v r.term r.leader

/-- What the votes cast say of each node. -/
structure BallotInv (c : Cluster) : Prop where
  id : ∀ n, (c.nodes n).sm.id = n
  voted : ∀ n, Voted (c.Cast n) (c.nodes n).vote (c.nodes n).sm
  tallied : ∀ n, Tallied (fun v t => c.Cast v t n) (c.nodes n).sm
  leads : ∀ n, (c.nodes n).sm.role = .leader →
    ∃ r ∈ c.reigns, r.leader = n ∧ r.term = (c.nodes n).sm.currentTerm
  backed : ∀ r ∈ c.reigns, r.leader ∈ r.voters → c.Backed r

variable {c : Cluster}

theorem Backed.feed {r : Reign} (h : c.Backed r) (n : NodeId) (ev : Event) :
    (c.feed n ev).Backed r := by
  obtain ⟨Q, hsub, hcard, hcast⟩ := h
  exact ⟨Q, hsub, hcard, fun v hv => (cast_feed c n ev v _ _).mpr (.inl (hcast v hv))⟩

theorem backed_of_tally {s : ElectionSm} {r : Reign}
    (ht : Tallied (fun v t => c.Cast v t r.leader) s) (hr : s.role = .candidate)
    (hterm : r.term = s.currentTerm) (hv : r.voters = s.members) (hid : s.id = r.leader)
    (hmaj : s.majority ≤ s.votesReceived.length) (hself : r.leader ∈ r.voters) : c.Backed r := by
  refine ⟨s.votesReceived.toFinset, ?_, ?_, ?_⟩
  · intro v hmem
    rw [List.mem_toFinset] at hmem ⊢
    rcases ht.within v hmem with h | h
    · exact hv ▸ h
    · rw [h, hid]
      exact hself
  · rw [List.toFinset_card_of_nodup ht.nodup]
    have hle := List.toFinset_card_le r.voters
    rw [hv] at hle ⊢
    unfold majority at hmaj
    omega
  · intro v hmem
    rw [hterm]
    exact ht.counted hr v (List.mem_toFinset.mp hmem)

theorem reignsOf_step (n : NodeId) (s : ElectionSm) (ev : Event) :
    reignsOf n (s.step ev).1 (s.step ev).2 = [] ∨ ∃ s1 out, Victory s ev s1 out ∧
      reignsOf n (s.step ev).1 (s.step ev).2 =
        [⟨s1.currentTerm, n, s.members, s.durable, s1.becomeLeader.1.termMap⟩] := by
  by_cases h : ∃ term base, .becomeLeader term base ∈ (s.step ev).2
  · obtain ⟨term, base, h⟩ := h
    obtain ⟨s1, out, hvic⟩ := victory_of_mem h
    refine .inr ⟨s1, out, hvic, ?_⟩
    have hnil : reignsOf n s1.becomeLeader.1 out = [] := by
      rw [reignsOf, List.filterMap_eq_nil_iff]
      intro a ha
      cases a with
      | becomeLeader term base => exact absurd ha (hvic.silent term base)
      | _ => rfl
    have hsplit : reignsOf n s1.becomeLeader.1 (out ++ s1.becomeLeader.2) =
        reignsOf n s1.becomeLeader.1 out ++ reignsOf n s1.becomeLeader.1 s1.becomeLeader.2 :=
      List.filterMap_append
    rw [hvic.eq]
    rw [hsplit, hnil, List.nil_append, ← hvic.members, ← hvic.durable]
    rfl
  · left
    rw [reignsOf, List.filterMap_eq_nil_iff]
    intro a ha
    cases a with
    | becomeLeader term base => exact absurd ⟨term, base, ha⟩ h
    | _ => rfl

theorem BallotInv.tallied_feed (h : BallotInv c) (n : NodeId) {ev : Event}
    (hev : ∀ src term, ev = .vote src term true → c.Cast src term n) {s1 : ElectionSm}
    {out out' : List Action} (hs : Steps ev (c.nodes n).sm s1 out)
    (hout : ((c.nodes n).sm.step ev).2 = out ++ out') :
    Tallied (fun v t => (c.feed n ev).Cast v t n) s1 := by
  have hmono : ∀ v t, c.Cast v t n → (c.feed n ev).Cast v t n := fun v t hc =>
    (cast_feed c n ev v t n).mpr (.inl hc)
  refine hs.tallied ((h.tallied n).mono hmono) ?_ ?_
  · intro t hmem
    rw [h.id n] at hmem ⊢
    refine (cast_feed c n ev n t n).mpr (.inr ⟨rfl, ?_⟩)
    rw [hout, ballots_append]
    exact List.mem_append_left _ hmem
  · intro src term he
    exact hmono _ _ (hev src term he)

theorem BallotInv.feed (h : BallotInv c) (n : NodeId) {ev : Event}
    (hev : ∀ src term, ev = .vote src term true → c.Cast src term n) : BallotInv (c.feed n ev) := by
  have hsteps := step_steps (c.nodes n).sm ev
  constructor
  · intro m
    by_cases hm : m = n
    · subst hm
      rw [feed_nodes_self, Node.feed_sm, hsteps.id_eq, h.id]
    · rw [feed_nodes_ne c hm]
      exact h.id m
  · intro m
    have hcast : ∀ {t x}, (c.feed n ev).Cast m t x ↔
        c.Cast m t x ∨ (m = n ∧ (t, x) ∈ ballots ((c.nodes n).sm.step ev).2) := cast_feed c n ev m _ _
    by_cases hm : m = n
    · subst hm
      have heq : (c.feed m ev).Cast m = addBallots (c.Cast m) (ballots ((c.nodes m).sm.step ev).2) := by
        funext t x
        rw [eq_iff_iff, hcast, addBallots]
        tauto
      rw [feed_nodes_self, Node.feed_sm, Node.feed_vote, heq]
      exact hsteps.voted (h.voted m)
    · have heq : (c.feed n ev).Cast m = c.Cast m := by
        funext t x
        rw [eq_iff_iff, hcast]
        tauto
      rw [feed_nodes_ne c hm, heq]
      exact h.voted m
  · intro m
    by_cases hm : m = n
    · subst hm
      rw [feed_nodes_self, Node.feed_sm]
      exact h.tallied_feed m hev hsteps (List.append_nil _).symm
    · rw [feed_nodes_ne c hm]
      exact (h.tallied m).mono fun v t hc => (cast_feed c n ev v t m).mpr (.inl hc)
  · intro m hr
    by_cases hm : m = n
    · subst hm
      rw [feed_nodes_self, Node.feed_sm] at hr ⊢
      rcases hsteps.leads hr with ⟨hold, hterm⟩ | ⟨term, base, hmem⟩
      · obtain ⟨r, hmem, h1, h2⟩ := h.leads m hold
        exact ⟨r, List.mem_append_right _ hmem, h1, h2.trans hterm.symm⟩
      · rcases reignsOf_step m (c.nodes m).sm ev with hnil | ⟨s1, out, hvic, hone⟩
        · have hadded : (⟨term, m, ((c.nodes m).sm.step ev).1.members, base,
              ((c.nodes m).sm.step ev).1.termMap⟩ : Reign) ∈
              reignsOf m ((c.nodes m).sm.step ev).1 ((c.nodes m).sm.step ev).2 :=
            List.mem_filterMap.mpr ⟨_, hmem, rfl⟩
          rw [hnil] at hadded
          cases hadded
        · refine ⟨⟨s1.currentTerm, m, (c.nodes m).sm.members, (c.nodes m).sm.durable,
            s1.becomeLeader.1.termMap⟩, List.mem_append_left _ ?_, rfl, ?_⟩
          · rw [hone]
            exact List.mem_singleton_self _
          · rw [hvic.eq]
            rfl
    · rw [feed_nodes_ne c hm] at hr ⊢
      obtain ⟨r, hmem, h1, h2⟩ := h.leads m hr
      exact ⟨r, List.mem_append_right _ hmem, h1, h2⟩
  · intro r hr hself
    rcases List.mem_append.mp hr with hnew | hold
    · rcases reignsOf_step n (c.nodes n).sm ev with hnil | ⟨s1, out, hvic, hone⟩
      · rw [hnil] at hnew
        cases hnew
      · rw [hone, List.mem_singleton] at hnew
        subst hnew
        refine backed_of_tally (s := s1) ?_ hvic.candidate rfl hvic.members.symm ?_ hvic.majority
          hself
        · exact h.tallied_feed n hev hvic.steps (congrArg Prod.snd hvic.eq)
        · rw [hvic.steps.id_eq, h.id]
    · exact (h.backed r hold hself).feed n ev

theorem BallotInv.restart (h : BallotInv c) (n : NodeId) (map : TermMap) (durable nowNs : ℕ)
    (seed : UInt64) :
    BallotInv { c with nodes := c.setNode n ((c.nodes n).boot map durable nowNs seed) } := by
  have hboot : (c.nodes n).boot map durable nowNs seed = c.nodes n ∨
      ∃ sm, (c.nodes n).boot map durable nowNs seed = { c.nodes n with sm, map } ∧ sm.id = n ∧
        sm.votedFor = (c.nodes n).vote ∧ sm.votesReceived = [] ∧ sm.role = .follower ∧
        ((c.nodes n).vote.map Prod.fst).getD 0 ≤ sm.currentTerm := by
    unfold Node.boot
    split_ifs
    · exact .inl rfl
    dsimp only
    split
    · rename_i sm hnew
      obtain ⟨hid, hv, -, -, hr, -, -, ht⟩ := new_recovers hnew
      refine .inr ⟨_, rfl, hid.trans (h.id n), hv, hr, (new_bootState hnew).role, ?_⟩
      exact (le_max_left _ _).trans ht.ge
    · exact .inl rfl
  have hne : ∀ {m}, m ≠ n → c.setNode n ((c.nodes n).boot map durable nowNs seed) m = c.nodes m :=
    fun hm => if_neg hm
  have hself : c.setNode n ((c.nodes n).boot map durable nowNs seed) n =
      (c.nodes n).boot map durable nowNs seed := if_pos rfl
  rcases hboot with hsame | ⟨sm, heq, hid, hv, hr, hrole, ht⟩
  · have hnodes : c.setNode n ((c.nodes n).boot map durable nowNs seed) = c.nodes := by
      funext m
      by_cases hm : m = n
      · rw [hm, hself, hsame]
      · exact hne hm
    rw [hnodes]
    exact h
  constructor
  · intro m
    by_cases hm : m = n
    · subst hm
      dsimp only
      rw [hself, heq]
      exact hid
    · dsimp only
      rw [hne hm]
      exact h.id m
  · intro m
    by_cases hm : m = n
    · subst hm
      dsimp only
      rw [hself, heq]
      exact (h.voted m).boot hv ht
    · dsimp only
      rw [hne hm]
      exact h.voted m
  · intro m
    by_cases hm : m = n
    · subst hm
      dsimp only
      rw [hself, heq]
      exact tallied_of_nil hr
    · dsimp only
      rw [hne hm]
      exact h.tallied m
  · intro m hlead
    by_cases hm : m = n
    · subst hm
      dsimp only at hlead
      rw [hself, heq, hrole] at hlead
      cases hlead
    · dsimp only at hlead ⊢
      rw [hne hm] at hlead ⊢
      exact h.leads m hlead
  · exact h.backed

theorem BallotInv.exec (h : BallotInv c) {st : Step} (hp : c.Possible st) :
    BallotInv (c.exec st) := by
  cases st with
  | event n ev =>
    refine h.feed n ?_
    rintro src term rfl
    obtain ⟨-, e, he, hn, ha⟩ := hp
    exact ⟨e, he, hn, by rw [ha]; rfl⟩
  | report n durable => exact ⟨h.id, h.voted, h.tallied, h.leads, h.backed⟩
  | propose n op slack position =>
    dsimp only [Cluster.exec]
    split
    · rename_i config _
      have hchange : BallotInv { c with
          frames := (position, config) :: c.frames
          changes := ⟨(c.nodes n).sm.currentTerm, (c.nodes n).sm.config, config⟩ :: c.changes } :=
        ⟨h.id, h.voted, h.tallied, h.leads, h.backed⟩
      exact hchange.feed n (by rintro src term ⟨⟩)
    · exact h
  | restart n map durable nowNs seed => exact h.restart n map durable nowNs seed

theorem Genesis.ballotInv {genesis : ClusterConfig} (h : Genesis genesis c) : BallotInv c := by
  have hno : ∀ {v t x}, ¬ c.Cast v t x := by
    rintro v t x ⟨e, he, -⟩
    rw [h.emitted] at he
    cases he
  constructor
  · intro n
    obtain ⟨cfg, nowNs, hid, -, -, hnew⟩ := h.booted n
    exact (new_recovers hnew).1.trans hid
  · intro n
    obtain ⟨cfg, nowNs, -, -, -, hnew⟩ := h.booted n
    have hv := (new_recovers hnew).2.1
    refine ⟨fun hx => absurd hx hno, fun hx => absurd hx hno, fun hx => absurd hx hno, ?_,
      fun hx => absurd hx hno, ?_⟩
    · intro t x hx
      rw [hv] at hx
      cases hx
    · intro t x hx
      rw [h.vote n] at hx
      cases hx
  · intro n
    obtain ⟨cfg, nowNs, -, -, -, hnew⟩ := h.booted n
    exact tallied_of_nil (new_recovers hnew).2.2.2.2.1
  · intro n hr
    obtain ⟨cfg, nowNs, -, -, -, hnew⟩ := h.booted n
    rw [(new_bootState hnew).role] at hr
    cases hr
  · intro r hr
    rw [h.reigns] at hr
    cases hr

/-! ## One leader per term -/

/-- The newest change among those of the greatest term below `term`. -/
def newestBelow (term : ℕ) : List Change → Option Change
  | [] => none
  | q :: qs =>
    if q.term < term ∧ (newestBelow term qs).all (·.term ≤ q.term) then some q
    else newestBelow term qs

/-- The voters of the config over which the newest change of the lower terms was
    proposed, and those of that change; without such a change, those of genesis. -/
def electorates (genesis : ClusterConfig) (changes : List Change) (term : ℕ) : List (List NodeId) :=
  match newestBelow term changes with
  | none => [genesis.voterIds]
  | some q => [q.base.voterIds, q.next.voterIds]

/-- The change that `n` would propose. -/
def proposal (c : Cluster) (n : NodeId) (op : ConfigOp) (slack : ℕ) : Option Change :=
  ((c.nodes n).sm.proposeConfig op slack).toOption.map fun config =>
    ⟨(c.nodes n).sm.currentTerm, (c.nodes n).sm.config, config⟩

/-- A node that wins is a voter of the config it has adopted, which lags behind the
    changes of lower terms by the newest of them at most; and no leader proposes a
    change that leaves a winner of a higher term further behind. -/
def WinsUpToDate (genesis : ClusterConfig) (c : Cluster) : Step → Prop
  | .event n ev => (c.nodes n).sm.WinsOn ev → n ∈ (c.nodes n).sm.members ∧
      (c.nodes n).sm.members ∈ electorates genesis c.changes ((c.nodes n).sm.wonTerm ev)
  | .propose n op slack _ => ∀ q ∈ c.proposal n op slack, ∀ r ∈ c.reigns,
      r.voters ∈ electorates genesis (q :: c.changes) r.term
  | _ => True

instance (genesis : ClusterConfig) (c : Cluster) : (st : Step) →
    Decidable (c.WinsUpToDate genesis st)
  | .event _ _ => inferInstanceAs (Decidable (_ → _ ∧ _))
  | .report _ _ => .isTrue trivial
  | .propose n op slack _ => inferInstanceAs (Decidable (∀ q ∈ c.proposal n op slack, _))
  | .restart _ _ _ _ _ => .isTrue trivial

theorem newestBelow_mem {term : ℕ} {qs : List Change} {q : Change}
    (h : newestBelow term qs = some q) : q ∈ qs := by
  induction qs with
  | nil => cases h
  | cons q' qs ih =>
    rw [newestBelow] at h
    split_ifs at h
    · cases h
      exact List.mem_cons_self
    · exact List.mem_cons_of_mem _ (ih h)

/-- Both are the voters of an end of one change, so that they are neighbours. -/
theorem electorates_adjacent {genesis : ClusterConfig} {qs : List Change} {term : ℕ}
    {vs vs' : List NodeId} (happlied : ∀ q ∈ qs, ∃ op, q.base.apply op = .ok q.next)
    (h : vs ∈ electorates genesis qs term) (h' : vs' ∈ electorates genesis qs term) :
    Quorum.Adjacent vs.toFinset vs'.toFinset := by
  unfold electorates at h h'
  cases hq : newestBelow term qs with
  | none =>
    rw [hq, List.mem_singleton] at h h'
    exact .same (by rw [h, h'])
  | some q =>
    obtain ⟨op, hop⟩ := happlied q (newestBelow_mem hq)
    have hadj := ClusterConfig.apply_adjacent hop
    rw [hq, List.mem_pair] at h h'
    rcases h with rfl | rfl <;> rcases h' with rfl | rfl
    · exact .same rfl
    · exact hadj
    · exact hadj.symm
    · exact .same rfl

theorem apply_of_propose {s : ElectionSm} {op : ConfigOp} {slack : ℕ} {config : ClusterConfig}
    (h : s.proposeConfig op slack = .ok config) : s.config.apply op = .ok config := by
  unfold proposeConfig at h
  split_ifs at h
  split at h
  · dsimp only at h
    split_ifs at h
    exact h
  · exact h

/-- The reigns count as the condition says. -/
structure ElectionInv (genesis : ClusterConfig) (c : Cluster) : Prop extends BallotInv c where
  voter : ∀ r ∈ c.reigns, r.leader ∈ r.voters
  applied : ∀ q ∈ c.changes, ∃ op, q.base.apply op = .ok q.next
  upToDate : ∀ r ∈ c.reigns, r.voters ∈ electorates genesis c.changes r.term
  unique : ∀ r ∈ c.reigns, ∀ r' ∈ c.reigns, r.term = r'.term → r.leader = r'.leader

/-- Two majorities of neighbouring voter sets share a voter, who voted once. -/
theorem BallotInv.leader_eq (h : BallotInv c) {r r' : Reign} (hr : c.Backed r) (hr' : c.Backed r')
    (hadj : Quorum.Adjacent r.voters.toFinset r'.voters.toFinset) (ht : r.term = r'.term) :
    r.leader = r'.leader := by
  obtain ⟨Q, hsub, hcard, hcast⟩ := hr
  obtain ⟨Q', hsub', hcard', hcast'⟩ := hr'
  obtain ⟨v, hv, hv'⟩ := Quorum.majorities_meet hadj hsub hsub' hcard hcard'
  have h1 := hcast v hv
  rw [ht] at h1
  exact (h.voted v).unique h1 (hcast' v hv')

variable {genesis : ClusterConfig}

theorem ElectionInv.feed (h : ElectionInv genesis c) {n : NodeId} {ev : Event}
    (hb : BallotInv (c.feed n ev)) (hC : c.WinsUpToDate genesis (.event n ev)) :
    ElectionInv genesis (c.feed n ev) := by
  have hreigns : (c.feed n ev).reigns =
      reignsOf n ((c.nodes n).sm.step ev).1 ((c.nodes n).sm.step ev).2 ++ c.reigns := rfl
  rcases reignsOf_step n (c.nodes n).sm ev with hnil | ⟨s1, out, hvic, hone⟩
  · rw [hnil, List.nil_append] at hreigns
    refine ⟨hb, ?_, h.applied, ?_, ?_⟩
    · rw [hreigns]
      exact h.voter
    · rw [hreigns]
      exact h.upToDate
    · rw [hreigns]
      exact h.unique
  · rw [hone, List.singleton_append] at hreigns
    obtain ⟨hself, hdate⟩ := hC hvic.winsOn
    rw [← hvic.term] at hdate
    -- the new reign against an older one of the same term
    have hnew : ∀ r ∈ c.reigns, r.term = s1.currentTerm → r.leader = n := by
      intro r hr ht
      have hback := hb.backed _ (by rw [hreigns]; exact List.mem_cons_self) hself
      have hadj := electorates_adjacent h.applied (ht ▸ h.upToDate r hr) hdate
      exact hb.leader_eq ((h.backed r hr (h.voter r hr)).feed n ev) hback hadj ht
    refine ⟨hb, ?_, h.applied, ?_, ?_⟩
    · rw [hreigns]
      exact List.forall_mem_cons.mpr ⟨hself, h.voter⟩
    · rw [hreigns]
      exact List.forall_mem_cons.mpr ⟨hdate, h.upToDate⟩
    · rw [hreigns]
      intro r hr r' hr' ht
      rcases List.mem_cons.mp hr with rfl | hr <;> rcases List.mem_cons.mp hr' with rfl | hr'
      · rfl
      · exact (hnew r' hr' ht.symm).symm
      · exact hnew r hr ht
      · exact h.unique r hr r' hr' ht

theorem ElectionInv.exec (h : ElectionInv genesis c) {st : Step} (hp : c.Possible st)
    (hC : c.WinsUpToDate genesis st) : ElectionInv genesis (c.exec st) := by
  have hb : BallotInv (c.exec st) := h.toBallotInv.exec hp
  cases st with
  | event n ev => exact h.feed hb hC
  | report n durable => exact ⟨hb, h.voter, h.applied, h.upToDate, h.unique⟩
  | propose n op slack position =>
    dsimp only [Cluster.exec] at hb ⊢
    split at hb
    · rename_i config hok
      have hq : (⟨(c.nodes n).sm.currentTerm, (c.nodes n).sm.config, config⟩ : Change) ∈
          c.proposal n op slack := by
        simp [proposal, hok, Except.toOption]
      have hchange : ElectionInv genesis { c with
          frames := (position, config) :: c.frames
          changes := ⟨(c.nodes n).sm.currentTerm, (c.nodes n).sm.config, config⟩ :: c.changes } :=
        ⟨⟨h.id, h.voted, h.tallied, h.leads, h.backed⟩, h.voter,
          List.forall_mem_cons.mpr ⟨⟨op, apply_of_propose hok⟩, h.applied⟩, hC _ hq, h.unique⟩
      exact hchange.feed hb fun hw => hw.elim
    · exact h
  | restart n map durable nowNs seed => exact ⟨hb, h.voter, h.applied, h.upToDate, h.unique⟩

/-- Whatever the configs and the crashes, a node stores one vote in a term at most, of no
    term above its own; and a winner among the voters that it counted over had the votes of
    a majority of them. -/
theorem one_vote_per_term {genesis : ClusterConfig} {c : Cluster} (h0 : Genesis genesis c)
    {sts : List Step} (hrun : Runs (fun _ _ => True) c sts) :
    (∀ v t x y, (c.run sts).Cast v t x → (c.run sts).Cast v t y → x = y) ∧
      (∀ v t x, (c.run sts).Cast v t x → t ≤ ((c.run sts).nodes v).sm.currentTerm) ∧
      ∀ r ∈ (c.run sts).reigns, r.leader ∈ r.voters → (c.run sts).Backed r := by
  have hinv : BallotInv (c.run sts) := hrun.invariant h0.ballotInv fun c st h hp _ => h.exec hp
  exact ⟨fun v t x y hx hy => (hinv.voted v).unique hx hy, fun v t x hx => (hinv.voted v).bound hx,
    hinv.backed⟩

/-- The fresh cluster of nodes that start with the given voters. -/
def fresh (voters : List NodeId) : Cluster where
  nodes n := {
    sm := genesisNode n voters none [] 0
    vote := none
    map := []
    record := .seed (.genesis (voters.map fun v => (v, 0, v)) []) }
  emitted := []
  reports := []
  frames := []
  changes := []
  reigns := []

theorem fresh_genesis (v : NodeId) (voters : List NodeId) :
    Genesis (.genesis ((v :: voters).map fun v => (v, 0, v)) []) (fresh (v :: voters)) where
  booted n := ⟨_, 0, rfl, rfl, rfl, genesisNode_new n v voters none [] 0⟩
  vote _ := rfl
  map _ := rfl
  record _ := rfl
  emitted := rfl
  reports := rfl
  frames := rfl
  changes := rfl
  reigns := rfl

/-- Node 2 of four voters leads term 1 and commits there with nodes 1 and 3;
    node 4 holds no byte. -/
def servingLeader : List Step :=
  [.event 2 (.tick 20),
    .event 3 (.requestVote 2 1 0 0),
    .event 4 (.requestVote 2 1 0 0),
    .event 1 (.requestVote 2 1 0 0),
    .event 2 (.vote 3 1 true),
    .event 2 (.vote 4 1 true),
    .event 2 (.newTermAppended 1),
    .event 2 (.durableAdvanced 1),
    .event 3 (.dataTermObserved 1 0),
    .event 3 (.durableAdvanced 1),
    .event 3 (.termMapReceived 1 [(1, 0)]),
    .report 3 1,
    .event 1 (.dataTermObserved 1 0),
    .event 1 (.durableAdvanced 1),
    .event 1 (.termMapReceived 1 [(1, 0)]),
    .report 1 1,
    .event 2 (.report 3 1 1 1),
    .event 2 (.report 1 1 1 1)]

/-- The config after node 1 is demoted to a learner. -/
def withoutOne : ClusterConfig :=
  { version := 1, voters := [(2, 0, 2), (3, 0, 3), (4, 0, 4)], learners := [(1, 0, 1)]
    tombstones := [] }

/-- Node 2 proposes to demote node 1; nodes 1 to 3 hold the frame. -/
def demoteOne : List Step :=
  [.propose 2 (.demoteVoter 1) 0 2,
    .event 2 (.durableAdvanced 2),
    .event 3 (.durableAdvanced 2),
    .event 1 (.durableAdvanced 2)]

/-- Node 3 observes the demotion, and wins term 2 with node 2's vote. -/
def electThree : List Step :=
  [.event 3 (.configObserved 2 withoutOne),
    .event 3 (.tick 20),
    .event 3 (.tick 40),
    .event 2 (.requestVote 3 2 1 2),
    .event 3 (.vote 2 2 true)]

/-- Node 1 stands for term 2 before it observes its demotion: it keeps its own
    grant, and node 4's is enough. -/
def electOne : List Step :=
  [.event 1 (.tick 20),
    .event 1 (.tick 40),
    .event 1 (.configObserved 2 withoutOne),
    .event 4 (.requestVote 1 2 1 2),
    .event 1 (.vote 4 2 true)]

/-- The bytes of node `n`, and its report to the leader of term 1. -/
def follow (n : NodeId) (durable : ℕ) : List Step :=
  [.event n (.durableAdvanced durable), .report n durable, .event 1 (.report n 1 durable 1)]

/-- Node 1 of five voters demotes 5, commits that with 2 and 3, and demotes 4. -/
def twoDemotions : List Step :=
  [.event 1 (.tick 20),
    .event 2 (.requestVote 1 1 0 0),
    .event 3 (.requestVote 1 1 0 0),
    .event 1 (.vote 2 1 true),
    .event 1 (.vote 3 1 true),
    .event 1 (.newTermAppended 1),
    .event 1 (.durableAdvanced 1),
    .event 2 (.dataTermObserved 1 0),
    .event 2 (.termMapReceived 1 [(1, 0)]),
    .event 3 (.dataTermObserved 1 0),
    .event 3 (.termMapReceived 1 [(1, 0)])] ++
  follow 2 1 ++ follow 3 1 ++
  [.propose 1 (.demoteVoter 5) 0 2, .event 1 (.durableAdvanced 2)] ++ follow 2 2 ++ follow 3 2 ++
  [.propose 1 (.demoteVoter 4) 0 3, .event 1 (.durableAdvanced 3)] ++ follow 2 3 ++ follow 3 3

/-- Node 2 observes the second change and wins with node 1; node 3 has observed none, and
    wins with the two that were demoted. -/
def electTwoAndThree : List Step :=
  [.event 2 (.configObserved 3 ⟨2, [(1, 0, 1), (2, 0, 2), (3, 0, 3)], [(5, 0, 5), (4, 0, 4)], []⟩),
    .event 2 (.tick 20),
    .event 2 (.tick 40),
    .event 1 (.requestVote 2 2 1 3),
    .event 2 (.vote 1 2 true),
    .event 3 (.tick 20),
    .event 3 (.tick 40),
    .event 4 (.requestVote 3 2 1 3),
    .event 5 (.requestVote 3 2 1 3),
    .event 3 (.vote 4 2 true),
    .event 3 (.vote 5 2 true)]

/-- It is not enough that winners are voters: node 3 holds the frames of two changes,
    counts over neither, and leads term 2 beside node 2. -/
theorem two_leaders_after_lag :
    let c := (fresh [1, 2, 3, 4, 5]).run (twoDemotions ++ electTwoAndThree)
    Runs (fun _ _ => True) (fresh [1, 2, 3, 4, 5]) (twoDemotions ++ electTwoAndThree) ∧
      (∀ r ∈ c.reigns, r.leader ∈ r.voters) ∧ (c.nodes 2).sm.role = .leader ∧
      (c.nodes 3).sm.role = .leader ∧ (c.nodes 2).sm.currentTerm = (c.nodes 3).sm.currentTerm := by
  decide +kernel

theorem one_vote_per_term_two_leaders :
    let c := (fresh [1, 2, 3, 4]).run (servingLeader ++ demoteOne ++ electThree ++ electOne)
    c.Cast 4 2 1 ∧ ¬ c.Cast 4 2 3 := by
  intro c
  have hone : c.Cast 4 2 1 := by
    unfold c Cast
    decide +kernel
  refine ⟨hone, fun hthree => ?_⟩
  have heq := (one_vote_per_term (fresh_genesis 1 [2, 3, 4]) (by decide +kernel)).1 4 2 1 3 hone hthree
  cases heq

end Cluster

end UltimaCluster
