/-
  The term map over whole runs of one node.

  Five writers edit the map.  Reconciliation and the matching ack only ever
  shorten it, `becomeLeader` prunes and pushes at our durable, an observation
  of data pushes what it is told, and a snapshot replaces the map.  The last
  three check less than well-formedness needs.
-/
import UltimaCluster.ReconcileSpec
import UltimaCluster.Run
import UltimaCluster.Trans
import UltimaCluster.Lib.Trace

namespace UltimaCluster

namespace TermMap

theorem WF.sublist {m n : TermMap} (h : m.WF) (hn : n.Sublist m) : n.WF :=
  ⟨h.terms.sublist hn, h.bases.sublist hn⟩

variable {m : TermMap}

theorem WF.append_singleton (h : m.WF) {e : ℕ × ℕ} (he : ∀ x ∈ m, x.1 < e.1 ∧ x.2 ≤ e.2) :
    TermMap.WF (m ++ [e]) := by
  constructor
  · rw [List.pairwise_append]
    exact ⟨h.terms, List.pairwise_singleton _ _, by simpa using fun a b hx => (he _ hx).1⟩
  · rw [List.pairwise_append]
    exact ⟨h.bases, List.pairwise_singleton _ _, by simpa using fun a b hx => (he _ hx).2⟩

theorem WF.le_lastTerm (h : m.WF) {e : ℕ × ℕ} (he : e ∈ m) : e.1 ≤ m.lastTerm := by
  unfold lastTerm
  rcases List.eq_nil_or_concat m with rfl | ⟨front, l, rfl⟩
  · cases he
  · rw [List.concat_eq_append] at h he ⊢
    simp only [List.getLast?_append, List.getLast?_singleton, Option.some_or, Option.map_some,
      Option.getD_some]
    rcases List.mem_snoc.mp he with he | rfl
    · exact ((List.pairwise_append.mp h.terms).2.2 e he l (by simp)).le
    · rfl

/-- Dropping the entries that start at `d` changes nothing below `d`. -/
theorem attr_rdropWhile {d p : ℕ} (hp : p < d) :
    attr (m.rdropWhile fun e => e.2 == d) p = m.attr p := by
  induction m using List.reverseRecOn with
  | nil => rfl
  | append_singleton m e ih =>
    by_cases he : e.2 = d
    · rw [List.rdropWhile_concat_pos _ _ _ (by simpa using he), ih]
      refine (Timeline.valueAt_append_of_lt ?_).symm
      intro x hx
      rw [List.mem_singleton.mp hx]
      omega
    · rw [List.rdropWhile_concat_neg _ _ _ (by simpa using he)]

theorem mem_rdropWhile_lt (h : m.WF) {d : ℕ} (hle : ∀ e ∈ m, e.2 ≤ d) {e : ℕ × ℕ}
    (he : e ∈ m.rdropWhile fun e => e.2 == d) : e ∈ m ∧ e.2 < d := by
  induction m using List.reverseRecOn with
  | nil => cases he
  | append_singleton m l ih =>
    by_cases hl : l.2 = d
    · rw [List.rdropWhile_concat_pos _ _ _ (by simpa using hl)] at he
      obtain ⟨hmem, hlt⟩ := ih (h.sublist (List.sublist_append_left _ _))
        (fun x hx => hle x (List.mem_append_left _ hx)) he
      exact ⟨List.mem_append_left _ hmem, hlt⟩
    · rw [List.rdropWhile_concat_neg _ _ _ (by simpa using hl)] at he
      refine ⟨he, ?_⟩
      have hlast : l.2 < d := lt_of_le_of_ne (hle l (by simp)) hl
      rcases List.mem_snoc.mp he with he | rfl
      · exact ((List.pairwise_append.mp h.bases).2.2 e he l (by simp)).trans_lt hlast
      · exact hlast

end TermMap

open TermMap

/-- The events that neither write the map nor end an election. -/
def Event.quiet : Event → Bool
  | .tick .. | .vote .. | .durableAdvanced .. | .termMapReceived .. | .dataTermObserved ..
  | .truncated .. => false
  | _ => true

/-- The two inputs that bring attribution from outside. -/
def Input.attributes : Input → Bool
  | .event (.dataTermObserved ..) | .snapshotLineage _ => true
  | _ => false

/-- Our map with what starts at or above `c` left out. -/
def CutsTo (own : TermMap) (c : ℕ) (m : TermMap) : Prop :=
  ∃ gone, own = m ++ gone ∧ ∀ e ∈ gone, c ≤ e.2

theorem CutsTo.sublist {own m : TermMap} {c : ℕ} (h : CutsTo own c m) : m.Sublist own := by
  obtain ⟨gone, rfl, -⟩ := h
  exact List.sublist_append_left _ _

theorem CutsTo.attr {own m : TermMap} {c : ℕ} (h : CutsTo own c m) {p : ℕ} (hp : p < c) :
    TermMap.attr m p = own.attr p := by
  obtain ⟨gone, rfl, hgone⟩ := h
  exact (Timeline.valueAt_append_of_lt fun e he => hp.trans_le (hgone e he)).symm

theorem cutsTo_filter {own : TermMap} (hown : own.WF) (c : ℕ) :
    CutsTo own c (own.filter fun e => e.2 < c) :=
  ⟨_, Timeline.filter_lt_append hown.bases c, fun e he => by simpa using (List.mem_filter.mp he).2⟩

/-- Reconciliation answers our own map, cut at `validUpTo`. -/
theorem reconcile_cutsTo {own leader : TermMap} {d : ℕ} {o : Outcome} (hown : own.WF)
    (h : reconcile own d leader = .ok o) : CutsTo own o.validUpTo o.newMap := by
  cases leader with
  | nil =>
    cases h
    exact ⟨[], (List.append_nil _).symm, by simp⟩
  | cons first window =>
    by_cases hmem : first ∈ own
    · obtain ⟨j, -, hrec⟩ := reconcile_of_mem hmem d window
      rw [hrec] at h
      cases h
      obtain ⟨common, rest, rest', h1, h2, h3, -⟩ := commonRun_spec (own.drop j) (first :: window)
      rw [reconcileAligned_eq d j h1 h2 h3]
      have hrest : rest.Pairwise fun a b => a.2 ≤ b.2 := by
        refine hown.bases.sublist ((List.sublist_append_right common rest).trans ?_)
        rw [← h1]
        exact List.drop_sublist j own
      refine ⟨rest.filter fun e => alignedCut d rest rest' ≤ e.2, ?_, ?_⟩
      · rw [List.append_assoc, List.append_assoc, ← Timeline.filter_lt_append hrest, ← h1,
          List.take_append_drop]
      · intro e he
        simpa using (List.mem_filter.mp he).2
    · rw [reconcile_of_not_mem hmem] at h
      unfold reconcileUnaligned at h
      split_ifs at h with _ hnil
      · cases h
        exact ⟨[], by rw [hnil]; rfl, by simp⟩
      · cases h
        exact cutsTo_filter hown _

namespace ElectionSm

/-! ## The condition -/

/-- The event is the vote, or the tick of a single voter, that wins the
    election. -/
def WinsOn (s : ElectionSm) : Event → Prop
  | .vote src term granted => granted ∧ term = s.currentTerm ∧ src ∈ s.members ∧
      s.role = .candidate ∧
      s.majority ≤ s.votesReceived.length + if src ∈ s.votesReceived then 0 else 1
  | .tick nowNs => s.truncatingEpoch = none ∧ s.role ≠ .leader ∧
      s.pendingLeaderActivity = false ∧ s.timeoutDeadlineNs ≤ nowNs ∧ s.canVote ∧ s.majority ≤ 1
  | _ => False

instance (s : ElectionSm) : (ev : Event) → Decidable (s.WinsOn ev)
  | .vote _ _ _ => inferInstanceAs (Decidable (_ ∧ _))
  | .tick _ => inferInstanceAs (Decidable (_ ∧ _))
  | .durableAdvanced _ | .leaderSeen _ | .report _ _ _ _ | .commitGossip _ _ | .requestVote _ _ _ _
  | .newTermAppended _ | .termMapReceived _ _ | .dataTermObserved _ _ | .truncated _ _
  | .configObserved _ _ => .isFalse False.elim

/-- The node is fed what its map can take.  `issued` are the truncations that
    it has asked for so far. -/
def MapFed (s : ElectionSm) (issued : List (ℕ × ℕ)) : Input → Prop
  | .event (.dataTermObserved term base) => s.truncatingEpoch = none → s.termMap.lastTerm < term →
      term ≤ s.currentTerm ∧ ∀ e ∈ s.termMap, e.2 ≤ base
  | .event (.truncated epoch target) => s.truncatingEpoch = some epoch →
      ∀ cut, (epoch, cut) ∈ issued → target ≤ cut
  | .event (.tick nowNs) => s.WinsOn (.tick nowNs) → ∀ e ∈ s.termMap, e.2 ≤ s.durable
  | .event (.vote src term granted) => s.WinsOn (.vote src term granted) →
      ∀ e ∈ s.termMap, e.2 ≤ s.durable ∧ (e.2 < s.durable → e.1 < s.currentTerm)
  | .snapshotLineage lineage => s.truncatingEpoch = none ∧ lineage.WF
  | _ => True

/-! ## The invariant -/

/-- What a node's term map keeps. -/
structure MapInv (s : ElectionSm) (issued : List (ℕ × ℕ)) : Prop where
  wf : s.termMap.WF
  bound : ∀ e ∈ s.termMap, e.1 ≤ s.currentTerm
  /-- The map that a pending truncation will leave is ours, cut. -/
  pending : ∀ epoch, s.truncatingEpoch = some epoch → ∃ cut m, (epoch, cut) ∈ issued ∧
    s.pendingNewMap = some m ∧ m.WF ∧ (∀ e ∈ m, e.1 ≤ s.currentTerm) ∧
    ∀ p < min cut s.durable, attr m p = s.termMap.attr p

/-- Two states with the same map, truncation and durable; the term may grow. -/
def SameMap (s s' : ElectionSm) : Prop :=
  s'.termMap = s.termMap ∧ s'.truncatingEpoch = s.truncatingEpoch ∧
    s'.pendingNewMap = s.pendingNewMap ∧ s'.durable = s.durable ∧ s.currentTerm ≤ s'.currentTerm

theorem SameMap.refl (s : ElectionSm) : SameMap s s := ⟨rfl, rfl, rfl, rfl, le_rfl⟩

theorem SameMap.trans {s s' s'' : ElectionSm} (h : SameMap s s') (h' : SameMap s' s'') :
    SameMap s s'' :=
  ⟨h'.1.trans h.1, h'.2.1.trans h.2.1, h'.2.2.1.trans h.2.2.1, h'.2.2.2.1.trans h.2.2.2.1,
    h.2.2.2.2.trans h'.2.2.2.2⟩

variable {s s' : ElectionSm}

theorem MapInv.frame {issued more : List (ℕ × ℕ)} (h : MapInv s issued) (hs : SameMap s s') :
    MapInv s' (issued ++ more) := by
  obtain ⟨h1, h2, h3, h4, h5⟩ := hs
  refine ⟨by rw [h1]; exact h.wf, ?_, ?_⟩
  · rw [h1]
    exact fun e he => (h.bound e he).trans h5
  · rw [h2, h3, h4, h1]
    intro epoch he
    obtain ⟨cut, m, hi, hp, hw, hb, ha⟩ := h.pending epoch he
    exact ⟨cut, m, List.mem_append_left _ hi, hp, hw, fun x hx => (hb x hx).trans h5, ha⟩

/-- A step keeps the invariant, and the attribution of every byte that stays
    durable. -/
structure Kept (s : ElectionSm) (issued : List (ℕ × ℕ)) (r : ElectionSm × List Action) : Prop where
  inv : MapInv r.1 (issued ++ truncates r.2)
  attr : ∀ p < min s.durable r.1.durable, r.1.termMap.attr p = s.termMap.attr p

variable {issued : List (ℕ × ℕ)}

theorem MapInv.kept (h : MapInv s issued) {r : ElectionSm × List Action} (hs : SameMap s r.1) :
    Kept s issued r :=
  ⟨h.frame hs, fun p _ => by rw [hs.1]⟩

theorem rankLeader_sameMap (nowNs : ℕ) (s : ElectionSm) : SameMap s (rankLeader nowNs s).1 := by
  rw [rankLeader_eq]
  exact ⟨rfl, rfl, rfl, rfl, le_rfl⟩

theorem Trans.sameMap {ev : Event} {out : List Action} (h : Trans ev s s' out) (hev : ev.quiet) :
    SameMap s s' := by
  cases h with
  | adopt term hlt _ => exact ⟨rfl, rfl, rfl, rfl, hlt.le⟩
  | candidacy _ h => subst h; cases hev
  | win h =>
    rcases h with ⟨_, rfl⟩ | ⟨_, rfl⟩ <;> cases hev
  | rank nowNs _ _ => exact rankLeader_sameMap nowNs s
  | gossip _ _ =>
    rw [advanceGossipCommit_eq]
    exact ⟨rfl, rfl, rfl, rfl, le_rfl⟩
  | finish _ h =>
    rcases h with ⟨_, _, rfl, _⟩ | ⟨_, _, rfl⟩ <;> cases hev
  | observeConfig position config _ _ =>
    rw [adoptConfig_eq]
    exact ⟨rfl, rfl, rfl, rfl, le_rfl⟩
  | durableAdvance _ h | cut _ _ h | wipe _ h | clean _ _ h | shrink _ _ h | observeTerm _ _ h
  | clamp _ _ h | settle _ _ h | revert _ _ h =>
    subst h
    cases hev
  | _ => exact ⟨rfl, rfl, rfl, rfl, le_rfl⟩

/-- Winning: the pruned entries start at our durable, and so does the new one. -/
theorem becomeLeader_kept (h : MapInv s issued)
    (hmap : ∀ e ∈ s.termMap, e.2 ≤ s.durable ∧ (e.2 < s.durable → e.1 < s.currentTerm)) :
    Kept s issued s.becomeLeader := by
  have hattr : ∀ p < s.durable, s.becomeLeader.1.termMap.attr p = s.termMap.attr p := by
    intro p hp
    have hpush : s.becomeLeader.1.termMap.attr p =
        attr (s.termMap.rdropWhile fun e => e.2 == s.durable) p := by
      refine Timeline.valueAt_append_of_lt ?_
      intro e he
      rw [List.mem_singleton.mp he]
      exact hp
    rw [hpush, attr_rdropWhile hp]
  have hlt : ∀ e ∈ s.termMap.rdropWhile (fun e => e.2 == s.durable),
      e ∈ s.termMap ∧ e.2 < s.durable :=
    fun e he => mem_rdropWhile_lt h.wf (fun x hx => (hmap x hx).1) he
  refine ⟨⟨?_, ?_, ?_⟩, ?_⟩
  · refine (h.wf.sublist (List.rdropWhile_prefix _ _).sublist).append_singleton ?_
    intro e he
    obtain ⟨hmem, hd⟩ := hlt e he
    exact ⟨(hmap e hmem).2 hd, hd.le⟩
  · intro e he
    rw [becomeLeader_frame] at he ⊢
    rcases List.mem_snoc.mp he with he | rfl
    · exact h.bound e (hlt e he).1
    · rfl
  · intro epoch hepoch
    obtain ⟨cut, m, hi, hp, hw, hb, ha⟩ := h.pending epoch hepoch
    refine ⟨cut, m, List.mem_append_left _ hi, hp, hw, hb, ?_⟩
    intro p hpm
    rw [ha p hpm]
    exact (hattr p (hpm.trans_le (min_le_right _ _))).symm
  · intro p hp
    exact hattr p (hp.trans_le (min_le_left _ _))

theorem Kept.of_sameMap {r : ElectionSm × List Action} (hs : SameMap s s') (h : Kept s' issued r) :
    Kept s issued r := by
  refine ⟨h.inv, ?_⟩
  intro p hp
  rw [← hs.1]
  exact h.attr p (by rw [hs.2.2.2.1]; exact hp)

theorem Kept.congr_out {out out' : List Action} (h : Kept s issued (s', out))
    (ho : truncates out' = truncates out) : Kept s issued (s', out') :=
  ⟨by rw [ho]; exact h.inv, h.attr⟩

theorem armTimeout_sameMap (nowNs : ℕ) (s : ElectionSm) : SameMap s (s.armTimeout nowNs) := by
  obtain ⟨r, d, h⟩ := armTimeout_frame s nowNs
  rw [h]
  exact ⟨rfl, rfl, rfl, rfl, le_rfl⟩

theorem startElection_kept (nowNs : ℕ) (h : MapInv s issued)
    (hwin : s.majority ≤ 1 → ∀ e ∈ s.termMap, e.2 ≤ s.durable) :
    Kept s issued (startElection nowNs s) := by
  -- the candidate: only the term has moved
  obtain ⟨r, d, harm⟩ := armTimeout_frame { s with
    currentTerm := s.currentTerm + 1, role := .candidate, serving := false
    newTermPos := none, votedFor := some (s.currentTerm + 1, s.id), votesReceived := [s.id] } nowNs
  unfold startElection
  dsimp only
  rw [harm]
  set c : ElectionSm := { s with
    currentTerm := s.currentTerm + 1, role := .candidate, serving := false
    newTermPos := none, votedFor := some (s.currentTerm + 1, s.id), votesReceived := [s.id]
    rng := r, timeoutDeadlineNs := d, pendingLeaderActivity := false } with hc
  have hsame : SameMap s c := ⟨rfl, rfl, rfl, rfl, Nat.le_succ _⟩
  have hinv : MapInv c issued := by
    have hframe : MapInv c (issued ++ []) := h.frame hsame
    rwa [List.append_nil] at hframe
  by_cases hmaj : c.majority ≤ c.votesReceived.length
  · have hk : Kept c issued c.becomeLeader := by
      refine becomeLeader_kept hinv ?_
      intro e he
      exact ⟨hwin hmaj e he, fun _ => Nat.lt_succ_of_le (h.bound e he)⟩
    have hk' := hk.of_sameMap hsame
    unfold andThen
    dsimp only
    rw [if_pos hmaj]
    exact hk'.congr_out rfl
  · unfold andThen
    dsimp only
    rw [if_neg hmaj]
    exact h.kept hsame

theorem onTick_kept (nowNs : ℕ) (h : MapInv s issued) (hnt : s.truncatingEpoch = none)
    (hwin : s.WinsOn (.tick nowNs) → ∀ e ∈ s.termMap, e.2 ≤ s.durable) :
    Kept s issued (onTick nowNs s) := by
  by_cases hl : s.role = .leader
  · rw [onTick_leader nowNs hl]
    refine h.kept ?_
    have hrank := rankLeader_sameMap nowNs { s with lastTickNs := nowNs }
    rw [andThen_fst]
    split <;> exact ⟨hrank.1, hrank.2.1, hrank.2.2.1, hrank.2.2.2.1, hrank.2.2.2.2⟩
  · have hidle : onTick nowNs s = onIdleTick nowNs { s with lastTickNs := nowNs } := by
      unfold onTick
      dsimp only
      split
      · exact absurd ‹_› hl
      · rfl
      · rfl
    have hs : SameMap s { s with lastTickNs := nowNs } := ⟨rfl, rfl, rfl, rfl, le_rfl⟩
    have hinv : MapInv { s with lastTickNs := nowNs } issued := ⟨h.wf, h.bound, h.pending⟩
    rw [hidle]
    refine Kept.of_sameMap hs ?_
    unfold onIdleTick
    split_ifs with h1 h2 h3
    · exact hinv.kept (armTimeout_sameMap nowNs { s with
        lastTickNs := nowNs, pendingLeaderActivity := false })
    · refine startElection_kept nowNs hinv ?_
      intro hmaj
      exact hwin ⟨hnt, hl, by simpa using h1, h2, h3, hmaj⟩
    · exact hinv.kept (armTimeout_sameMap nowNs _)
    · exact hinv.kept (SameMap.refl _)

theorem onVote_kept (src : NodeId) (granted : Bool) (h : MapInv s issued)
    (hwin : s.WinsOn (.vote src s.currentTerm granted) →
      ∀ e ∈ s.termMap, e.2 ≤ s.durable ∧ (e.2 < s.durable → e.1 < s.currentTerm)) :
    Kept s issued (onVote src granted s) := by
  unfold onVote
  split
  · exact h.kept (SameMap.refl s)
  · rename_i hm
    split
    · rename_i hg
      obtain ⟨vr, hvr, hlen⟩ : ∃ vr, (if s.votesReceived.contains src then s
          else { s with votesReceived := s.votesReceived ++ [src] }) =
          { s with votesReceived := vr } ∧
          vr.length = s.votesReceived.length + if src ∈ s.votesReceived then 0 else 1 := by
        by_cases hc : src ∈ s.votesReceived
        · exact ⟨s.votesReceived, by simp [hc], by simp [hc]⟩
        · exact ⟨s.votesReceived ++ [src], by simp [hc], by simp [hc]⟩
      dsimp only
      rw [hvr]
      have hs : SameMap s { s with votesReceived := vr } := ⟨rfl, rfl, rfl, rfl, le_rfl⟩
      split
      · rename_i hmaj
        refine Kept.of_sameMap hs (becomeLeader_kept ⟨h.wf, h.bound, h.pending⟩ ?_)
        refine hwin ⟨hg.1, rfl, by simpa using hm, hg.2, ?_⟩
        rw [← hlen]
        exact hmaj
      · exact h.kept hs
    · exact h.kept (SameMap.refl s)

theorem MapInv.of_idle (hnt : s.truncatingEpoch = none) (hwf : s.termMap.WF)
    (hb : ∀ e ∈ s.termMap, e.1 ≤ s.currentTerm) (issued : List (ℕ × ℕ)) : MapInv s issued := by
  refine ⟨hwf, hb, ?_⟩
  intro epoch he
  rw [hnt] at he
  cases he

theorem onDurableAdvanced_kept (durable : ℕ) (h : MapInv s issued) (hnt : s.truncatingEpoch = none) :
    Kept s issued (onDurableAdvanced durable s, []) := by
  unfold onDurableAdvanced
  dsimp only
  split
  all_goals
    refine ⟨.of_idle ?_ ?_ ?_ _, fun _ _ => rfl⟩
    · exact hnt
    · exact h.wf
    · exact h.bound

theorem onDataTermObserved_inv (term base : ℕ) (h : MapInv s issued)
    (hnt : s.truncatingEpoch = none)
    (hfed : s.termMap.lastTerm < term → term ≤ s.currentTerm ∧ ∀ e ∈ s.termMap, e.2 ≤ base) :
    MapInv (onDataTermObserved term base s).1 issued := by
  unfold onDataTermObserved
  split
  · rename_i hlt
    obtain ⟨hterm, hbase⟩ := hfed hlt
    refine .of_idle ?_ ?_ ?_ _
    · exact hnt
    · refine h.wf.append_singleton ?_
      intro e he
      exact ⟨(h.wf.le_lastTerm he).trans_lt hlt, hbase e he⟩
    · refine List.forall_mem_snoc h.bound ?_
      exact hterm
  · exact h

theorem reconcileTermMap_kept (entries : TermMap) (h : MapInv s issued)
    (hnt : s.truncatingEpoch = none) : Kept s issued (reconcileTermMap entries s) := by
  cases hrec : reconcile s.termMap s.durable entries with
  | noCommonPrefix =>
    simp only [reconcileTermMap, hrec]
    split
    · -- a wipe leaves nothing to attribute
      refine ⟨⟨h.wf, h.bound, ?_⟩, fun _ _ => rfl⟩
      intro epoch he
      cases he
      refine ⟨0, [], List.mem_append_right _ ?_, rfl, ⟨.nil, .nil⟩, by simp, by simp⟩
      simp [truncates, issueTruncate]
    · exact h.kept (SameMap.refl s)
  | ok o =>
    have hcut := reconcile_cutsTo h.wf hrec
    have hwf := h.wf.sublist hcut.sublist
    have hb : ∀ e ∈ o.newMap, e.1 ≤ s.currentTerm := fun e he => h.bound e (hcut.sublist.mem he)
    by_cases hlt : o.validUpTo < s.durable
    · simp only [reconcileTermMap, hrec, hlt, if_true]
      refine ⟨⟨h.wf, h.bound, ?_⟩, fun _ _ => rfl⟩
      intro epoch he
      cases he
      refine ⟨o.validUpTo, o.newMap, List.mem_append_right _ ?_, rfl, hwf, hb, ?_⟩
      · simp [truncates, issueTruncate]
      · intro p hp
        exact hcut.attr (hp.trans_le (min_le_left _ _))
    · obtain ⟨c, src, hclean⟩ := reconcileTermMap_clean s hrec (not_lt.mp hlt)
      refine ⟨.of_idle ?_ ?_ ?_ _, ?_⟩
      · rw [hclean]
        exact hnt
      · rw [hclean]
        exact hwf
      · rw [hclean]
        exact hb
      · rw [hclean]
        intro p hp
        refine hcut.attr ?_
        dsimp only at hp
        omega

theorem onTruncated_kept (epoch target : ℕ) (h : MapInv s issued)
    (hack : s.truncatingEpoch = some epoch → ∀ cut, (epoch, cut) ∈ issued → target ≤ cut) :
    Kept s issued (onTruncated epoch target s) := by
  by_cases hmatch : s.truncatingEpoch = some epoch
  · obtain ⟨c, src, -, heq⟩ := onTruncated_matching s target hmatch
    obtain ⟨_, _, _, _, _, _, _, _, _, hr⟩ := revertConfig_frame { s with
      durable := min s.durable target
      termMap := s.pendingNewMap.getD s.termMap, pendingNewMap := none, truncatingEpoch := none
      awaitingReconcile := false, commitSeen := c, commitSource := src } target
    obtain ⟨cut, m, hi, hp, hw, hb, ha⟩ := h.pending epoch hmatch
    have hmap : (onTruncated epoch target s).1.termMap = m := by
      rw [heq, hr, hp]
      rfl
    have hdur := onTruncated_durable s epoch target
    refine ⟨.of_idle ?_ ?_ ?_ _, ?_⟩
    · rw [heq, hr]
    · rw [hmap]
      exact hw
    · rw [hmap, onTruncated_currentTerm]
      exact hb
    · intro p hlt
      rw [hmap]
      refine ha p ?_
      have := hack hmatch cut hi
      rw [hdur] at hlt
      omega
  · rw [onTruncated_stale s target hmatch]
    refine ⟨⟨h.wf, h.bound, ?_⟩, fun _ _ => rfl⟩
    intro e he
    obtain ⟨cut, m, hi, hp, hw, hb, ha⟩ := h.pending e he
    refine ⟨cut, m, List.mem_append_left _ hi, hp, hw, hb, ?_⟩
    intro p hlt
    refine ha p ?_
    dsimp only at hlt
    omega

/-! ## One step -/

theorem adoptIfHigher_sameMap (term : ℕ) (s : ElectionSm) : SameMap s (adoptIfHigher term s).1 := by
  unfold adoptIfHigher
  split
  · exact ⟨rfl, rfl, rfl, rfl, (‹s.currentTerm < term›).le⟩
  · exact SameMap.refl s

theorem truncates_adoptIfHigher (term : ℕ) (s : ElectionSm) :
    truncates (adoptIfHigher term s).2 = [] := by
  unfold adoptIfHigher adoptTerm haltIfRemovedFollower
  dsimp only [andThen]
  split_ifs <;> rfl

theorem onTermMapReceived_kept (term : ℕ) (entries : TermMap) (h : MapInv s issued)
    (hnt : s.truncatingEpoch = none) :
    Kept s issued (andThen (adoptIfHigher term s) (reconcileTermMap entries)) := by
  have hs := adoptIfHigher_sameMap term s
  have hinv : MapInv (adoptIfHigher term s).1 issued := by
    have hframe : MapInv (adoptIfHigher term s).1 (issued ++ []) := h.frame hs
    rwa [List.append_nil] at hframe
  have hk := reconcileTermMap_kept entries hinv (by rw [adoptIfHigher_truncatingEpoch, hnt])
  refine (hk.of_sameMap hs).congr_out ?_
  unfold truncates
  rw [List.filterMap_append]
  exact congrArg (· ++ _) (truncates_adoptIfHigher term s)

theorem step_kept_of_quiet {ev : Event} (h : MapInv s issued) (hev : ev.quiet) :
    Kept s issued (s.step ev) := by
  refine h.kept ?_
  refine (step_steps s ev).invariant (P := SameMap s) ?_ (SameMap.refl s)
  intro s1 s2 out ht h1
  exact h1.trans (ht.sameMap hev)

theorem step_kept {ev : Event} (h : MapInv s issued) (hfed : MapFed s issued (.event ev))
    (hev : (Input.event ev).attributes = false) : Kept s issued (s.step ev) := by
  by_cases hq : ev.quiet
  · exact step_kept_of_quiet h hq
  unfold step
  split
  · exact h.kept (SameMap.refl s)
  · rename_i hl
    have hnt : ev.passesLatch = false → s.truncatingEpoch = none := by
      intro hp
      simpa [hp] using hl
    cases ev with
    | tick nowNs => exact onTick_kept nowNs h (hnt rfl) hfed
    | durableAdvanced durable => exact onDurableAdvanced_kept durable h (hnt rfl)
    | vote src term granted =>
      dsimp only [stepBody]
      split_ifs with h1 h2
      · exact h.kept (SameMap.refl s)
      · exact h.kept ⟨rfl, rfl, rfl, rfl, h2.le⟩
      · obtain rfl : s.currentTerm = term := by omega
        exact onVote_kept src granted h hfed
    | termMapReceived term entries =>
      dsimp only [stepBody]
      split
      · exact h.kept (SameMap.refl s)
      · exact onTermMapReceived_kept term entries h (hnt rfl)
    | truncated epoch target => exact onTruncated_kept epoch target h hfed
    | dataTermObserved term base => cases hev
    | _ => exact absurd rfl hq

theorem exec_kept {i : Input} (h : MapInv s issued) (hfed : MapFed s issued i)
    (hi : i.attributes = false) : Kept s issued (s.exec i) := by
  cases i with
  | event ev => exact step_kept h hfed hi
  | snapshotLineage lineage => cases hi
  | snapshotConfig position config =>
    obtain ⟨_, hr⟩ := rebuildMembership_frame { s with
      config, prevConfig := config, configPosition := position, prevPosition := position } false
    refine h.kept ?_
    dsimp only [exec, adoptSnapshotConfig]
    rw [hr]
    exact ⟨rfl, rfl, rfl, rfl, le_rfl⟩

theorem exec_mapInv {i : Input} (h : MapInv s issued) (hfed : MapFed s issued i) :
    MapInv (s.exec i).1 (issued ++ truncates (s.exec i).2) := by
  by_cases hi : i.attributes = false
  · exact (exec_kept h hfed hi).inv
  cases i with
  | event ev =>
    cases ev with
    | dataTermObserved term base =>
      dsimp only [exec]
      cases hnt : s.truncatingEpoch with
      | some epoch =>
        have hdrop : s.step (.dataTermObserved term base) = (s, []) := by
          simp [step, hnt, Event.passesLatch]
        rw [hdrop]
        exact h.frame (SameMap.refl s)
      | none =>
        rw [step_of_idle hnt]
        have hinv := onDataTermObserved_inv term base h hnt (hfed hnt)
        exact hinv.frame (SameMap.refl _)
    | _ => exact absurd rfl hi
  | snapshotLineage lineage =>
    obtain ⟨hnt, hwf⟩ := hfed
    dsimp only [exec, adoptSnapshotLineage]
    split
    · exact h.frame (SameMap.refl s)
    · refine .of_idle ?_ ?_ ?_ _
      · exact hnt
      · exact hwf
      · intro e he
        exact (hwf.le_lastTerm he).trans (le_max_right _ _)
  | snapshotConfig position config => exact absurd rfl hi

/-! ## Whole runs -/

/-- Every input of the run is one that the map can take where it comes. -/
def MapFedRun (sm : ElectionSm) (is : List Input) : Prop :=
  ∀ before i after, is = before ++ i :: after →
    MapFed (sm.run before) (truncates (sm.outputs before)) i

theorem run_mapInv {sm : ElectionSm} (hb : Boot sm) (hmap : sm.termMap.WF) (is : List Input)
    (hfed : MapFedRun sm is) : MapInv (sm.run is) (truncates (sm.outputs is)) := by
  induction is using List.reverseRecOn with
  | nil =>
    refine .of_idle hb.state.notTruncating hmap ?_ _
    intro e he
    exact (hmap.le_lastTerm he).trans hb.state.mapTerm
  | append_singleton is i ih =>
    have hinv := ih fun before j after h => hfed before j (after ++ [i]) (by simp [h])
    rw [run_append, outputs_append, truncates, List.filterMap_append]
    have hone : (sm.run is).outputs [i] = ((sm.run is).exec i).2 := by simp [outputs]
    rw [hone]
    exact exec_mapInv hinv (hfed is i [] rfl)

/-- What the term map promises: its shape, and what `termAt` answers. -/
structure MapSound (s : ElectionSm) : Prop where
  terms : s.termMap.Pairwise fun a b => a.1 < b.1
  bases : s.termMap.Pairwise fun a b => a.2 ≤ b.2
  bound : ∀ e ∈ s.termMap, e.1 ≤ s.currentTerm
  /-- `termAt` above a byte answers the last entry that begins at or below it. -/
  termAt : ∀ p < s.durable,
    s.termAt (p + 1) = ((s.termMap.filter fun e => e.2 ≤ p).getLast?.map Prod.fst).getD 0

/-- Whatever input comes next, short of one that brings attribution along, the
    durable bytes that survive it keep their term. -/
def KeepsAttribution (s : ElectionSm) (i : Input) : Prop :=
  ∀ p < min s.durable (s.exec i).1.durable, (s.exec i).1.termAt (p + 1) = s.termAt (p + 1)

theorem MapInv.sound (h : MapInv s issued) : s.MapSound :=
  ⟨h.wf.terms, h.wf.bases, h.bound, fun p _ => termAt_succ h.wf p⟩

theorem Kept.keepsAttribution {i : Input} (h : MapInv s issued) (hk : Kept s issued (s.exec i)) :
    s.KeepsAttribution i := by
  intro p hp
  unfold termAt
  rw [termAt_succ hk.inv.wf, termAt_succ h.wf, hk.attr p hp]

/-- **In a run whose inputs the map can take, the term map is well formed and
    answers `termAt` in every state, and no election, reconcile or truncation
    changes the term of a durable byte that survives it.** -/
theorem termMap_sound {sm : ElectionSm} (hb : Boot sm) (hmap : sm.termMap.WF) (is : List Input)
    (hfed : MapFedRun sm is) :
    (∀ before after, is = before ++ after → (sm.run before).MapSound) ∧
      ∀ before i after, is = before ++ i :: after → i.attributes = false →
        (sm.run before).KeepsAttribution i := by
  have hinv : ∀ before after, is = before ++ after →
      MapInv (sm.run before) (truncates (sm.outputs before)) := by
    rintro before after rfl
    refine run_mapInv hb hmap before ?_
    rintro b j a rfl
    exact hfed b j (a ++ after) (by simp)
  constructor
  · intro before after his
    exact (hinv before after his).sound
  · intro before i after his hi
    have hbefore := hinv before (i :: after) his
    exact (exec_kept hbefore (hfed before i after his) hi).keepsAttribution hbefore

/-- A node cuts to the leader's boundary and then observes the leader's data. -/
theorem termMap_sound_after_cut :
    ((genesisNode 1 [1, 2, 3] none [(1, 0)] 600).run
      [.event (.termMapReceived 3 [(1, 0), (3, 500)]), .event (.truncated 1 500),
        .event (.dataTermObserved 3 500)]).MapSound := by
  have hfed : MapFedRun (genesisNode 1 [1, 2, 3] none [(1, 0)] 600)
      [.event (.termMapReceived 3 [(1, 0), (3, 500)]), .event (.truncated 1 500),
        .event (.dataTermObserved 3 500)] := by
    intro before i after h
    rcases before with _ | ⟨b, _ | ⟨c, _ | ⟨d, rest⟩⟩⟩
    · cases h
      trivial
    · cases h
      intro _ cut hcut
      have hissued : truncates ((genesisNode 1 [1, 2, 3] none [(1, 0)] 600).outputs
          [.event (.termMapReceived 3 [(1, 0), (3, 500)])]) = [(1, 500)] := by decide
      rw [hissued, List.mem_singleton] at hcut
      exact (Prod.mk.inj hcut).2.ge
    · cases h
      intro _ _
      decide
    · simp at h
  refine (termMap_sound (genesisNode_boot 1 1 [2, 3] none [(1, 0)] 600) ?_ _ hfed).1 _ [] ?_
  · exact ⟨List.pairwise_singleton _ _, List.pairwise_singleton _ _⟩
  · rw [List.append_nil]

/-- An observation held while a truncation was in flight is replayed after the
    ack, although its bytes were cut: the map is `[(1, 0), (2, 600), (3, 500)]`
    once the leader's own boundary is observed below it. -/
theorem termMap_unsound_after_replay :
    ¬ ∀ sm, Boot sm → sm.termMap.WF → ∀ is, (sm.run is).MapSound := by
  intro h
  have hs := h _ (genesisNode_boot 1 1 [2, 3] none [(1, 0)] 600)
    ⟨List.pairwise_singleton _ _, List.pairwise_singleton _ _⟩
    [.event (.termMapReceived 3 [(1, 0), (3, 500)]), .event (.truncated 1 500),
      .event (.dataTermObserved 2 600), .event (.dataTermObserved 3 500)]
  have hbases := hs.bases
  revert hbases
  decide

end ElectionSm

end UltimaCluster
