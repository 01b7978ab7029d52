/-
  The leader's commit ranking over whole node lifetimes.

  `CommitTracker` keeps a commit high-water mark of its own, which a ranking
  suppressed by the NewTerm clamp advances too and which survives step-down,
  truncation and re-election.  A quorum at or below a mark left over from an
  earlier term is masked; nothing else masks one.
-/
import UltimaCluster.Lib.OrderStat
import UltimaCluster.Run
import UltimaCluster.Trans

namespace UltimaCluster

open CommitTracker (onDurable resetReports)
open Prod (fst)

namespace CommitTracker

variable (t : CommitTracker)

/-- The ranking is at or above `r` exactly when a quorum is, the owner
    included. -/
theorem le_ranked_iff {own r : ℕ} (hr : 0 < r) (hq : 0 < t.quorum) :
    r ≤ t.ranked own ↔ r ≤ own ∧ t.quorum ≤ 1 + t.reported.countP (r ≤ ·) := by
  unfold ranked
  rw [le_min_iff, OrderStat.le_insertionSort_getD_iff _ hr, List.countP_cons]
  constructor
  · rintro ⟨hk, hown⟩
    simp only [hown, decide_true, if_true] at hk
    exact ⟨hown, by omega⟩
  · rintro ⟨hown, hk⟩
    simp only [hown, decide_true, if_true]
    exact ⟨by omega, trivial⟩

theorem advance_quiet {own : ℕ} (h : t.ranked own ≤ t.commit) : t.advance own = (t, none) := by
  unfold advance
  rw [if_neg (by omega)]

theorem advance_some {own : ℕ} (h : t.commit < t.ranked own) :
    t.advance own = ({ t with commit := t.ranked own }, some (t.ranked own)) := by
  unfold advance
  rw [if_pos h]

end CommitTracker

namespace ElectionSm

/-! ## What a ranking does -/

/-- A ranking that is emitted. -/
structure RankEmits (nowNs c : ℕ) (s : ElectionSm) : Prop where
  commitSeen : (rankLeader nowNs s).1.commitSeen = c
  mark : (rankLeader nowNs s).1.tracker.commit = c
  emitted : .advanceCommit c ∈ (rankLeader nowNs s).2

variable {pos r : ℕ} {s s' : ElectionSm}

/-- The emitted ranking: above the tracker's mark, above our commit, at or
    above the NewTerm position. -/
theorem rankLeader_emits (nowNs : ℕ) (hmark : s.tracker.commit < s.tracker.ranked s.durable)
    (hpos : s.newTermPos = some pos) (hc : s.commitSeen < s.tracker.ranked s.durable)
    (hle : pos ≤ s.tracker.ranked s.durable) : RankEmits nowNs (s.tracker.ranked s.durable) s := by
  have hadv := s.tracker.advance_some hmark
  constructor
  all_goals
    unfold rankLeader
    simp only [hadv, hpos, hc, hle, and_self, if_true]
    split_ifs <;> simp

theorem rankLeader_quiet (nowNs : ℕ)
    (h : ∀ pos, s.newTermPos = some pos → s.tracker.commit < s.tracker.ranked s.durable →
      s.commitSeen < s.tracker.ranked s.durable → s.tracker.ranked s.durable < pos) :
    rankLeader nowNs s = ({ s with tracker := (s.tracker.advance s.durable).1 }, []) := by
  unfold rankLeader
  by_cases hmark : s.tracker.commit < s.tracker.ranked s.durable
  · rw [s.tracker.advance_some hmark]
    dsimp only
    split
    · rename_i c pos hc hpos
      cases hc
      rw [if_neg]
      rintro ⟨h1, h2⟩
      exact absurd (h pos hpos hmark h1) (not_lt.mpr h2)
    · rfl
  · rw [s.tracker.advance_quiet (not_lt.mp hmark)]

/-! ## The reports and their slots -/

/-- The quorum of the current voters ranks `r`: we hold it durable, and with us
    at least `tracker.quorum` of them, by their last attested reports. -/
def RankedBy (s : ElectionSm) (r : ℕ) : Prop :=
  r ≤ s.durable ∧ s.tracker.quorum ≤
    1 + ((s.members.toFinset.erase s.id).filter fun v => r ≤ (s.lastReport v).getD 0).card

variable {slot : ℕ} {v w : NodeId}

theorem followerSlot_getElem (h : s.followerSlot v = some slot) :
    (s.members.filter (· ≠ s.id))[slot]? = some v := by
  obtain ⟨hlt, hv, -⟩ := List.findIdx?_eq_some_iff_getElem.mp h
  rw [List.getElem?_eq_getElem hlt]
  simpa using hv

theorem followerSlot_lt (h : s.followerSlot v = some slot) :
    slot < (s.members.filter (· ≠ s.id)).length :=
  (List.getElem?_eq_some_iff.mp (followerSlot_getElem h)).1

theorem followerSlot_inj (hv : s.followerSlot v = some slot) (hw : s.followerSlot w = some slot) :
    v = w := by
  have h := (followerSlot_getElem hv).symm.trans (followerSlot_getElem hw)
  exact Option.some.inj h

theorem followerSlot_mem (h : s.followerSlot v = some slot) : v ∈ s.members ∧ v ≠ s.id := by
  have hmem := List.mem_of_getElem? (followerSlot_getElem h)
  simpa using hmem

theorem followerSlot_of_mem (hv : v ∈ s.members) (hne : v ≠ s.id) :
    ∃ slot, s.followerSlot v = some slot := by
  cases h : s.followerSlot v with
  | some slot => exact ⟨slot, rfl⟩
  | none =>
    unfold followerSlot at h
    rw [List.findIdx?_eq_none_iff] at h
    have := h v (by simpa using ⟨hv, hne⟩)
    simp at this

/-- The last report of `v` in a list of carried reports. -/
def reportOf (reports : List (NodeId × ℕ)) (v : NodeId) : ℕ :=
  ((reports.find? fun e => e.1 == v).map Prod.snd).getD 0

variable {reports : List (NodeId × ℕ)}

theorem reportOf_of_not_mem (h : v ∉ reports.map fst) : reportOf reports v = 0 := by
  have hnone : reports.find? (fun e => e.1 == v) = none := by
    rw [List.find?_eq_none]
    intro e he heq
    refine h (List.mem_map.mpr ⟨e, he, ?_⟩)
    simpa using heq
  simp [reportOf, hnone]

theorem reportOf_upsert_self (reports : List (NodeId × ℕ)) (v : NodeId) (d : ℕ) :
    reportOf (upsertReport v d reports) v = d := by
  induction reports with
  | nil => simp [upsertReport, reportOf]
  | cons e reports ih =>
    obtain ⟨id, d'⟩ := e
    by_cases h : id = v
    · simp [upsertReport, reportOf, h]
    · simpa [upsertReport, reportOf, h] using ih

theorem reportOf_upsert_ne (reports : List (NodeId × ℕ)) (d : ℕ) (hne : w ≠ v) :
    reportOf (upsertReport v d reports) w = reportOf reports w := by
  induction reports with
  | nil => simp [upsertReport, reportOf, hne.symm]
  | cons e reports ih =>
    obtain ⟨id, d'⟩ := e
    by_cases h : id = v
    · subst h
      simp [upsertReport, reportOf, hne.symm]
    · by_cases hw : id = w
      · subst hw
        simp [upsertReport, reportOf, hne]
      · simpa [upsertReport, reportOf, h, hw] using ih

theorem mem_keys_upsert {d : ℕ} :
    w ∈ (upsertReport v d reports).map fst ↔ w = v ∨ w ∈ reports.map fst := by
  induction reports with
  | nil => simp [upsertReport]
  | cons e reports ih =>
    obtain ⟨id, d'⟩ := e
    by_cases h : id = v
    · subst h
      simp [upsertReport]
    · simp only [upsertReport, h, if_false, List.map_cons, List.mem_cons, ih]
      tauto

theorem keys_upsert_nodup (v : NodeId) (d : ℕ) (h : (reports.map fst).Nodup) :
    ((upsertReport v d reports).map fst).Nodup := by
  induction reports with
  | nil => simp [upsertReport]
  | cons e reports ih =>
    obtain ⟨id, d'⟩ := e
    rw [List.map_cons, List.nodup_cons] at h
    by_cases hv : id = v
    · simpa [upsertReport, hv] using h
    · simp only [upsertReport, hv, if_false, List.map_cons, List.nodup_cons, mem_keys_upsert]
      exact ⟨by tauto, ih h.2⟩

/-! ## Carrying reports across a rebuild -/

section Carry

variable (slotOf : NodeId → Option ℕ)

/-- The carry loop of `rebuildMembership`. -/
def carry (reports : List (NodeId × ℕ)) (t : CommitTracker) : CommitTracker :=
  reports.foldl (fun t e => match slotOf e.1 with
    | some slot => t.onDurable slot e.2
    | none => t) t

theorem carry_frame (reports : List (NodeId × ℕ)) (t : CommitTracker) :
    (carry slotOf reports t).quorum = t.quorum ∧ (carry slotOf reports t).commit = t.commit ∧
      (carry slotOf reports t).reported.length = t.reported.length := by
  induction reports generalizing t with
  | nil => exact ⟨rfl, rfl, rfl⟩
  | cons e reports ih =>
    obtain ⟨h1, h2, h3⟩ := ih (match slotOf e.1 with | some slot => t.onDurable slot e.2 | none => t)
    unfold carry at h1 h2 h3 ⊢
    rw [List.foldl_cons, h1, h2, h3]
    split <;> simp [onDurable]

theorem carry_reported {reports : List (NodeId × ℕ)} (hk : (reports.map fst).Nodup)
    (hinj : ∀ v w slot, slotOf v = some slot → slotOf w = some slot → v = w)
    {t : CommitTracker} {v : NodeId} {slot : ℕ} (hv : slotOf v = some slot) {x : ℕ}
    (hx : t.reported[slot]? = some x) :
    (carry slotOf reports t).reported[slot]? =
      some (if v ∈ reports.map fst then reportOf reports v else x) := by
  induction reports generalizing t x with
  | nil => simpa [carry] using hx
  | cons e reports ih =>
    obtain ⟨id, d⟩ := e
    rw [List.map_cons, List.nodup_cons] at hk
    have hstep : carry slotOf ((id, d) :: reports) t = carry slotOf reports
        (match slotOf id with | some slot => t.onDurable slot d | none => t) := rfl
    rw [hstep]
    by_cases hid : id = v
    · subst hid
      have hset : (t.onDurable slot d).reported[slot]? = some d := by
        have hlt := (List.getElem?_eq_some_iff.mp hx).1
        simp [onDurable, hlt]
      rw [hv, ih hk.2 hset, if_neg hk.1]
      simp [reportOf]
    · have hother : (match slotOf id with
          | some slot => t.onDurable slot d | none => t).reported[slot]? = some x := by
        split
        · rename_i slot' hs
          have hne : slot' ≠ slot := by
            rintro rfl
            exact hid (hinj _ _ _ hs hv)
          simpa [onDurable, List.getElem?_set_ne hne] using hx
        · exact hx
      rw [ih hk.2 hother]
      have hrep : reportOf ((id, d) :: reports) v = reportOf reports v := by
        simp [reportOf, hid]
      have hne : v ≠ id := fun h => hid h.symm
      rw [hrep]
      simp only [List.map_cons, List.mem_cons, hne, false_or]

end Carry

/-! ## The books of a node -/

/-- The derived membership, the tracker and the carried reports agree. -/
structure Books (s : ElectionSm) : Prop where
  members : s.members = s.config.voterIds
  canVote : s.canVote = s.config.isVoter s.id
  quorum : 0 < s.tracker.quorum
  keys : (s.lastReports.map Prod.fst).Nodup
  /-- Every follower has a slot; at the boot of a non-voter one is missing. -/
  slots : (s.role = .follower ∧ s.canVote = false) ∨
    (s.members.filter (· ≠ s.id)).length ≤ s.tracker.reported.length
  reports : s.role = .leader → ∀ v slot, s.followerSlot v = some slot →
    s.tracker.reported[slot]? = some (reportOf s.lastReports v)

/-- The tracker's mark is not above both our commit and the term's own bytes. -/
def Unmasked (s : ElectionSm) : Prop :=
  s.role = .leader → ∀ pos, s.newTermPos = some pos →
    s.tracker.commit < pos ∨ s.tracker.commit ≤ s.commitSeen

theorem filter_ne_length_le (members : List NodeId) (id : NodeId) :
    (members.filter (· ≠ id)).length ≤
      if members.contains id then members.length - 1 else members.length := by
  split
  · rename_i h
    have hmem : id ∈ members := List.contains_iff_mem.mp h
    have hlt : (members.filter (· ≠ id)).length < members.length := by
      refine List.length_filter_lt_length_iff_exists.mpr ⟨id, hmem, ?_⟩
      simp
    omega
  · exact List.length_filter_le _ _

/-- The followers that the tracker of a rebuild is sized for. -/
def followers (s : ElectionSm) : ℕ :=
  if s.config.isVoter s.id then s.config.voterIds.length - 1 else s.config.voterIds.length

theorem filter_ne_length_le_followers (s : ElectionSm) :
    (s.config.voterIds.filter (· ≠ s.id)).length ≤ s.followers := by
  rw [followers, ClusterConfig.isVoter_eq_contains]
  exact filter_ne_length_le _ _

/-- The state after a rebuild: the tracker is sized for the new voters, its
    mark is cleared, and it holds the carried reports of the voters. -/
structure Rebuilt (s s' : ElectionSm) : Prop where
  frame : ∃ tr, s' = { s with
    members := s.config.voterIds, canVote := s.config.isVoter s.id
    votesReceived := s.votesReceived.filter fun v => s.config.voterIds.contains v || v == s.id
    lastReports := s.lastReports.filter fun e => s.config.contains e.1 && e.1 != s.id
    tracker := tr }
  quorum : s'.tracker.quorum = (s.followers + 1) / 2 + 1
  mark : s'.tracker.commit = 0
  slots : s'.tracker.reported.length = s.followers
  reports : ∀ v slot, s'.followerSlot v = some slot →
    s'.tracker.reported[slot]? = some (reportOf s'.lastReports v)

theorem rebuildMembership_rebuilt (c : Bool) (hk : (s.lastReports.map fst).Nodup)
    (hc : c = true ∨ s.lastReports = []) : Rebuilt s (rebuildMembership c s) := by
  obtain ⟨tr, heq⟩ := rebuildMembership_frame s c
  have htr : tr = if c then carry (rebuildMembership c s).followerSlot
      (s.lastReports.filter fun e => s.config.contains e.1 && e.1 != s.id)
      (.new s.followers (s.followers + 1)) else .new s.followers (s.followers + 1) := by
    have htracker : (rebuildMembership c s).tracker = tr := by rw [heq]
    rw [← htracker]
    cases c <;> rfl
  set lr := s.lastReports.filter fun e => s.config.contains e.1 && e.1 != s.id with hlr
  have hkeys : (lr.map fst).Nodup :=
    hk.sublist (List.Sublist.map _ (List.filter_sublist ..))
  have hframe : tr.quorum = (s.followers + 1) / 2 + 1 ∧ tr.commit = 0 ∧
      tr.reported.length = s.followers := by
    rw [htr]
    split
    · simpa [CommitTracker.new] using
        carry_frame _ lr (CommitTracker.new s.followers (s.followers + 1))
    · simp [CommitTracker.new]
  refine ⟨⟨tr, heq⟩, ?_, ?_, ?_, ?_⟩
  · rw [heq]; exact hframe.1
  · rw [heq]; exact hframe.2.1
  · rw [heq]; exact hframe.2.2
  · intro v slot hv
    have hlt : slot < s.followers := by
      have := followerSlot_lt hv
      rw [heq] at this
      exact this.trans_le (filter_ne_length_le_followers s)
    have hnew : (CommitTracker.new s.followers (s.followers + 1)).reported[slot]? = some 0 := by
      simp [CommitTracker.new, hlt]
    have htracker : (rebuildMembership c s).tracker = tr := by rw [heq]
    have hlast : (rebuildMembership c s).lastReports = lr := by rw [heq]
    rw [htracker, hlast, htr]
    rcases hc with hc | hempty
    · rw [if_pos hc, carry_reported _ hkeys (fun _ _ _ => followerSlot_inj) hv hnew]
      split
      · rfl
      · rw [reportOf_of_not_mem ‹_›]
    · have hnil : lr = [] := by rw [hlr, hempty]; rfl
      rw [hnil]
      split <;> exact hnew

theorem Books.rebuild (c : Bool) (hk : (s.lastReports.map fst).Nodup)
    (hc : s.role = .leader → c = true ∨ s.lastReports = []) :
    (rebuildMembership c s).Books ∧ (rebuildMembership c s).tracker.commit = 0 := by
  by_cases hdrop : c = true ∨ s.lastReports = []
  · have hr := rebuildMembership_rebuilt c hk hdrop
    obtain ⟨tr, heq⟩ := hr.frame
    refine ⟨⟨?_, ?_, ?_, ?_, .inr ?_, fun _ => hr.reports⟩, hr.mark⟩
    · rw [heq]
    · rw [heq]
    · rw [hr.quorum]
      omega
    · rw [heq]
      exact hk.sublist (List.Sublist.map _ (List.filter_sublist ..))
    · rw [hr.slots, heq]
      exact filter_ne_length_le_followers s
  · -- without the carry the tracker is blank
    obtain rfl : c = false := by
      cases c
      · rfl
      · exact absurd (.inl rfl) hdrop
    refine ⟨⟨rfl, rfl, Nat.succ_pos _, ?_, .inr ?_, ?_⟩, rfl⟩
    · exact hk.sublist (List.Sublist.map _ (List.filter_sublist ..))
    · simpa [rebuildMembership, CommitTracker.new, followers] using
        filter_ne_length_le_followers s
    · intro hl
      exact absurd (hc hl) hdrop

variable {ev : Event}

theorem Trans.books {out : List Action} (h : Trans ev s s' out)
    (hev : ∀ epoch target, ev ≠ .truncated epoch target) (hb : s.Books) : s'.Books := by
  obtain ⟨hm, hcv, hq, hk, hs, hr⟩ := hb
  cases h with
  | timers => exact ⟨hm, hcv, hq, hk, hs, hr⟩
  | floor => exact ⟨hm, hcv, hq, hk, hs, hr⟩
  | adopt term _ _ =>
    refine ⟨hm, hcv, hq, hk, ?_, by simp⟩
    exact hs.imp_left fun h => ⟨rfl, h.2⟩
  | stepDown _ _ =>
    refine ⟨hm, hcv, hq, hk, ?_, by simp⟩
    exact hs.imp_left fun h => ⟨rfl, h.2⟩
  | candidacy _ _ _ hv _ =>
    refine ⟨hm, hcv, hq, hk, ?_, by simp⟩
    exact hs.imp_left fun h => absurd hv (by simp [h.2])
  | win _ hrole _ =>
    have hslots : (s.members.filter (· ≠ s.id)).length ≤ s.tracker.reported.length :=
      hs.resolve_left fun h => by simp [hrole] at h
    refine ⟨hm, hcv, hq, by simp [becomeLeader_frame], .inr ?_, ?_⟩
    · simpa [becomeLeader_frame, resetReports] using hslots
    · intro _ v slot hv
      have hlt : slot < s.tracker.reported.length := (followerSlot_lt hv).trans_le hslots
      simp [becomeLeader_frame, resetReports, hlt, reportOf]
  | rank nowNs hrole _ =>
    have hro := rankLeader_role s nowNs
    obtain ⟨m, c, src, st, lg, sv, sd, ro, h⟩ := rankLeader_frame s nowNs
    rw [h] at hro ⊢
    refine ⟨hm, hcv, hq, hk, .inr ?_, fun _ => hr hrole⟩
    exact hs.resolve_left fun h => by simp [hrole] at h
  | carryReport src durable durableTerm _ _ _ _ hslot =>
    refine ⟨hm, hcv, hq, keys_upsert_nodup src durable hk, hs, ?_⟩
    intro hl v slot hv
    have hne : v ≠ src := by
      rintro rfl
      have hnone := hslot hl
      rw [show s.followerSlot v = some slot from hv] at hnone
      cases hnone
    rw [reportOf_upsert_ne _ _ hne]
    exact hr hl v slot hv
  | trackReport src durable durableTerm slot _ _ hrole hslot =>
    obtain ⟨hmem, hne⟩ := followerSlot_mem hslot
    have hcontains : (s.config.contains src && src != s.id) = true := by
      rw [hm, ← ClusterConfig.isVoter_iff] at hmem
      simp [ClusterConfig.contains, hmem, hne]
    have hslots : (s.members.filter (· ≠ s.id)).length ≤ s.tracker.reported.length :=
      hs.resolve_left fun h => by simp [hrole] at h
    simp only [hcontains, if_true]
    refine ⟨hm, hcv, hq, keys_upsert_nodup src durable hk, .inr ?_, ?_⟩
    · simpa [onDurable] using hslots
    · intro hl v slot' hv
      have hv' : s.followerSlot v = some slot' := hv
      by_cases hvs : v = src
      · subst hvs
        rw [hslot] at hv'
        cases hv'
        have hlt : slot < s.tracker.reported.length := (followerSlot_lt hslot).trans_le hslots
        simp [onDurable, hlt, reportOf_upsert_self]
      · have hne' : slot ≠ slot' := by
          rintro rfl
          exact hvs (followerSlot_inj hv' hslot)
        rw [reportOf_upsert_ne _ _ hvs]
        simpa [onDurable, List.getElem?_set_ne hne'] using hr hl v slot' hv'
  | durableAdvance durable _ =>
    unfold onDurableAdvanced
    dsimp only
    split <;> exact ⟨hm, hcv, hq, hk, hs, hr⟩
  | gossip _ _ =>
    rw [advanceGossipCommit_eq]; exact ⟨hm, hcv, hq, hk, hs, hr⟩
  | finish _ _ =>
    rw [finishValidation_eq]; exact ⟨hm, hcv, hq, hk, hs, hr⟩
  | observeTerm term base _ _ _ =>
    unfold onDataTermObserved
    split <;> exact ⟨hm, hcv, hq, hk, hs, hr⟩
  | clamp epoch target h => exact absurd h (hev _ _)
  | settle epoch target h => exact absurd h (hev _ _)
  | revert epoch target h => exact absurd h (hev _ _)
  | observeConfig position config _ _ =>
    obtain ⟨hbooks, -⟩ := Books.rebuild (s := { s with
      prevConfig := s.config, prevPosition := s.configPosition
      config, configPosition := position }) true hk fun _ => .inl rfl
    obtain ⟨h1, h2, h3, h4, h5, h6⟩ := hbooks
    unfold adoptConfig
    dsimp only
    split <;> exact ⟨h1, h2, h3, h4, h5, h6⟩
  | _ => exact ⟨hm, hcv, hq, hk, hs, hr⟩

theorem rankLeader_unmasked (nowNs : ℕ) (hrole : s.role = .leader) (hs : s.Unmasked) :
    (rankLeader nowNs s).1.Unmasked := by
  by_cases hemit : ∃ pos, s.newTermPos = some pos ∧ s.tracker.commit < s.tracker.ranked s.durable ∧
      s.commitSeen < s.tracker.ranked s.durable ∧ pos ≤ s.tracker.ranked s.durable
  · obtain ⟨pos, hpos, hmark, hc, hle⟩ := hemit
    obtain ⟨h1, h2, -⟩ := rankLeader_emits nowNs hmark hpos hc hle
    intro _ _ _
    right
    rw [h1, h2]
  · have hquiet : ∀ pos, s.newTermPos = some pos → s.tracker.commit < s.tracker.ranked s.durable →
        s.commitSeen < s.tracker.ranked s.durable → s.tracker.ranked s.durable < pos := by
      intro pos hpos hmark hc
      by_contra hle
      exact hemit ⟨pos, hpos, hmark, hc, not_lt.mp hle⟩
    rw [rankLeader_quiet nowNs hquiet]
    intro _ pos hpos
    by_cases hmark : s.tracker.commit < s.tracker.ranked s.durable
    · rw [s.tracker.advance_some hmark]
      by_cases hc : s.commitSeen < s.tracker.ranked s.durable
      · exact .inl (hquiet pos hpos hmark hc)
      · exact .inr (not_lt.mp hc)
    · rw [s.tracker.advance_quiet (not_lt.mp hmark)]
      exact hs hrole pos hpos

theorem Trans.unmasked {out : List Action} (h : Trans ev s s' out)
    (hev : ∀ position, ev ≠ .newTermAppended position)
    (hev' : ∀ epoch target, ev ≠ .truncated epoch target) (hk : (s.lastReports.map fst).Nodup)
    (hs : s.Unmasked) : s'.Unmasked := by
  cases h with
  | adopt | stepDown | candidacy => intro hl; cases hl
  | win _ hrole _ => intro _ pos hpos; cases hpos
  | rank nowNs hrole _ => exact rankLeader_unmasked nowNs hrole hs
  | durableAdvance durable _ =>
    unfold onDurableAdvanced
    dsimp only
    split <;> exact hs
  | openTerm position h => exact absurd h (hev _)
  | gossip _ _ =>
    intro hl
    by_cases hrole : s.role = .leader
    · rw [advanceGossipCommit_leader hrole]
      exact hs hrole
    · rw [advanceGossipCommit_eq] at hl
      exact absurd hl hrole
  | finish _ _ =>
    intro hl
    by_cases hrole : s.role = .leader
    · rw [finishValidation_leader hrole]
      exact hs hrole
    · rw [finishValidation_eq] at hl
      exact absurd hl hrole
  | observeTerm term base _ _ _ =>
    unfold onDataTermObserved
    split <;> exact hs
  | clamp epoch target h => exact absurd h (hev' _ _)
  | settle epoch target h => exact absurd h (hev' _ _)
  | revert epoch target h => exact absurd h (hev' _ _)
  | observeConfig position config _ _ =>
    obtain ⟨-, hzero⟩ := Books.rebuild (s := { s with
      prevConfig := s.config, prevPosition := s.configPosition
      config, configPosition := position }) true hk fun _ => .inl rfl
    intro _ pos _
    right
    unfold adoptConfig
    dsimp only
    split <;> exact hzero.le.trans (Nat.zero_le _)
  | _ => exact hs

/-! ## Whole runs -/

/-- A leader opens its term only with a mark below it, and never drops the
    reports of its term in a rebuild that does not carry them. -/
def MarkClear (s : ElectionSm) : Input → Prop
  | .event (.newTermAppended position) => s.role = .leader → s.truncatingEpoch = none →
      s.tracker.commit < position ∨ s.tracker.commit ≤ s.commitSeen
  | .event (.truncated epoch target) => s.role = .leader → s.truncatingEpoch = some epoch →
      target < s.configPosition → s.lastReports = []
  | .snapshotConfig _ _ => s.role = .leader → s.lastReports = []
  | _ => True

/-- What holds in every state of a run that meets `MarkClear`. -/
def Ledger (s : ElectionSm) : Prop := s.Books ∧ s.Unmasked

theorem Ledger.rebuild (hk : (s.lastReports.map fst).Nodup)
    (hc : s.role = .leader → s.lastReports = []) : (rebuildMembership false s).Ledger := by
  obtain ⟨hbooks, hzero⟩ := Books.rebuild false hk fun h => .inr (hc h)
  refine ⟨hbooks, ?_⟩
  intro _ pos _
  exact .inr (hzero.le.trans (Nat.zero_le _))

theorem revertConfig_ledger (target : ℕ) (hs : s.Ledger)
    (hc : s.role = .leader → target < s.configPosition → s.lastReports = []) :
    (revertConfig target s).1.Ledger := by
  unfold revertConfig
  split
  · rename_i hlt
    split
    · exact Ledger.rebuild hs.1.keys fun h => hc h hlt.1
    · exact Ledger.rebuild hs.1.keys fun h => hc h hlt.1
  · exact hs

theorem onTruncated_ledger (epoch target : ℕ) (hs : s.Ledger)
    (hc : s.MarkClear (.event (.truncated epoch target))) :
    (onTruncated epoch target s).1.Ledger := by
  obtain ⟨⟨hm, hcv, hq, hk, hsl, hr⟩, hu⟩ := hs
  by_cases hmatch : s.truncatingEpoch = some epoch
  · -- the ack of a leader moves no commit, so its mark stays clear
    obtain ⟨c, src, hlead, heq⟩ := onTruncated_matching s target hmatch
    rw [heq]
    refine revertConfig_ledger target ⟨⟨hm, hcv, hq, hk, hsl, hr⟩, ?_⟩ ?_
    · intro hl pos hpos
      rw [hlead hl]
      exact hu hl pos hpos
    · exact fun hl hlt => hc hl hmatch hlt
  · rw [onTruncated_stale s target hmatch]
    exact ⟨⟨hm, hcv, hq, hk, hsl, hr⟩, hu⟩

theorem step_ledger (hs : s.Ledger) (hc : s.MarkClear (.event ev)) : (s.step ev).1.Ledger := by
  by_cases htr : ∃ epoch target, ev = .truncated epoch target
  · obtain ⟨epoch, target, rfl⟩ := htr
    rw [step_truncated]
    exact onTruncated_ledger epoch target hs hc
  by_cases hnt : ∃ position, ev = .newTermAppended position
  · obtain ⟨position, rfl⟩ := hnt
    have hbooks : (s.step (.newTermAppended position)).1.Books :=
      (step_steps s _).invariant (fun _ _ _ ht hb => ht.books (by simp) hb) hs.1
    refine ⟨hbooks, ?_⟩
    unfold step
    split
    · exact hs.2
    · dsimp only [stepBody]
      split
      · rename_i hrole
        intro _ pos hpos
        cases hpos
        refine hc hrole ?_
        cases h : s.truncatingEpoch <;> simp_all [Event.passesLatch]
      · exact hs.2
  · push Not at htr hnt
    refine (step_steps s ev).invariant (P := Ledger) ?_ hs
    intro s1 s2 out ht hs1
    exact ⟨ht.books htr hs1.1, ht.unmasked hnt htr hs1.1.keys hs1.2⟩

theorem exec_ledger {i : Input} (hs : s.Ledger) (hc : s.MarkClear i) : (s.exec i).1.Ledger := by
  cases i with
  | event ev => exact step_ledger hs hc
  | snapshotLineage lineage =>
    obtain ⟨⟨hm, hcv, hq, hk, hsl, hr⟩, hu⟩ := hs
    dsimp only [exec, adoptSnapshotLineage]
    split
    · exact ⟨⟨hm, hcv, hq, hk, hsl, hr⟩, hu⟩
    · exact ⟨⟨hm, hcv, hq, hk, hsl, hr⟩, hu⟩
  | snapshotConfig position config => exact Ledger.rebuild hs.1.keys hc

theorem boot_ledger {sm : ElectionSm} (hb : Boot sm) : sm.Ledger := by
  have h := hb.state
  refine ⟨⟨h.members, h.canVote, ?_, ?_, ?_, ?_⟩, ?_⟩
  · rw [h.tracker]
    exact Nat.succ_pos _
  · rw [h.noReports]
    exact List.nodup_nil
  · cases hv : sm.canVote with
    | false => exact .inl ⟨h.role, rfl⟩
    | true =>
      right
      rw [h.tracker]
      have hlen := filter_ne_length_le sm.members sm.id
      rw [h.canVote, ClusterConfig.isVoter_eq_contains, ← h.members] at hv
      rw [if_pos hv] at hlen
      simpa [CommitTracker.new] using hlen
  · intro hl
    rw [h.role] at hl
    cases hl
  · intro hl
    rw [h.role] at hl
    cases hl

theorem RankedBy.le_ranked (hb : s.Books) (hl : s.role = .leader) (hr : 0 < r) (h : s.RankedBy r) :
    r ≤ s.tracker.ranked s.durable := by
  obtain ⟨hdur, hquorum⟩ := h
  rw [s.tracker.le_ranked_iff hr hb.quorum]
  refine ⟨hdur, hquorum.trans (Nat.add_le_add_left ?_ 1)⟩
  set voters := (s.members.toFinset.erase s.id).filter fun v => r ≤ (s.lastReport v).getD 0
  -- each voter that holds `r` names its own slot
  have hslot : ∀ v ∈ voters, ∃ slot, s.followerSlot v = some slot := by
    intro v hv
    simp only [voters, Finset.mem_filter, Finset.mem_erase, List.mem_toFinset] at hv
    exact followerSlot_of_mem hv.1.2 hv.1.1
  have hinj : Set.InjOn (fun v => (s.followerSlot v).getD 0) voters := by
    intro v hv w hw heq
    obtain ⟨i, hi⟩ := hslot v hv
    obtain ⟨j, hj⟩ := hslot w hw
    simp only [hi, hj, Option.getD_some] at heq
    subst heq
    exact followerSlot_inj hi hj
  rw [← Finset.card_image_of_injOn hinj]
  refine OrderStat.card_le_countP ?_
  intro i hi
  obtain ⟨v, hv, rfl⟩ := Finset.mem_image.mp hi
  obtain ⟨slot, hs⟩ := hslot v hv
  refine ⟨reportOf s.lastReports v, ?_, ?_⟩
  · simp only [hs, Option.getD_some]
    exact hb.reports hl v slot hs
  · simp only [voters, Finset.mem_filter] at hv
    exact decide_eq_true hv.2

theorem rankLeader_emits_of_rankedBy (nowNs : ℕ) (hs : s.Ledger) (hl : s.role = .leader)
    (hpos : s.newTermPos = some pos) (hq : s.RankedBy r) (hle : pos ≤ r) (hc : s.commitSeen < r) :
    ∃ c, r ≤ c ∧ .advanceCommit c ∈ (rankLeader nowNs s).2 := by
  have hrank : r ≤ s.tracker.ranked s.durable := hq.le_ranked hs.1 hl (by omega)
  have hmark : s.tracker.commit < s.tracker.ranked s.durable := by
    rcases hs.2 hl pos hpos with h | h <;> omega
  exact ⟨_, hrank,
    (rankLeader_emits nowNs hmark hpos (by omega) (by omega)).emitted⟩

theorem rankedBy_rankLeader (nowNs : ℕ) (s : ElectionSm) (r : ℕ) :
    (rankLeader nowNs s).1.RankedBy r ↔ s.RankedBy r := by
  rw [rankLeader_eq]
  exact Iff.rfl

/-- The events on which a leader ranks: a tick, and an attested report of its
    own term from a voter. -/
def Ranks (s : ElectionSm) : Event → Prop
  | .tick _ => s.truncatingEpoch = none
  | .report src term durable durableTerm => s.truncatingEpoch = none ∧ term = s.currentTerm ∧
      (0 < durable → durableTerm = s.termAt durable) ∧ src ∈ s.members ∧ src ≠ s.id
  | _ => False

theorem onReport_leader {src : NodeId} {durable durableTerm slot : ℕ} (h : s.role = .leader)
    (hatt : 0 < durable → durableTerm = s.termAt durable) (hslot : s.followerSlot src = some slot) :
    onReport src durable durableTerm s = rankLeader s.lastTickNs { s with
      lastReports := if s.config.contains src && src != s.id then
        upsertReport src durable s.lastReports else s.lastReports
      tracker := s.tracker.onDurable slot durable } := by
  rw [onReport_eq, if_neg (by tauto)]
  simp only [h, hslot]

theorem step_emits_of_rankedBy (hs : s.Ledger) (hl : s.role = .leader)
    (hpos : s.newTermPos = some pos) (hev : s.Ranks ev) (hq : (s.step ev).1.RankedBy r)
    (hle : pos ≤ r) (hc : s.commitSeen < r) : ∃ c, r ≤ c ∧ .advanceCommit c ∈ (s.step ev).2 := by
  cases ev with
  | tick nowNs =>
    have hstep : s.step (.tick nowNs) = onTick nowNs s := step_of_idle hev
    rw [hstep, onTick_leader nowNs hl] at hq ⊢
    have hq' : s.RankedBy r := by
      refine (rankedBy_rankLeader nowNs { s with lastTickNs := nowNs } r).mp ?_
      rw [andThen_fst] at hq
      split at hq <;> exact hq
    obtain ⟨c, hrc, hmem⟩ := rankLeader_emits_of_rankedBy nowNs (s := { s with lastTickNs := nowNs })
      ⟨⟨hs.1.members, hs.1.canVote, hs.1.quorum, hs.1.keys, hs.1.slots, hs.1.reports⟩, hs.2⟩
      hl hpos hq' hle hc
    exact ⟨c, hrc, by rw [andThen_snd]; exact List.mem_append_left _ hmem⟩
  | report src term durable durableTerm =>
    obtain ⟨hidle, rfl, hatt, hmem, hne⟩ := hev
    obtain ⟨slot, hslot⟩ := followerSlot_of_mem hmem hne
    have hstep : s.step (.report src s.currentTerm durable durableTerm) =
        onReport src durable durableTerm s := by
      rw [step_of_idle hidle]
      simp [stepBody]
    rw [hstep, onReport_leader hl hatt hslot] at hq ⊢
    -- the report is in the books when the ranking is done
    have htrack : Trans (.report src s.currentTerm durable durableTerm) s _ [] :=
      .trackReport src durable durableTerm slot rfl hatt hl hslot
    have hs' := And.intro (htrack.books (by simp) hs.1)
      (htrack.unmasked (by simp) (by simp) hs.1.keys hs.2)
    exact rankLeader_emits_of_rankedBy s.lastTickNs hs' hl hpos
      ((rankedBy_rankLeader _ _ _).mp hq) hle hc
  | _ => exact absurd hev (by simp [Ranks])

/-- **A ranked quorum is never masked in a run in which every term is opened
    above the tracker's left-over mark.** -/
theorem commit_not_masked {sm : ElectionSm} (hb : Boot sm) {is : List Input}
    (hC : StepsMeet MarkClear sm is) {ev : Event} {pos r : ℕ}
    (hl : (sm.run is).role = .leader) (hpos : (sm.run is).newTermPos = some pos)
    (hev : (sm.run is).Ranks ev) (hq : ((sm.run is).step ev).1.RankedBy r) (hle : pos ≤ r)
    (hc : (sm.run is).commitSeen < r) :
    ∃ c, r ≤ c ∧ .advanceCommit c ∈ ((sm.run is).step ev).2 := by
  have hs : (sm.run is).Ledger :=
    run_invariant (boot_ledger hb) (fun _ _ hs hi => exec_ledger hs hi) is hC
  exact step_emits_of_rankedBy hs hl hpos hev hq hle hc

/-- A first election, its NewTerm frame, and a quorum at 200. -/
theorem commit_not_masked_first_term :
    ∃ c, 200 ≤ c ∧ .advanceCommit c ∈
      (((genesisNode 1 [1, 2, 3] none [] 0).run [.event (.tick 20), .event (.vote 2 1 true),
        .event (.newTermAppended 64), .event (.durableAdvanced 200)]).step
          (.report 2 1 200 1)).2 := by
  refine commit_not_masked (genesisNode_boot 1 1 [2, 3] none [] 0) ?_ (by decide)
    (show _ = some 64 by decide) (by simp only [Ranks]; decide) (by unfold RankedBy; decide)
    (by decide) (by decide)
  refine stepsMeet_cons.mpr ⟨trivial, stepsMeet_cons.mpr ⟨trivial, stepsMeet_cons.mpr ⟨?_,
    stepsMeet_cons.mpr ⟨trivial, stepsMeet_nil _ _⟩⟩⟩⟩
  unfold MarkClear
  decide

/-- Five voters.  Node 1 leads term 4 and a quorum holds its 1000 bytes of term
    2, which the NewTerm clamp suppresses.  The leader of term 5 cuts it to
    500; node 1 leads again in term 6, and a quorum at 900 emits nothing. -/
theorem commit_masked_after_reelection :
    ¬ ∀ sm, Boot sm → ∀ is ev pos r, (sm.run is).role = .leader →
      (sm.run is).newTermPos = some pos → (sm.run is).Ranks ev →
      ((sm.run is).step ev).1.RankedBy r → pos ≤ r → (sm.run is).commitSeen < r →
      ∃ c, r ≤ c ∧ .advanceCommit c ∈ ((sm.run is).step ev).2 := by
  intro h
  obtain ⟨c, -, hmem⟩ := h _ (genesisNode_boot 1 1 [2, 3, 4, 5] none [(1, 0), (2, 500)] 1000)
    [.event (.tick 20), .event (.tick 40), .event (.vote 2 4 true), .event (.vote 3 4 true),
      .event (.newTermAppended 1064), .event (.report 2 4 1000 2), .event (.report 3 4 1000 2),
      .event (.termMapReceived 5 [(1, 0), (3, 500), (5, 700)]), .event (.truncated 1 500),
      .event (.dataTermObserved 3 500), .event (.durableAdvanced 700), .event (.tick 100),
      .event (.vote 2 6 true), .event (.vote 3 6 true), .event (.newTermAppended 764),
      .event (.durableAdvanced 900), .event (.report 2 6 900 6)]
    (.report 3 6 900 6) 764 900 (by decide) (by decide) (by simp only [Ranks]; decide)
    (by unfold RankedBy; decide) (by decide) (by decide)
  exact List.not_mem_nil hmem

end ElectionSm

end UltimaCluster
