/-
  A leader and one follower across a rotation.

  What was sent may be taken any number of times, in any order, or never: `deliveries` and
  `acks` only grow.  The leader's plane takes no key of another leader while it reigns.
-/
import UltimaCluster.GroupActivation

namespace UltimaCluster

open GroupPlane (mem_wanted_of_le onAck_schedule onKeyMessage)

/-- The delivery of the newest epoch once more. -/
def GroupPlane.redeliverTo (g : GroupPlane) (peers : List NodeId) : List HandshakeAction :=
  match g.pending with
  | none => []
  | some p =>
    match g.schedule.get p.epoch with
    | none => []
    | some key => peers.map fun peer => .send peer dgramKindHsKey (.other (encodeKeyDelivery p.epoch key))

/-- A leader, a follower and the link. -/
structure KeyLink where
  leaderId : NodeId
  followerId : NodeId
  leader : GroupPlane
  follower : GroupPlane
  /-- When the last step was taken. -/
  now : ℕ
  /-- The bodies that were sent to the follower, and back. -/
  deliveries : List Bytes
  acks : List Bytes
  /-- What the leader minted, the newest first. -/
  minted : List (ℕ × GroupKey)
  /-- The epochs the follower acked since they were minted. -/
  acked : List ℕ

/-- A step of either, or of the link. -/
inductive KeyStep where
  | mint (peers gateOn : List NodeId) (key : GroupKey)
  | redeliver
  | deliver (body : Bytes)
  | takeAck (body : Bytes)
  | otherAck (sender : NodeId) (epoch : ℕ)
deriving DecidableEq

namespace KeyLink

def start (leaderId followerId : NodeId) (leader follower : GroupPlane) : KeyLink :=
  ⟨leaderId, followerId, leader, follower, 0, [], [], [], []⟩

/-- The bodies for a peer among the actions. -/
def sentTo (peer : NodeId) (acts : List HandshakeAction) : List Bytes :=
  acts.filterMap fun
    | .send dest _ (.other body) => if dest = peer then some body else none
    | _ => none

/-- The epoch of a well-formed key delivery. -/
def epochOf? (body : Bytes) : Option ℕ :=
  if body.head? = some 0 ∧ body.length = keyMsgLen then some (Bytes.num body 1 3) else none

/-- One step of the link. -/
def exec (s : KeyLink) : ℕ × KeyStep → KeyLink
  | (now, .mint peers gateOn key) =>
    let r := s.leader.mintGated peers gateOn now key
    { s with
      leader := r.1, now
      deliveries := s.deliveries ++ sentTo s.followerId r.2
      minted := (s.leader.nextEpoch, key) :: s.minted
      acked := s.acked.filter (· ≠ s.leader.nextEpoch) }
  | (now, .redeliver) =>
    { s with
      now
      deliveries := s.deliveries ++ sentTo s.followerId (s.leader.redeliverTo [s.followerId]) }
  | (now, .deliver body) =>
    let r := s.follower.onKeyMessage s.leaderId body
    { s with
      follower := r.1, now
      acks := s.acks ++ sentTo s.leaderId r.2
      acked := s.acked ++ (epochOf? body).toList }
  | (now, .takeAck body) => { s with leader := (s.leader.onKeyMessage s.followerId body).1, now }
  | (now, .otherAck sender epoch) => { s with leader := s.leader.onAck sender epoch, now }

def run (s : KeyLink) (steps : List (ℕ × KeyStep)) : KeyLink := steps.foldl exec s

/-- Time does not go back, and only what was sent is taken. -/
def Valid (s : KeyLink) : ℕ × KeyStep → Prop
  | (now, .deliver body) => s.now ≤ now ∧ body ∈ s.deliveries
  | (now, .takeAck body) => s.now ≤ now ∧ body ∈ s.acks
  | (now, .otherAck sender _) => s.now ≤ now ∧ sender ≠ s.followerId
  | (now, .mint _ _ key) => s.now ≤ now ∧ key.length = 32
  | (now, .redeliver) => s.now ≤ now

/-- The epoch of the current entry of the follower's schedule. -/
def currentEpoch (s : KeyLink) : Option ℕ := s.follower.schedule.current.map (·.1)

/-- A delivery takes nothing from the follower: of the epochs the leader may still name, it
    brings the leader's own key, and another that the follower acked is its current entry. -/
def Spares (s : KeyLink) : ℕ × KeyStep → Prop
  | (now, .deliver body) => ∀ n ∈ epochOf? body, ∀ e ∈ s.leader.wanted now,
    if n = e then s.minted.lookup e = some (body.drop 3)
    else e ∈ s.acked → s.currentEpoch = some e
  | _ => True

instance (s : KeyLink) : (step : ℕ × KeyStep) → Decidable (s.Valid step)
  | (_, .deliver _) | (_, .takeAck _) | (_, .otherAck _ _) | (_, .mint _ _ _) =>
    inferInstanceAs (Decidable (_ ∧ _))
  | (_, .redeliver) => inferInstanceAs (Decidable (_ ≤ _))

instance (s : KeyLink) : (step : ℕ × KeyStep) → Decidable (s.Spares step)
  | (now, .deliver body) => inferInstanceAs (Decidable (∀ n ∈ epochOf? body, ∀ e ∈ s.leader.wanted now,
      if n = e then s.minted.lookup e = some (body.drop 3)
      else e ∈ s.acked → s.currentEpoch = some e))
  | (_, .takeAck _) | (_, .otherAck _ _) | (_, .mint _ _ _) | (_, .redeliver) =>
    inferInstanceAs (Decidable True)

/-- A run of the two, over a network that loses, repeats and reorders. -/
def Runs (s : KeyLink) (steps : List (ℕ × KeyStep)) : Prop := Trace.Admits exec Valid s steps

def SparingRuns (s : KeyLink) (steps : List (ℕ × KeyStep)) : Prop :=
  Trace.Admits exec (fun s step => s.Valid step ∧ s.Spares step) s steps

instance (s : KeyLink) (steps : List (ℕ × KeyStep)) : Decidable (s.Runs steps) :=
  inferInstanceAs (Decidable (Trace.Admits exec Valid s steps))

instance (s : KeyLink) (steps : List (ℕ × KeyStep)) : Decidable (s.SparingRuns steps) :=
  inferInstanceAs (Decidable (Trace.Admits exec (fun s step => s.Valid step ∧ s.Spares step) s steps))

/-! ## The invariant -/

/-- Of the epochs the leader may still name, the follower holds those it acked. -/
structure Inv (s : KeyLink) : Prop where
  /-- The leader's last two keys are its schedule. -/
  current : ∀ x, s.minted[0]? = some x → s.leader.schedule.current = some x
  previous : ∀ x, s.minted[1]? = some x → s.leader.schedule.previous = some x
  acks : ∀ body ∈ s.acks, body.head? ≠ some 0
  held : ∀ e ∈ s.leader.wanted s.now, e ∈ s.acked →
    ∃ key, s.minted.lookup e = some key ∧ s.follower.schedule.get e = some key

variable {s : KeyLink} {now e : ℕ}

theorem inv_start (leaderId followerId : NodeId) (leader follower : GroupPlane) :
    (start leaderId followerId leader follower).Inv := by
  constructor
  · simp [start]
  · simp [start]
  · simp [start]
  · intro e _ he
    cases he

/-- An ack changes neither the leader's schedule nor what the follower has. -/
theorem Inv.onAck (hinv : s.Inv) (hle : s.now ≤ now) (sender : NodeId) (epoch : ℕ) :
    Inv { s with leader := s.leader.onAck sender epoch, now } where
  current x hx := by rw [onAck_schedule]; exact hinv.current x hx
  previous x hx := by rw [onAck_schedule]; exact hinv.previous x hx
  acks := hinv.acks
  held e he hacked :=
    hinv.held e (mem_wanted_of_le hle (GroupPlane.mem_wanted_onAck he)) hacked

theorem Inv.mint (hinv : s.Inv) (hle : s.now ≤ now) (peers gateOn : List NodeId) (key : GroupKey) :
    (s.exec (now, .mint peers gateOn key)).Inv := by
  simp only [exec]
  rw [GroupPlane.mintGated_fst]
  constructor
  · intro x hx
    simpa [KeySchedule.install] using hx
  · intro x hx
    exact hinv.current x (by simpa using hx)
  · exact hinv.acks
  · intro e he hacked
    obtain ⟨hacked, hne⟩ := List.mem_filter.mp hacked
    rw [decide_eq_true_eq] at hne
    -- the new epoch has not been acked, so it is the one sealed under until now
    obtain ⟨p, hp, rfl⟩ | ⟨hact, -⟩ := GroupPlane.mem_wanted.mp he
    · cases hp
      exact absurd rfl hne
    · have hold := mem_wanted_of_le hle (GroupPlane.mem_wanted_of_sealingEpoch hact)
      obtain ⟨key', hkey, hget⟩ := hinv.held e hold hacked
      refine ⟨key', ?_, hget⟩
      rw [List.lookup_cons, beq_eq_false_iff_ne.mpr hne]
      exact hkey

theorem Inv.deliver (hinv : s.Inv) (hle : s.now ≤ now) {body : Bytes}
    (hspare : s.Spares (now, .deliver body)) : (s.exec (now, .deliver body)).Inv := by
  by_cases hkey : body.head? = some 0 ∧ body.length = keyMsgLen
  · have hn : epochOf? body = some (Bytes.num body 1 3) := if_pos hkey
    simp only [exec, onKeyMessage, if_pos hkey, hn]
    refine ⟨hinv.current, hinv.previous, ?_, ?_⟩
    · intro b hb
      rcases List.mem_append.mp hb with hb | hb
      · exact hinv.acks b hb
      · obtain rfl : b = encodeAck (Bytes.num body 1 3) := by simpa [sentTo] using hb
        simp [encodeAck]
    · intro e he hacked
      have hspared := hspare _ hn e he
      dsimp only at hacked ⊢
      by_cases hne : Bytes.num body 1 3 = e
      · rw [if_pos hne] at hspared
        refine ⟨body.drop 3, hspared, ?_⟩
        rw [hne]
        exact KeySchedule.get_install_self _ _ _
      · rw [if_neg hne] at hspared
        have hold : e ∈ s.acked := by
          rcases List.mem_append.mp hacked with hold | hnew
          · exact hold
          · exact absurd (by simpa using hnew) (Ne.symm hne)
        obtain ⟨key, hminted, hget⟩ := hinv.held e (mem_wanted_of_le hle he) hold
        exact ⟨key, hminted, KeySchedule.get_install_of_current hne (hspared hold) hget⟩
  · have hn : epochOf? body = none := if_neg hkey
    -- nothing is installed and nothing is acked as a key
    have hsame : (s.follower.onKeyMessage s.leaderId body).1.schedule = s.follower.schedule ∧
        sentTo s.leaderId (s.follower.onKeyMessage s.leaderId body).2 = [] := by
      simp only [onKeyMessage, if_neg hkey]
      split_ifs
      · exact ⟨onAck_schedule _ _ _, rfl⟩
      · exact ⟨rfl, rfl⟩
    simp only [exec, hn, hsame.2, Option.toList_none, List.append_nil]
    refine { hinv with held := fun e he hacked => ?_ }
    rw [hsame.1]
    exact hinv.held e (mem_wanted_of_le hle he) hacked

theorem Inv.exec (hinv : s.Inv) (step : ℕ × KeyStep) (hvalid : s.Valid step) (hspare : s.Spares step) :
    (s.exec step).Inv := by
  obtain ⟨now, c⟩ := step
  cases c with
  | mint peers gateOn key => exact hinv.mint hvalid.1 peers gateOn key
  | redeliver =>
    exact { hinv with held := fun e he hacked => hinv.held e (mem_wanted_of_le hvalid he) hacked }
  | deliver body => exact hinv.deliver hvalid.1 hspare
  | takeAck body =>
    obtain ⟨hle, hbody⟩ := hvalid
    have hack := hinv.acks body hbody
    simp only [KeyLink.exec, onKeyMessage, hack, false_and, if_false]
    split_ifs
    · exact hinv.onAck hle _ _
    · exact { hinv with held := fun e he hacked => hinv.held e (mem_wanted_of_le hle he) hacked }
  | otherAck sender epoch => exact hinv.onAck hvalid.1 sender epoch

theorem inv_run {steps : List (ℕ × KeyStep)} (hinv : s.Inv) (h : s.SparingRuns steps) :
    (s.run steps).Inv := by
  refine Trace.Admits.rule (P := fun steps => (s.run steps).Inv) hinv (fun steps step hinv hok => ?_) h
  rw [run, List.foldl_append]
  exact hinv.exec step hok.1 hok.2

/-- The leader has minted at most one epoch after `e`. -/
def Newest (s : KeyLink) (e : ℕ) : Prop := e ∈ (s.minted.take 2).map (·.1)

instance (s : KeyLink) (e : ℕ) : Decidable (s.Newest e) :=
  inferInstanceAs (Decidable (e ∈ (s.minted.take 2).map (·.1)))

/-- The follower has the leader's key of `e`. -/
def Shared (s : KeyLink) (e : ℕ) : Prop :=
  ∃ key, s.leader.schedule.get e = some key ∧ s.follower.schedule.get e = some key

theorem Inv.leader_get (hinv : s.Inv) {key : GroupKey} (hnew : s.Newest e)
    (hkey : s.minted.lookup e = some key) : s.leader.schedule.get e = some key := by
  have hcur := hinv.current
  have hprev := hinv.previous
  unfold Newest at hnew
  cases hm : s.minted with
  | nil => simp [hm] at hkey
  | cons x rest =>
    rw [hm] at hcur hprev hkey hnew
    have hx := hcur x rfl
    obtain ⟨n, k⟩ := x
    rw [List.lookup_cons] at hkey
    by_cases hn : e = n
    · subst hn
      simp only [beq_self_eq_true, Option.some.injEq] at hkey
      simp [KeySchedule.get, hx, Option.filter, hkey]
    · rw [beq_eq_false_iff_ne.mpr hn] at hkey
      cases rest with
      | nil => simp [hn] at hnew
      | cons y rest =>
        have hy := hprev y rfl
        obtain ⟨n', k'⟩ := y
        obtain rfl : e = n' := by simpa [hn] using hnew
        simp only [List.lookup_cons, beq_self_eq_true, Option.some.injEq] at hkey
        simp [KeySchedule.get, hx, hy, Option.filter, Ne.symm hn, hkey]

/-- While no delivery takes an epoch away that the leader may still name, the follower has
    the leader's key of the epoch sealed under, from its ack on. -/
theorem overlap_held (leaderId followerId : NodeId) (leader follower : GroupPlane)
    (steps : List (ℕ × KeyStep)) (h : (start leaderId followerId leader follower).SparingRuns steps)
    (now e : ℕ) (hle : ((start leaderId followerId leader follower).run steps).now ≤ now)
    (hname : ((start leaderId followerId leader follower).run steps).leader.sealingEpoch now = some e)
    (hacked : e ∈ ((start leaderId followerId leader follower).run steps).acked)
    (hnew : ((start leaderId followerId leader follower).run steps).Newest e) :
    ((start leaderId followerId leader follower).run steps).Shared e := by
  have hinv := inv_run (inv_start leaderId followerId leader follower) h
  have hwanted := GroupPlane.mem_wanted_of_le hle (GroupPlane.mem_wanted_of_sealingEpoch hname)
  obtain ⟨key, hminted, hget⟩ := hinv.held e hwanted hacked
  exact ⟨key, hinv.leader_get hnew hminted, hget⟩

/-! ## A rotation -/

def firstKey : GroupKey := List.replicate 32 1
def secondKey : GroupKey := List.replicate 32 2

def freshLink : KeyLink := start 1 2 .new .new

/-- The follower acks the first epoch, and the second is minted. -/
def toRotation : List (ℕ × KeyStep) :=
  [(0, .mint [2] [2] firstKey), (1, .deliver (encodeKeyDelivery 1 firstKey)),
    (2, .takeAck (encodeAck 1)), (3, .mint [2] [2] secondKey)]

def delivered : List (ℕ × KeyStep) := [(4, .deliver (encodeKeyDelivery 2 secondKey))]

theorem overlap_held_rotation : freshLink.SparingRuns (toRotation ++ delivered) ∧
    (freshLink.run (toRotation ++ delivered)).leader.sealingEpoch 5 = some 1 ∧
      (freshLink.run (toRotation ++ delivered)).Shared 1 := by
  have hruns : freshLink.SparingRuns (toRotation ++ delivered) := by decide +kernel
  have hname : (freshLink.run (toRotation ++ delivered)).leader.sealingEpoch 5 = some 1 := by
    decide +kernel
  exact ⟨hruns, hname, overlap_held 1 2 .new .new _ hruns 5 1 (by decide +kernel) hname
    (by decide +kernel) (by decide +kernel)⟩

/-- The follower acked the epoch sealed under, and at most one was minted after it. -/
def Overlaps (s : KeyLink) : Prop :=
  ∃ e, s.leader.sealingEpoch s.now = some e ∧ e ∈ s.acked ∧ s.Newest e

/-- The follower has the leader's key of the epoch sealed under. -/
def HasSealing (s : KeyLink) : Prop := ∀ e, s.leader.sealingEpoch s.now = some e → s.Shared e

/-- No delivery of the second epoch arrives, and the grace ends. -/
def unreached : List (ℕ × KeyStep) := [(3_000_000_000, .redeliver)]

/-- The second epoch is delivered twice, and no ack of it arrives. -/
def repeated : List (ℕ × KeyStep) :=
  [(4, .deliver (encodeKeyDelivery 2 secondKey)), (5, .redeliver),
    (6, .deliver (encodeKeyDelivery 2 secondKey))]

theorem not_hasSealing (hname : s.leader.sealingEpoch s.now = some e)
    (hgone : s.follower.schedule.get e = none) : ¬ s.HasSealing := by
  intro h
  obtain ⟨key, -, hget⟩ := h e hname
  rw [hgone] at hget
  cases hget

/-- Without another mint the follower comes to lack the key: of an epoch that activated
    without it, and of the one it acked. -/
theorem overlap_lost : (freshLink.run toRotation).Overlaps ∧
    (freshLink.Runs (toRotation ++ unreached) ∧
      ¬ (freshLink.run (toRotation ++ unreached)).HasSealing) ∧
    (freshLink.Runs (toRotation ++ repeated) ∧
      ¬ (freshLink.run (toRotation ++ repeated)).HasSealing) := by
  refine ⟨⟨1, by decide +kernel, by decide +kernel, by decide +kernel⟩,
    ⟨by decide +kernel, not_hasSealing (e := 2) ?_ ?_⟩,
    ⟨by decide +kernel, not_hasSealing (e := 1) ?_ ?_⟩⟩
  all_goals decide +kernel

end KeyLink

end UltimaCluster
