/-
  When a minted epoch is sealed under, and who still lacks it.

  `mints` keeps what was asked of a plane: every mint with its gate, and the acks of
  its epoch while it was the newest, whoever sent them.  `runStart` and `Activated`
  say the activation rule over that history.
-/
import UltimaCluster.GroupSealing

namespace UltimaCluster

open GroupPlane (isActivated mintClock mintGated_fst mint_fst new sealingEpoch)

namespace GroupPlane

/-- Those of `targets` that the newest epoch has to be delivered to. -/
def peersMissingKey (g : GroupPlane) (targets : List NodeId) : List NodeId :=
  match g.pending with
  | some p => targets.filter (· ∉ p.acked)
  | none => targets

end GroupPlane

/-! ## Histories -/

/-- A call that moves the gate. -/
inductive KeyCall where
  | mint (peers : List NodeId) (key : GroupKey)
  | mintGated (peers gateOn : List NodeId) (key : GroupKey)
  | ack (sender : NodeId) (epoch : ℕ)
deriving DecidableEq

namespace KeyCall

/-- The gate of a mint. -/
def gate? : KeyCall → Option (List NodeId)
  | mint peers _ => some peers
  | mintGated peers gateOn _ => some (peers.filter (· ∈ gateOn))
  | ack _ _ => none

end KeyCall

def GroupPlane.call (g : GroupPlane) : ℕ × KeyCall → GroupPlane
  | (now, .mint peers key) => (g.mint peers now key).1
  | (now, .mintGated peers gateOn key) => (g.mintGated peers gateOn now key).1
  | (_, .ack sender epoch) => g.onAck sender epoch

def keyRun (calls : List (ℕ × KeyCall)) : GroupPlane := calls.foldl GroupPlane.call .new

/-- A mint, with the senders that acked its epoch until the next one. -/
structure KeyMint where
  epoch : ℕ
  mintedAt : ℕ
  gate : List NodeId
  acks : List NodeId
deriving DecidableEq

/-- The number of the `k`-th mint: zero is left out. -/
def epochOf (k : ℕ) : ℕ := k % (2 ^ 16 - 1) + 1

/-- The history after a call. -/
def recordCall (h : List KeyMint) : ℕ × KeyCall → List KeyMint
  | (_, .ack sender epoch) =>
    match h with
    | m :: h => if m.epoch = epoch then { m with acks := m.acks ++ [sender] } :: h else m :: h
    | [] => []
  | (now, c) => ⟨epochOf h.length, now, c.gate?.getD [], []⟩ :: h

/-- The mints of a history, the newest first. -/
def mints (calls : List (ℕ × KeyCall)) : List KeyMint := calls.foldl recordCall []

/-- The first mint of the unbroken run of mints that had not activated when the next
    one came, up to the newest. -/
def runStart : List KeyMint → ℕ
  | [] => 0
  | [m] => m.mintedAt
  | m :: m' :: h =>
    if (∀ p ∈ m'.gate, p ∈ m'.acks) ∨ activationTimeoutNs < m.mintedAt - runStart (m' :: h) then
      m.mintedAt
    else runStart (m' :: h)

/-- Everyone in the gate acked, or the grace is over. -/
def Activated : List KeyMint → ℕ → Prop
  | [], _ => False
  | m :: h, now => (∀ p ∈ m.gate, p ∈ m.acks) ∨ activationTimeoutNs < now - runStart (m :: h)

instance : (h : List KeyMint) → (now : ℕ) → Decidable (Activated h now)
  | [], _ => inferInstanceAs (Decidable False)
  | _ :: _, _ => inferInstanceAs (Decidable (_ ∨ _))

/-! ## The plane and its history -/

variable {g : GroupPlane} {h : List KeyMint} {now t : ℕ}

/-- The plane holds the newest mint, with the clock of its run and those of its acks that came
    from the gate. -/
structure Mirrors (g : GroupPlane) (h : List KeyMint) : Prop where
  next : g.nextEpoch = epochOf h.length
  none_ : h = [] → g.pending = none ∧ g.activeEpoch = none
  some_ : ∀ m h', h = m :: h' → ∃ acked, g.pending = some ⟨m.epoch, runStart h, m.gate, acked⟩ ∧
    ∀ p, p ∈ acked ↔ p ∈ m.gate ∧ p ∈ m.acks

theorem epochOf_succ (k : ℕ) :
    (if (epochOf k + 1) % 2 ^ 16 = 0 then 1 else (epochOf k + 1) % 2 ^ 16) = epochOf (k + 1) := by
  unfold epochOf
  split_ifs <;> omega

theorem epochOf_pos (k : ℕ) : 0 < epochOf k := Nat.succ_pos _

theorem runStart_cons (m : KeyMint) (h : List KeyMint) :
    runStart (m :: h) = if h = [] ∨ Activated h m.mintedAt then m.mintedAt else runStart h := by
  cases h with
  | nil => simp [runStart]
  | cons m' h => simp [runStart, Activated]

namespace Mirrors

theorem isActivated_iff (hm : Mirrors g h) (now : ℕ) {p : PendingEpoch} (hp : g.pending = some p) :
    isActivated p now ↔ Activated h now := by
  cases h with
  | nil => simp [(hm.none_ rfl).1] at hp
  | cons m h =>
    obtain ⟨acked, hpend, hacked⟩ := hm.some_ m h rfl
    rw [hpend, Option.some.injEq] at hp
    subst hp
    simp only [isActivated, Bool.or_eq_true, List.all_eq_true, decide_eq_true_eq, hacked]
    exact or_congr_left ⟨fun hall p hp => (hall p hp).2, fun hall p hp => ⟨hp, hall p hp⟩⟩

theorem sealingEpoch_eq (hm : Mirrors g h) (now : ℕ) : g.sealingEpoch now =
    if Activated h now then h.head?.map (·.epoch) else g.activeEpoch := by
  cases h with
  | nil =>
    rw [sealingEpoch, (hm.none_ rfl).1]
    exact (if_neg id).symm
  | cons m h =>
    obtain ⟨acked, hpend, -⟩ := hm.some_ m h rfl
    have hiff := hm.isActivated_iff now hpend
    simp only [sealingEpoch, hpend]
    exact if_congr hiff rfl rfl

theorem mintClock_eq (hm : Mirrors g h) (e now : ℕ) (gate acks : List NodeId) :
    g.mintClock now = runStart (⟨e, now, gate, acks⟩ :: h) := by
  rw [runStart_cons, mintClock]
  cases h with
  | nil => simp [(hm.none_ rfl).1]
  | cons m h =>
    obtain ⟨acked, hpend, -⟩ := hm.some_ m h rfl
    have hiff := hm.isActivated_iff now hpend
    rw [hpend]
    by_cases hact : Activated (m :: h) now
    · simp [Option.filter, hiff.mpr hact, hact]
    · simp [Option.filter, mt hiff.mp hact, hact]

theorem mintGated (hm : Mirrors g h) (peers gateOn : List NodeId) (now : ℕ) (key : GroupKey) :
    Mirrors (g.mintGated peers gateOn now key).1
      (⟨epochOf h.length, now, peers.filter (· ∈ gateOn), []⟩ :: h) := by
  rw [mintGated_fst]
  constructor
  · rw [List.length_cons, ← epochOf_succ, hm.next]
  · rintro ⟨⟩
  · rintro m h' ⟨rfl, rfl⟩
    exact ⟨[], by rw [hm.mintClock_eq, hm.next], by simp⟩

theorem onAck (hm : Mirrors g h) (now : ℕ) (sender : NodeId) (epoch : ℕ) :
    Mirrors (g.onAck sender epoch) (recordCall h (now, .ack sender epoch)) := by
  cases h with
  | nil =>
    obtain ⟨hpend, hact⟩ := hm.none_ rfl
    simp only [GroupPlane.onAck, hpend, recordCall]
    exact hm
  | cons m h =>
    obtain ⟨acked, hpend, hacked⟩ := hm.some_ m h rfl
    simp only [GroupPlane.onAck, hpend, recordCall]
    by_cases hepoch : m.epoch = epoch
    swap
    · rw [if_neg (fun hand => hepoch hand.1), if_neg hepoch]
      exact hm
    rw [if_pos hepoch]
    -- the clock does not depend on the acks of the newest
    have hclock : runStart ({ m with acks := m.acks ++ [sender] } :: h) = runStart (m :: h) := by
      rw [runStart_cons, runStart_cons]
    by_cases hgate : sender ∈ m.gate
    · rw [if_pos ⟨hepoch, hgate⟩]
      refine ⟨hm.next, by rintro ⟨⟩, ?_⟩
      rintro m' h' ⟨rfl, rfl⟩
      refine ⟨acked ++ [sender], by rw [hclock], fun p => ?_⟩
      simp only [List.mem_append, List.mem_singleton, hacked]
      constructor
      · rintro (⟨hp, hack⟩ | rfl)
        · exact ⟨hp, .inl hack⟩
        · exact ⟨hgate, .inr rfl⟩
      · rintro ⟨hp, hack | rfl⟩
        · exact .inl ⟨hp, hack⟩
        · exact .inr rfl
    · rw [if_neg (fun hand => hgate hand.2)]
      refine ⟨hm.next, by rintro ⟨⟩, ?_⟩
      rintro m' h' ⟨rfl, rfl⟩
      refine ⟨acked, by rw [hclock]; exact hpend, fun p => ?_⟩
      simp only [List.mem_append, List.mem_singleton, hacked]
      constructor
      · rintro ⟨hp, hack⟩
        exact ⟨hp, .inl hack⟩
      · rintro ⟨hp, hack | rfl⟩
        · exact ⟨hp, hack⟩
        · exact absurd hp hgate

theorem call (hm : Mirrors g h) (c : ℕ × KeyCall) : Mirrors (g.call c) (recordCall h c) := by
  obtain ⟨now, c⟩ := c
  cases c with
  | mint peers key =>
    have hmint := hm.mintGated peers peers now key
    rw [← mint_fst, List.filter_eq_self.mpr (by simp)] at hmint
    exact hmint
  | mintGated peers gateOn key => exact hm.mintGated peers gateOn now key
  | ack sender epoch => exact hm.onAck now sender epoch

end Mirrors

theorem mirrors_run (calls : List (ℕ × KeyCall)) : Mirrors (keyRun calls) (mints calls) := by
  induction calls using List.reverseRecOn with
  | nil => exact ⟨rfl, fun _ => ⟨rfl, rfl⟩, by rintro m h' ⟨⟩⟩
  | append_singleton calls c ih =>
    rw [keyRun, mints, List.foldl_append, List.foldl_append]
    exact ih.call c

/-! ## The sealing epoch over a history -/

theorem sealingEpoch_isSome : (g.sealingEpoch t).isSome ↔
    (∃ p, g.pending = some p ∧ isActivated p t) ∨ g.activeEpoch.isSome := by
  rw [sealingEpoch]
  cases hp : g.pending with
  | none => simp
  | some p => by_cases hact : isActivated p t <;> simp [hact]

theorem sealingEpoch_isSome_mono (hle : t ≤ now) (hsome : (g.sealingEpoch t).isSome) :
    (g.sealingEpoch now).isSome := by
  rw [sealingEpoch_isSome] at hsome ⊢
  exact hsome.imp_left fun ⟨p, hp, hact⟩ => ⟨p, hp, GroupPlane.isActivated_mono hle hact⟩

theorem onAck_activeEpoch (g : GroupPlane) (sender : NodeId) (epoch : ℕ) :
    (g.onAck sender epoch).activeEpoch = g.activeEpoch := by
  rw [GroupPlane.onAck]
  split
  · split_ifs <;> rfl
  · rfl

theorem call_activeEpoch (g : GroupPlane) (c : ℕ × KeyCall) : (g.call c).activeEpoch =
    if c.2.gate?.isSome then g.sealingEpoch c.1 else g.activeEpoch := by
  obtain ⟨now, c⟩ := c
  cases c with
  | mint peers key =>
    rw [GroupPlane.call, mint_fst, mintGated_fst]
    rfl
  | mintGated peers gateOn key =>
    rw [GroupPlane.call, mintGated_fst]
    rfl
  | ack sender epoch => exact onAck_activeEpoch g sender epoch

theorem call_isSome {c : ℕ × KeyCall} (hle : t ≤ c.1) (hsome : (g.sealingEpoch t).isSome) :
    ((g.call c).sealingEpoch t).isSome := by
  rw [sealingEpoch_isSome, call_activeEpoch]
  by_cases hmint : c.2.gate?.isSome
  · rw [if_pos hmint]
    exact .inr (sealingEpoch_isSome_mono hle hsome)
  rw [if_neg hmint]
  obtain ⟨now, c⟩ := c
  cases c with
  | ack sender epoch =>
    refine (sealingEpoch_isSome.mp hsome).imp_left ?_
    rintro ⟨p, hp, hact⟩
    simp only [GroupPlane.call, GroupPlane.onAck, hp]
    split_ifs
    · refine ⟨_, rfl, ?_⟩
      -- an ack takes none away
      simp only [isActivated, Bool.or_eq_true, List.all_eq_true, decide_eq_true_eq,
        List.mem_append] at hact ⊢
      exact hact.imp_left fun hall p hp => .inl (hall p hp)
    · exact ⟨p, hp, hact⟩
  | mint peers key => exact absurd rfl hmint
  | mintGated peers gateOn key => exact absurd rfl hmint

theorem foldl_call_isSome {calls : List (ℕ × KeyCall)} (hle : ∀ c ∈ calls, t ≤ c.1)
    (hsome : (g.sealingEpoch t).isSome) : ((calls.foldl GroupPlane.call g).sealingEpoch t).isSome := by
  induction calls generalizing g with
  | nil => exact hsome
  | cons c calls ih =>
    exact ih (fun x hx => hle x (List.mem_cons_of_mem _ hx))
      (call_isSome (hle c List.mem_cons_self) hsome)

theorem foldl_acks_activeEpoch {calls : List (ℕ × KeyCall)} (hacks : ∀ c ∈ calls, c.2.gate? = none) :
    (calls.foldl GroupPlane.call g).activeEpoch = g.activeEpoch := by
  induction calls generalizing g with
  | nil => rfl
  | cons c calls ih =>
    rw [List.foldl_cons, ih fun x hx => hacks x (List.mem_cons_of_mem _ hx), call_activeEpoch,
      hacks c List.mem_cons_self]
    rfl

theorem mints_epoch_ne_zero (calls : List (ℕ × KeyCall)) : ∀ m ∈ mints calls, m.epoch ≠ 0 := by
  induction calls using List.reverseRecOn with
  | nil => simp [mints]
  | append_singleton calls c ih =>
    rw [mints, List.foldl_append, List.foldl_cons, List.foldl_nil]
    change ∀ m ∈ recordCall (mints calls) c, m.epoch ≠ 0
    generalize mints calls = h at ih ⊢
    obtain ⟨now, c⟩ := c
    intro m hm
    cases c with
    | ack sender epoch =>
      cases h with
      | nil => cases hm
      | cons m' h =>
        simp only [recordCall] at hm
        split_ifs at hm
        · rcases List.mem_cons.mp hm with rfl | hm
          · exact ih m' List.mem_cons_self
          · exact ih m (List.mem_cons_of_mem _ hm)
        · exact ih m hm
    | mint peers key =>
      rcases List.mem_cons.mp hm with rfl | hm
      · exact (epochOf_pos _).ne'
      · exact ih m hm
    | mintGated peers gateOn key =>
      rcases List.mem_cons.mp hm with rfl | hm
      · exact (epochOf_pos _).ne'
      · exact ih m hm

theorem activeEpoch_ne_zero (calls : List (ℕ × KeyCall)) :
    (keyRun calls).activeEpoch ≠ some 0 ∧ ∀ now, (keyRun calls).sealingEpoch now ≠ some 0 := by
  have hseal : ∀ calls, (keyRun calls).activeEpoch ≠ some 0 →
      ∀ now, (keyRun calls).sealingEpoch now ≠ some 0 := by
    intro calls hactive now
    rw [(mirrors_run calls).sealingEpoch_eq]
    split_ifs
    · cases hh : mints calls with
      | nil => simp
      | cons m h =>
        have hpos := mints_epoch_ne_zero calls m (by rw [hh]; exact List.mem_cons_self)
        simpa using hpos
    · exact hactive
  have hactive : (keyRun calls).activeEpoch ≠ some 0 := by
    induction calls using List.reverseRecOn with
    | nil => simp [keyRun, new]
    | append_singleton calls c ih =>
      rw [keyRun, List.foldl_append, List.foldl_cons, List.foldl_nil, call_activeEpoch]
      split_ifs
      · exact hseal calls ih c.1
      · exact ih
  exact ⟨hactive, hseal calls hactive⟩

/-- What the plane answers at `now`, after `calls`. -/
structure KeyBooks (calls : List (ℕ × KeyCall)) (now : ℕ) : Prop where
  /-- An epoch was named earlier. -/
  stays : ∀ before after, calls = before ++ after → ∀ t ≤ now, (∀ c ∈ after, t ≤ c.1) →
    ((keyRun before).sealingEpoch t).isSome → ((keyRun calls).sealingEpoch now).isSome
  /-- The newest mint is named once it is activated, and until then what was named when it
      was made. -/
  moves : ∀ before c after, calls = before ++ c :: after → c.2.gate?.isSome →
    (∀ x ∈ after, x.2.gate? = none) → (keyRun calls).sealingEpoch now =
      if Activated (mints calls) now then (mints calls).head?.map (·.epoch)
      else (keyRun before).sealingEpoch c.1
  nonzero : (keyRun calls).sealingEpoch now ≠ some 0
  missing : ∀ targets p, p ∈ (keyRun calls).peersMissingKey targets ↔
    p ∈ targets ∧ ∀ m ∈ (mints calls).head?, p ∉ m.acks

/-- The gate alone acked the newest epoch. -/
def OnlyGateAcks (calls : List (ℕ × KeyCall)) : Prop :=
  ∀ m ∈ (mints calls).head?, ∀ p ∈ m.acks, p ∈ m.gate

theorem mem_peersMissingKey (calls : List (ℕ × KeyCall)) (targets : List NodeId) (p : NodeId) :
    p ∈ (keyRun calls).peersMissingKey targets ↔
      p ∈ targets ∧ ∀ m ∈ (mints calls).head?, ¬ (p ∈ m.gate ∧ p ∈ m.acks) := by
  have hm := mirrors_run calls
  generalize keyRun calls = g at hm ⊢
  cases hh : mints calls with
  | nil => simp [GroupPlane.peersMissingKey, (hm.none_ hh).1]
  | cons m h =>
    obtain ⟨acked, hpend, hacked⟩ := hm.some_ m h hh
    simp only [GroupPlane.peersMissingKey, hpend, List.mem_filter, decide_eq_true_eq, hacked,
      List.head?_cons, Option.mem_some_iff, forall_eq']

/-- The sealing epoch moves as the rule says, and never back to none or to zero, on every
    history; the list of those that miss the newest key is right exactly while nobody
    outside its gate acked it. -/
theorem keyBooks_iff (calls : List (ℕ × KeyCall)) (now : ℕ) :
    KeyBooks calls now ↔ OnlyGateAcks calls := by
  constructor
  · intro hbooks m hm p hp
    by_contra hgate
    have hlisted : p ∈ (keyRun calls).peersMissingKey [p] := by
      rw [mem_peersMissingKey]
      refine ⟨List.mem_singleton_self p, fun m' hm' hboth => ?_⟩
      obtain rfl : m = m' := Option.some.inj (hm.symm.trans hm')
      exact hgate hboth.1
    exact ((hbooks.missing [p] p).mp hlisted).2 m hm hp
  · intro hgate
    constructor
    · rintro before after rfl t hle hafter hsome
      rw [keyRun, List.foldl_append]
      exact sealingEpoch_isSome_mono hle (foldl_call_isSome hafter hsome)
    · rintro before c after rfl hmint hacks
      rw [(mirrors_run _).sealingEpoch_eq]
      congr 1
      rw [keyRun, List.foldl_append, List.foldl_cons, foldl_acks_activeEpoch hacks, call_activeEpoch,
        if_pos hmint]
      rfl
    · exact (activeEpoch_ne_zero calls).2 now
    · intro targets p
      rw [mem_peersMissingKey]
      refine and_congr_right fun _ => forall₂_congr fun m hm => not_congr ?_
      exact ⟨fun hboth => hboth.2, fun hack => ⟨hgate m hm p hack, hack⟩⟩

/-- A peer without a session at the mint, which got the key by a redelivery and acked. -/
def lateAck : List (ℕ × KeyCall) := [(0, .mintGated [2, 3] [2] (List.replicate 32 1)), (1, .ack 3 1)]

theorem late_ack_not_counted : ¬ KeyBooks lateAck 1 := by
  intro h
  have hlisted : 3 ∈ (keyRun lateAck).peersMissingKey [3] := by decide +kernel
  exact ((h.missing [3] 3).mp hlisted).2 ⟨1, 0, [2], [3]⟩ (by decide +kernel) (by decide)

end UltimaCluster
