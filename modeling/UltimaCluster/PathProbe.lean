/-
  The ledger of the path probes (`uc_net/src/probe.rs`).

  A peer's rounds come in ladders: one begins when the peer is new and whenever
  `on_peer_seen` restarts it.  A ladder counts the rounds that went out and those whose
  fate is open; a round that is given back is taken out of its own ladder.  The call does
  not say which round it gives back: `noteUnsentFor` names its ladder (none for a round of
  a peer that was forgotten since), beside what the code sees.  `sent` is not a call: the
  sender got something onto the wire.
-/
import UltimaCluster.Lib.Trace
import UltimaCluster.Records

namespace UltimaCluster

/-- How often a path is probed. -/
structure ProbeCadence where
  fastNs : ℕ
  fastAttempts : ℕ
  slowNs : ℕ
deriving DecidableEq

/-- The probes to one peer. -/
structure PeerProbe where
  verified : ℕ
  advertised : ℕ
  attempts : ℕ
  spentFastLadder : Bool
  roundsSinceAck : ℕ
  nextDueNs : ℕ
deriving DecidableEq

/-- A fresh peer. -/
def PeerProbe.fresh : PeerProbe := ⟨0, 0, 0, false, 0, 0⟩

/-- `MTU_BOUND`. -/
def mtuBound : ℕ := 8960

namespace PeerProbe

def resolved (p : PeerProbe) : Bool := mtuBound ≤ p.verified && p.verified ≤ p.advertised

/-- The rungs of a round; the refresh rung goes last. -/
def roundRungs (p : PeerProbe) : List ℕ :=
  rungs.filter (p.verified < ·) ++ if 0 < p.verified then [p.verified] else []

/-- A round is handed out. -/
def handOut (p : PeerProbe) (c : ProbeCadence) (now : ℕ) : PeerProbe :=
  let attempts := (p.attempts + 1) % 2 ^ 32
  { p with
    attempts
    roundsSinceAck := min (p.roundsSinceAck + 1) (2 ^ 32 - 1)
    spentFastLadder := p.spentFastLadder || c.fastAttempts ≤ attempts
    nextDueNs := (now + if attempts < c.fastAttempts then c.fastNs else c.slowNs) % 2 ^ 64 }

/-- A round that did not go out. -/
def giveBack (p : PeerProbe) (c : ProbeCadence) (now : ℕ) : PeerProbe :=
  { p with
    spentFastLadder := if p.attempts = c.fastAttempts then false else p.spentFastLadder
    attempts := p.attempts - 1
    nextDueNs := (now + c.fastNs) % 2 ^ 64 }

end PeerProbe

/-- The rounds of a ladder that went out, and those that may still be given back. -/
structure ProbeLadder where
  out : ℕ
  open_ : ℕ
deriving DecidableEq

def ProbeLadder.total (l : ProbeLadder) : ℕ := l.out + l.open_

/-- A peer with its ladders, the present one and those before it. -/
structure ProbeEntry where
  probe : PeerProbe
  ladder : ProbeLadder
  before : List ProbeLadder
deriving DecidableEq

namespace ProbeEntry

def fresh : ProbeEntry := ⟨.fresh, ⟨0, 0⟩, []⟩

def ladders (e : ProbeEntry) : List ProbeLadder := e.ladder :: e.before

end ProbeEntry

variable {α : Type*} [DecidableEq α]

/-- The probes to all peers. -/
structure ProbeTable (α : Type*) where
  peers : List (α × ProbeEntry)
  earliestDueNs : ℕ

/-- A call on the table. -/
inductive ProbeStep (α : Type*) where
  | setPeers (peers : List α)
  | due (now : ℕ)
  | onAck (sender : α) (rung ownMinRung : ℕ)
  | onPeerSeen (sender : α)
  | noteUnsentFor (peer : α) (now : ℕ) (ladder : Option ℕ)
  | sent (peer : α) (ladder : ℕ)

namespace ProbeTable

def empty : ProbeTable α := ⟨[], 2 ^ 64 - 1⟩

def publishEarliest (peers : List (α × ProbeEntry)) : ProbeTable α :=
  ⟨peers, (((peers.filter (!·.2.probe.resolved)).map (·.2.probe.nextDueNs)).min?).getD (2 ^ 64 - 1)⟩

/-- The members changed. -/
def setPeers (t : ProbeTable α) (peers : List α) : ProbeTable α :=
  let kept := t.peers.filter (·.1 ∈ peers)
  publishEarliest (kept ++ (peers.dedup.filter (· ∉ kept.map (·.1))).map (·, .fresh))

/-- Change the entry of one peer. -/
def modify (peers : List (α × ProbeEntry)) (peer : α) (f : ProbeEntry → ProbeEntry) :
    List (α × ProbeEntry) :=
  peers.map fun x => if x.1 = peer then (x.1, f x.2) else x

/-- A round that goes out or comes back leaves the open ones of its ladder. -/
def settle (f : ProbeLadder → ProbeLadder) (e : ProbeEntry) : ℕ → ProbeEntry
  | 0 => { e with ladder := f e.ladder }
  | n + 1 => { e with before := e.before.modify n f }

/-- A round for a peer that is due. -/
def dueEntry (c : ProbeCadence) (now : ℕ) (e : ProbeEntry) : ProbeEntry :=
  if e.probe.resolved || now < e.probe.nextDueNs then e
  else
    { e with
      probe := e.probe.handOut c now
      ladder := { e.ladder with open_ := e.ladder.open_ + 1 } }

/-- The peers that are due, each with its rungs. -/
def due (t : ProbeTable α) (c : ProbeCadence) (now : ℕ) : ProbeTable α × List (α × List ℕ) :=
  if now < t.earliestDueNs then (t, [])
  else
    (publishEarliest (t.peers.map fun x => (x.1, dueEntry c now x.2)),
      (t.peers.filter fun x => !(x.2.probe.resolved || now < x.2.probe.nextDueNs)).map fun x =>
        (x.1, x.2.probe.roundRungs))

def ackEntry (rung ownMinRung : ℕ) (e : ProbeEntry) : ProbeEntry :=
  { e with
    probe :=
      { e.probe with
        verified := max e.probe.verified rung, advertised := ownMinRung, roundsSinceAck := 0 } }

/-- A peer got a probe. -/
def onAck (t : ProbeTable α) (sender : α) (rung ownMinRung : ℕ) : ProbeTable α :=
  if !isRung rung || !t.peers.any (·.1 = sender) then t
  else publishEarliest (modify t.peers sender (ackEntry rung ownMinRung))

/-- The ladder begins anew, on a peer that is past its fast one. -/
def seenEntry (c : ProbeCadence) (e : ProbeEntry) : ProbeEntry :=
  if e.probe.resolved || e.probe.attempts < c.fastAttempts then e
  else ⟨{ e.probe with attempts := 0, nextDueNs := 0 }, ⟨0, 0⟩, e.ladder :: e.before⟩

/-- A probe of a peer arrived. -/
def onPeerSeen (t : ProbeTable α) (c : ProbeCadence) (sender : α) : ProbeTable α :=
  match t.peers.find? (·.1 = sender) with
  | none => t
  | some x =>
    if x.2.probe.resolved || x.2.probe.attempts < c.fastAttempts then t
    else publishEarliest (modify t.peers sender (seenEntry c))

def unsentEntry (c : ProbeCadence) (now : ℕ) (ladder : Option ℕ) (e : ProbeEntry) : ProbeEntry :=
  let e := match ladder with
    | some n => settle (fun l => { l with open_ := l.open_ - 1 }) e n
    | none => e
  { e with probe := e.probe.giveBack c now }

/-- The round was not sent. -/
def noteUnsentFor (t : ProbeTable α) (c : ProbeCadence) (peer : α) (now : ℕ) (ladder : Option ℕ) :
    ProbeTable α :=
  publishEarliest (modify t.peers peer (unsentEntry c now ladder))

/-- One call on the table. -/
def exec (c : ProbeCadence) (t : ProbeTable α) : ProbeStep α → ProbeTable α
  | .setPeers peers => t.setPeers peers
  | .due now => (t.due c now).1
  | .onAck sender rung ownMinRung => t.onAck sender rung ownMinRung
  | .onPeerSeen sender => t.onPeerSeen c sender
  | .noteUnsentFor peer now ladder => t.noteUnsentFor c peer now ladder
  | .sent peer ladder =>
    { t with
      peers := modify t.peers peer fun e => settle (fun l => ⟨l.out + 1, l.open_ - 1⟩) e ladder }

def run (c : ProbeCadence) (t : ProbeTable α) (steps : List (ProbeStep α)) : ProbeTable α :=
  steps.foldl (exec c) t

/-- A round goes out or is given back once. -/
def Valid (t : ProbeTable α) : ProbeStep α → Prop
  | .noteUnsentFor peer _ (some n) | .sent peer n =>
    ∀ x ∈ t.peers, x.1 = peer → ∃ l ∈ x.2.ladders[n]?, 0 < l.open_
  | _ => True

/-- No counter wraps.  A round is given back to the ladder it was handed out in, or to one
    that has not begun; and not at the threshold, once an earlier ladder was spent. -/
def Spares (c : ProbeCadence) (t : ProbeTable α) : ProbeStep α → Prop
  | .due _ => ∀ x ∈ t.peers, x.2.probe.attempts + 1 < 2 ^ 32
  | .noteUnsentFor peer _ ladder => ∀ x ∈ t.peers, x.1 = peer →
    (ladder = some 0 ∨ ladder = none ∧ x.2.probe.attempts = 0) ∧
      (x.2.probe.attempts = c.fastAttempts → x.2.before = [])
  | _ => True

instance (t : ProbeTable α) : (step : ProbeStep α) → Decidable (t.Valid step)
  | .noteUnsentFor peer _ (some n) | .sent peer n =>
    inferInstanceAs (Decidable (∀ x ∈ t.peers, x.1 = peer → ∃ l ∈ x.2.ladders[n]?, 0 < l.open_))
  | .noteUnsentFor _ _ none | .setPeers _ | .due _ | .onAck _ _ _ | .onPeerSeen _ => .isTrue trivial

instance (c : ProbeCadence) (t : ProbeTable α) : (step : ProbeStep α) → Decidable (t.Spares c step)
  | .due _ => inferInstanceAs (Decidable (∀ x ∈ t.peers, x.2.probe.attempts + 1 < 2 ^ 32))
  | .noteUnsentFor peer _ ladder => inferInstanceAs (Decidable (∀ x ∈ t.peers, x.1 = peer →
      (ladder = some 0 ∨ ladder = none ∧ x.2.probe.attempts = 0) ∧
        (x.2.probe.attempts = c.fastAttempts → x.2.before = [])))
  | .sent _ _ | .setPeers _ | .onAck _ _ _ | .onPeerSeen _ => .isTrue trivial

def Runs (c : ProbeCadence) (t : ProbeTable α) (steps : List (ProbeStep α)) : Prop :=
  Trace.Admits (exec c) Valid t steps

def SparingRuns (c : ProbeCadence) (t : ProbeTable α) (steps : List (ProbeStep α)) : Prop :=
  Trace.Admits (exec c) (fun t step => t.Valid step ∧ t.Spares c step) t steps

instance (c : ProbeCadence) (t : ProbeTable α) (steps : List (ProbeStep α)) : Decidable (t.Runs c steps) :=
  inferInstanceAs (Decidable (Trace.Admits (exec c) Valid t steps))

instance (c : ProbeCadence) (t : ProbeTable α) (steps : List (ProbeStep α)) :
    Decidable (t.SparingRuns c steps) :=
  inferInstanceAs (Decidable (Trace.Admits (exec c) (fun t step => t.Valid step ∧ t.Spares c step) t steps))

/-! ## The latch -/

/-- The latch is set as long as some ladder has the fast attempts, and only then. -/
structure EntryInv (c : ProbeCadence) (e : ProbeEntry) : Prop where
  count : e.probe.attempts = e.ladder.total
  kept : ∀ l ∈ e.ladders, c.fastAttempts ≤ l.total → 0 < l.total → e.probe.spentFastLadder = true
  earned : e.probe.spentFastLadder = true → ∃ l ∈ e.ladders, c.fastAttempts ≤ l.total

variable {c : ProbeCadence} {e : ProbeEntry} {now n : ℕ}

theorem entryInv_fresh : EntryInv c .fresh := by
  refine ⟨rfl, ?_, ?_⟩
  · intro l hl _ hpos
    obtain rfl : l = ⟨0, 0⟩ := by simpa [ProbeEntry.fresh, ProbeEntry.ladders] using hl
    cases hpos
  · intro h
    cases h

theorem EntryInv.due (h : EntryInv c e) (hwrap : e.probe.attempts + 1 < 2 ^ 32) :
    EntryInv c (dueEntry c now e) := by
  unfold dueEntry
  split_ifs
  · exact h
  have hattempts : (e.probe.attempts + 1) % 2 ^ 32 = e.probe.attempts + 1 := Nat.mod_eq_of_lt hwrap
  have hcount := h.count
  unfold ProbeLadder.total at hcount
  refine ⟨?_, ?_, ?_⟩
  · simp only [PeerProbe.handOut, hattempts, ProbeLadder.total]
    omega
  · intro l hl hfast hpos
    simp only [PeerProbe.handOut, hattempts, Bool.or_eq_true, decide_eq_true_eq]
    rcases List.mem_cons.mp hl with rfl | hl
    · simp only [ProbeLadder.total] at hfast
      right
      omega
    · exact .inl (h.kept l (List.mem_cons_of_mem _ hl) hfast hpos)
  · intro hlatch
    simp only [PeerProbe.handOut, hattempts, Bool.or_eq_true, decide_eq_true_eq] at hlatch
    rcases hlatch with hlatch | hfast
    · obtain ⟨l, hl, hle⟩ := h.earned hlatch
      rcases List.mem_cons.mp hl with rfl | hl
      · refine ⟨_, List.mem_cons_self, hle.trans ?_⟩
        simp only [ProbeLadder.total]
        omega
      · exact ⟨l, List.mem_cons_of_mem _ hl, hle⟩
    · refine ⟨_, List.mem_cons_self, ?_⟩
      simp only [ProbeLadder.total]
      omega

theorem EntryInv.seen (h : EntryInv c e) : EntryInv c (seenEntry c e) := by
  unfold seenEntry
  split_ifs
  · exact h
  refine ⟨rfl, ?_, ?_⟩
  · intro l hl hfast hpos
    rcases List.mem_cons.mp hl with rfl | hl
    · cases hpos
    · exact h.kept l hl hfast hpos
  · intro hlatch
    obtain ⟨l, hl, hle⟩ := h.earned hlatch
    exact ⟨l, List.mem_cons_of_mem _ hl, hle⟩

theorem EntryInv.sent (h : EntryInv c e) (hopen : ∃ l ∈ e.ladders[n]?, 0 < l.open_) :
    EntryInv c (settle (fun l => ⟨l.out + 1, l.open_ - 1⟩) e n) := by
  obtain ⟨l, hl, hpos⟩ := hopen
  have htotal : (⟨l.out + 1, l.open_ - 1⟩ : ProbeLadder).total = l.total := by
    simp only [ProbeLadder.total]
    omega
  have hsame : (settle (fun l => ⟨l.out + 1, l.open_ - 1⟩) e n).probe = e.probe ∧
      (settle (fun l => ⟨l.out + 1, l.open_ - 1⟩) e n).ladder.total = e.ladder.total ∧
      (settle (fun l => ⟨l.out + 1, l.open_ - 1⟩) e n).ladders.map ProbeLadder.total =
        e.ladders.map ProbeLadder.total := by
    cases n with
    | zero =>
      obtain rfl : e.ladder = l := by simpa [ProbeEntry.ladders] using hl
      exact ⟨rfl, htotal, by simp [settle, ProbeEntry.ladders, htotal]⟩
    | succ n =>
      have hl' : e.before[n]? = some l := by simpa [ProbeEntry.ladders] using hl
      refine ⟨rfl, rfl, ?_⟩
      simp only [settle, ProbeEntry.ladders, List.map_cons, List.cons.injEq, true_and]
      refine List.ext_getElem? fun m => ?_
      rw [List.getElem?_map, List.getElem?_map, List.getElem?_modify]
      by_cases hm : n = m
      · subst hm
        simp [hl', htotal]
      · simp [hm]
  obtain ⟨hprobe, hladder, hladders⟩ := hsame
  generalize settle (fun l => ⟨l.out + 1, l.open_ - 1⟩) e n = e' at hprobe hladder hladders ⊢
  have hmem : ∀ k, (∃ l ∈ e'.ladders, l.total = k) ↔ ∃ l ∈ e.ladders, l.total = k := by
    intro k
    rw [← List.mem_map, ← List.mem_map, hladders]
  refine ⟨by rw [hprobe, hladder, h.count], ?_, ?_⟩
  · intro l' hl' hfast hpos'
    obtain ⟨l₀, hl₀, heq⟩ := (hmem _).mp ⟨l', hl', rfl⟩
    rw [hprobe]
    exact h.kept l₀ hl₀ (heq ▸ hfast) (heq ▸ hpos')
  · intro hlatch
    rw [hprobe] at hlatch
    obtain ⟨l₀, hl₀, hle⟩ := h.earned hlatch
    obtain ⟨l', hl', heq⟩ := (hmem _).mpr ⟨l₀, hl₀, rfl⟩
    exact ⟨l', hl', heq ▸ hle⟩

/-- A round given back to a ladder that has not begun changes nothing but its clock. -/
theorem EntryInv.unsent_none (h : EntryInv c e) (hzero : e.probe.attempts = 0)
    (hfirst : e.probe.attempts = c.fastAttempts → e.before = []) :
    EntryInv c (unsentEntry c now none e) := by
  have htotal : e.ladder.total = 0 := h.count ▸ hzero
  refine ⟨?_, ?_, ?_⟩
  · simp [unsentEntry, PeerProbe.giveBack, hzero, htotal]
  · intro l hl hfast hpos
    simp only [unsentEntry, PeerProbe.giveBack]
    split_ifs with heq
    · obtain rfl : l = e.ladder := by simpa [unsentEntry, ProbeEntry.ladders, hfirst heq] using hl
      omega
    · exact h.kept l hl hfast hpos
  · intro hlatch
    simp only [unsentEntry, PeerProbe.giveBack] at hlatch
    split_ifs at hlatch
    exact h.earned hlatch

/-- A round given back to its own ladder: at the threshold of the first one it takes the latch. -/
theorem EntryInv.unsent_some (h : EntryInv c e) (hopen : 0 < e.ladder.open_)
    (hfirst : e.probe.attempts = c.fastAttempts → e.before = []) :
    EntryInv c (unsentEntry c now (some 0) e) := by
  have hcount := h.count
  unfold ProbeLadder.total at hcount
  change EntryInv c ⟨e.probe.giveBack c now, ⟨e.ladder.out, e.ladder.open_ - 1⟩, e.before⟩
  have hlatch : (e.probe.giveBack c now).spentFastLadder = true ↔
      e.probe.attempts ≠ c.fastAttempts ∧ e.probe.spentFastLadder = true := by
    simp only [PeerProbe.giveBack]
    split_ifs with heq <;> simp [heq]
  refine ⟨?_, ?_, ?_⟩
  · simp only [PeerProbe.giveBack, ProbeLadder.total]
    omega
  · intro l hl hfast hpos
    rw [hlatch]
    rcases List.mem_cons.mp hl with rfl | hl
    · simp only [ProbeLadder.total] at hfast hpos
      refine ⟨by omega, h.kept e.ladder List.mem_cons_self ?_ ?_⟩ <;>
        (simp only [ProbeLadder.total]; omega)
    · refine ⟨fun heq => ?_, h.kept l (List.mem_cons_of_mem _ hl) hfast hpos⟩
      dsimp only at hl
      rw [hfirst heq] at hl
      cases hl
  · intro hgiven
    obtain ⟨hne, hlatch⟩ := hlatch.mp hgiven
    obtain ⟨l, hl, hle⟩ := h.earned hlatch
    rcases List.mem_cons.mp hl with rfl | hl
    · refine ⟨_, List.mem_cons_self, ?_⟩
      simp only [ProbeLadder.total] at hle ⊢
      omega
    · exact ⟨l, List.mem_cons_of_mem _ hl, hle⟩

/-! ## The table -/

/-- What the table keeps. -/
structure TableInv (c : ProbeCadence) (t : ProbeTable α) : Prop where
  entries : ∀ x ∈ t.peers, EntryInv c x.2
  earliest : ∀ x ∈ t.peers, x.2.probe.resolved = false → t.earliestDueNs ≤ x.2.probe.nextDueNs

omit [DecidableEq α] in
theorem publishEarliest_inv {peers : List (α × ProbeEntry)} (h : ∀ x ∈ peers, EntryInv c x.2) :
    TableInv c (publishEarliest peers) := by
  refine ⟨h, fun x hx hopen => ?_⟩
  have hmem : x.2.probe.nextDueNs ∈ (peers.filter (!·.2.probe.resolved)).map (·.2.probe.nextDueNs) :=
    List.mem_map.mpr ⟨x, List.mem_filter.mpr ⟨hx, by rw [hopen]; rfl⟩, rfl⟩
  unfold publishEarliest
  cases hmin : ((peers.filter (!·.2.probe.resolved)).map (·.2.probe.nextDueNs)).min? with
  | none =>
    rw [List.min?_eq_none_iff] at hmin
    rw [hmin] at hmem
    cases hmem
  | some m => exact (List.le_min?_iff hmin).mp le_rfl _ hmem

theorem modify_inv {peers : List (α × ProbeEntry)} {peer : α} {f : ProbeEntry → ProbeEntry}
    (h : ∀ x ∈ peers, EntryInv c x.2) (hf : ∀ x ∈ peers, x.1 = peer → EntryInv c (f x.2)) :
    ∀ x ∈ modify peers peer f, EntryInv c x.2 := by
  intro y hy
  obtain ⟨x, hx, rfl⟩ := List.mem_map.mp hy
  split_ifs with hpeer
  · exact hf x hx hpeer
  · exact h x hx

variable {t : ProbeTable α}

theorem TableInv.exec (h : t.TableInv c) (step : ProbeStep α) (hv : t.Valid step) (hs : t.Spares c step) :
    (t.exec c step).TableInv c := by
  cases step with
  | setPeers peers =>
    refine publishEarliest_inv fun x hx => ?_
    rcases List.mem_append.mp hx with hx | hx
    · exact h.entries x (List.mem_of_mem_filter hx)
    · obtain ⟨peer, -, rfl⟩ := List.mem_map.mp hx
      exact entryInv_fresh
  | due now =>
    simp only [ProbeTable.exec, ProbeTable.due]
    split_ifs
    · exact h
    · refine publishEarliest_inv fun y hy => ?_
      obtain ⟨x, hx, rfl⟩ := List.mem_map.mp hy
      exact (h.entries x hx).due (hs x hx)
  | onAck sender rung ownMinRung =>
    simp only [ProbeTable.exec, ProbeTable.onAck]
    split_ifs
    · exact h
    · exact publishEarliest_inv (modify_inv h.entries fun x hx _ =>
        ⟨(h.entries x hx).count, (h.entries x hx).kept, (h.entries x hx).earned⟩)
  | onPeerSeen sender =>
    simp only [ProbeTable.exec, ProbeTable.onPeerSeen]
    split
    · exact h
    · split_ifs
      · exact h
      · exact publishEarliest_inv (modify_inv h.entries fun x hx _ => (h.entries x hx).seen)
  | noteUnsentFor peer now ladder =>
    refine publishEarliest_inv (modify_inv h.entries fun x hx hpeer => ?_)
    obtain ⟨rfl | ⟨rfl, hzero⟩, hfirst⟩ := hs x hx hpeer
    · obtain ⟨l, hl, hpos⟩ := hv x hx hpeer
      obtain rfl : x.2.ladder = l := by simpa [ProbeEntry.ladders] using hl
      exact (h.entries x hx).unsent_some hpos hfirst
    · exact (h.entries x hx).unsent_none hzero hfirst
  | sent peer n =>
    have hentries := modify_inv (f := fun e => settle (fun l => ⟨l.out + 1, l.open_ - 1⟩) e n) h.entries
      fun x hx hpeer => (h.entries x hx).sent (hv x hx hpeer)
    refine ⟨hentries, fun y hy hopen => ?_⟩
    obtain ⟨x, hx, rfl⟩ := List.mem_map.mp hy
    have hprobe : ∀ (e : ProbeEntry), (settle (fun l => ⟨l.out + 1, l.open_ - 1⟩) e n).probe = e.probe := by
      intro e
      cases n <;> rfl
    split_ifs at hopen ⊢
    · rw [hprobe] at hopen ⊢
      exact h.earliest x hx hopen
    · exact h.earliest x hx hopen

/-- What the ledger promises at a state. -/
structure Ledger (c : ProbeCadence) (t : ProbeTable α) : Prop where
  /-- The fast attempts went out in one ladder. -/
  latched : ∀ x ∈ t.peers, ∀ l ∈ x.2.ladders, c.fastAttempts ≤ l.out → 0 < l.out →
    x.2.probe.spentFastLadder = true
  /-- In no ladder were they handed out and kept. -/
  unlatched : ∀ x ∈ t.peers, (∀ l ∈ x.2.ladders, l.total < c.fastAttempts) →
    x.2.probe.spentFastLadder = false
  earliest : ∀ x ∈ t.peers, x.2.probe.resolved = false → t.earliestDueNs ≤ x.2.probe.nextDueNs
  handedOut : ∀ now, ∀ x ∈ t.peers, x.2.probe.resolved = false → x.2.probe.nextDueNs ≤ now →
    (x.1, x.2.probe.roundRungs) ∈ (t.due c now).2

end ProbeTable

end UltimaCluster
