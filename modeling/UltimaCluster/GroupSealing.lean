/-
  A leader seals with the epoch it names.

  The schedule holds the last two keys that were installed, by a mint or by a
  delivery; the plane names the epoch to seal under apart from it.  An epoch is
  wanted while `sealing_epoch` may still name it: the pending one, and the active
  one until the pending one activates.
-/
import UltimaCluster.Transport
import UltimaCluster.Lib.Trace

namespace UltimaCluster

/-! ## The schedule -/

namespace KeySchedule

variable {k : KeySchedule} {e n : ℕ} {key key' : GroupKey}

theorem get_install_self (k : KeySchedule) (e : ℕ) (key : GroupKey) :
    (k.install e key).get e = some key := by
  simp [get, install, Option.filter]

theorem get_install_of_current (hne : n ≠ e) (hcur : k.current.map (·.1) = some e)
    (hget : k.get e = some key) : (k.install n key').get e = some key := by
  obtain ⟨⟨_, held⟩, hheld, rfl⟩ := Option.map_eq_some_iff.mp hcur
  have heq : held = key := by simpa [get, hheld, Option.filter] using hget
  simp [get, install, Option.filter, hne, hheld, heq]

end KeySchedule

/-! ## The plane -/

namespace GroupPlane

variable {g : GroupPlane} {now later e : ℕ}

theorem isActivated_mono {p : PendingEpoch} (hle : now ≤ later) (h : isActivated p now) :
    isActivated p later := by
  simp only [isActivated, Bool.or_eq_true, decide_eq_true_eq] at h ⊢
  exact h.imp id fun h => by omega

/-- The epochs that `sealing_epoch` may name from `now` on, without another mint. -/
def wanted (g : GroupPlane) (now : ℕ) : List ℕ :=
  g.pending.toList.map (·.epoch) ++
    if g.pending.any (isActivated · now) then [] else g.activeEpoch.toList

theorem mem_wanted : e ∈ g.wanted now ↔ (∃ p, g.pending = some p ∧ p.epoch = e) ∨
      g.activeEpoch = some e ∧ ∀ p, g.pending = some p → ¬ isActivated p now := by
  cases hp : g.pending with
  | none => simp [wanted, hp]
  | some p =>
    by_cases hact : isActivated p now
    · simp [wanted, hp, hact, @eq_comm ℕ e]
    · simp [wanted, hp, hact, @eq_comm ℕ e]

theorem mem_wanted_of_le (hle : now ≤ later) (h : e ∈ g.wanted later) : e ∈ g.wanted now := by
  rw [mem_wanted] at h ⊢
  exact h.imp id fun ⟨hact, hpend⟩ => ⟨hact, fun p hp hnow => hpend p hp (isActivated_mono hle hnow)⟩

theorem mem_wanted_of_sealingEpoch (h : g.sealingEpoch now = some e) : e ∈ g.wanted now := by
  rw [mem_wanted]
  rw [sealingEpoch] at h
  split at h
  · rename_i p hp
    split_ifs at h with hact
    · exact .inl ⟨p, hp, Option.some.inj h⟩
    · refine .inr ⟨h, fun q hq => ?_⟩
      rw [hp] at hq
      cases hq
      exact hact
  · rename_i hnone
    refine .inr ⟨h, fun q hq => ?_⟩
    rw [hnone] at hq
    cases hq

theorem foldPendingIfActivated_eq (g : GroupPlane) (now : ℕ) : g.foldPendingIfActivated now =
      { g with activeEpoch := g.sealingEpoch now, pending := none } := by
  rw [foldPendingIfActivated, sealingEpoch]
  split
  · split_ifs <;> rfl
  · rename_i hnone
    rw [← hnone]

/-- The clock of a mint: that of the epoch it supersedes, if this never activated. -/
def mintClock (g : GroupPlane) (now : ℕ) : ℕ :=
  ((g.pending.filter fun p => ¬ isActivated p now).map (·.mintedAt)).getD now

theorem mintGated_fst (g : GroupPlane) (peers gateOn : List NodeId) (now : ℕ) (key : GroupKey) :
    (g.mintGated peers gateOn now key).1 =
      { schedule := g.schedule.install g.nextEpoch key
        nextEpoch := if (g.nextEpoch + 1) % 2 ^ 16 = 0 then 1 else (g.nextEpoch + 1) % 2 ^ 16
        activeEpoch := g.sealingEpoch now
        pending := some ⟨g.nextEpoch, g.mintClock now, peers.filter (· ∈ gateOn), []⟩ } := by
  simp only [mintGated, mint, foldPendingIfActivated_eq]
  rfl

theorem mint_fst (g : GroupPlane) (peers : List NodeId) (now : ℕ) (key : GroupKey) :
    (g.mint peers now key).1 = (g.mintGated peers peers now key).1 := by
  rw [mintGated_fst, List.filter_eq_self.mpr (by simp)]
  simp only [mint, foldPendingIfActivated_eq]
  rfl

theorem mem_wanted_onAck {sender : NodeId} {epoch : ℕ}
    (h : e ∈ (g.onAck sender epoch).wanted now) : e ∈ g.wanted now := by
  rw [onAck] at h
  split at h
  · rename_i p hp
    split_ifs at h
    · rw [mem_wanted] at h ⊢
      obtain ⟨q, hq, rfl⟩ | ⟨hact, hpend⟩ := h
      · cases hq
        exact .inl ⟨p, hp, rfl⟩
      · refine .inr ⟨hact, fun q hq hon => hpend _ rfl ?_⟩
        rw [hp] at hq
        cases hq
        simp only [isActivated, Bool.or_eq_true, decide_eq_true_eq, List.all_eq_true,
          List.mem_append] at hon ⊢
        exact hon.imp (fun hall x hx => .inl (hall x hx)) id
    · exact h
  · exact h

@[simp]
theorem onAck_schedule (g : GroupPlane) (sender : NodeId) (epoch : ℕ) :
    (g.onAck sender epoch).schedule = g.schedule := by
  rw [onAck]
  split
  · split_ifs <;> rfl
  · rfl

end GroupPlane

/-! ## The life of a plane -/

/-- A transport over its mints, its acks, the key messages it takes and its seals, with the last
    key minted under each number. -/
structure GroupLife where
  transport : SharedTransport
  /-- When the last call was made. -/
  now : ℕ
  /-- The last key this process minted under a number. -/
  minted : ℕ → Option GroupKey

/-- A call on the group plane. -/
inductive GroupCall where
  | mint (peers : List NodeId) (key : GroupKey)
  | mintGated (peers gateOn : List NodeId) (key : GroupKey)
  | onAck (sender : NodeId) (epoch : ℕ)
  | onKeyMessage (sender : NodeId) (body : Bytes)
  /-- The cached seal, of the send half. -/
  | sealGroup (buf : Bytes)
  /-- The seal without a cache. -/
  | sealGroupControl (buf : Bytes)
deriving DecidableEq

namespace GroupLife

def start (peers : Peers) : GroupLife := ⟨.new peers, 0, fun _ => none⟩

/-- A mint gives the next number its key. -/
def withMint (s : GroupLife) (now : ℕ) (group : GroupPlane) (key : GroupKey) : GroupLife :=
  { transport := { s.transport with group }
    now
    minted := Function.update s.minted s.transport.group.nextEpoch (some key) }

/-- One call on the transport. -/
def exec (s : GroupLife) : ℕ × GroupCall → GroupLife
  | (now, .mint peers key) => s.withMint now (s.transport.group.mint peers now key).1 key
  | (now, .mintGated peers gateOn key) =>
    s.withMint now (s.transport.group.mintGated peers gateOn now key).1 key
  | (now, .onAck sender epoch) =>
    { s with
      transport := { s.transport with group := s.transport.group.onAck sender epoch }
      now }
  | (now, .onKeyMessage sender body) =>
    { s with
      transport := { s.transport with group := (s.transport.group.onKeyMessage sender body).1 }
      now }
  | (now, .sealGroup buf) => { s with transport := (s.transport.sealGroup buf now).1, now }
  | (now, .sealGroupControl buf) =>
    { s with transport := (s.transport.sealGroupControl buf now).1, now }

def run (s : GroupLife) (calls : List (ℕ × GroupCall)) : GroupLife := calls.foldl exec s

/-- The epoch of the current entry of the schedule. -/
def currentEpoch (s : GroupLife) : Option ℕ := s.transport.group.schedule.current.map (·.1)

/-- A mint on which some of `gate` have to ack: the epoch that is sealed under in
    the meantime is the current entry.  The cached cipher is of another number. -/
def MintSpares (s : GroupLife) (now : ℕ) (gate : List NodeId) : Prop :=
  (gate = [] ∨ ∀ e ∈ s.transport.group.sealingEpoch now, s.currentEpoch = some e) ∧
    s.transport.sealCache.map (·.1) ≠ some s.transport.group.nextEpoch

/-- A delivery under the number of a wanted epoch brings the key the schedule has
    for it; one under another number finds the wanted epoch in the current entry. -/
def DeliverySpares (s : GroupLife) (now n : ℕ) (key : GroupKey) : Prop :=
  ∀ e ∈ s.transport.group.wanted now,
    if n = e then s.transport.group.schedule.get e = some key else s.currentEpoch = some e

/-- `now` is not before the last call, and the call takes no wanted key away. -/
def Spares (s : GroupLife) : ℕ × GroupCall → Prop
  | (now, .mint peers _) => s.now ≤ now ∧ s.MintSpares now peers
  | (now, .mintGated peers gateOn _) => s.now ≤ now ∧ s.MintSpares now (peers.filter (· ∈ gateOn))
  | (now, .onKeyMessage _ body) =>
    s.now ≤ now ∧
      (body.head? = some 0 ∧ body.length = keyMsgLen →
        s.DeliverySpares now (Bytes.num body 1 3) (body.drop 3))
  | (now, _) => s.now ≤ now

instance (s : GroupLife) (now : ℕ) (gate : List NodeId) : Decidable (s.MintSpares now gate) :=
  inferInstanceAs (Decidable ((_ ∨ _) ∧ _))

instance (s : GroupLife) (now n : ℕ) (key : GroupKey) : Decidable (s.DeliverySpares now n key) :=
  inferInstanceAs (Decidable (∀ e ∈ s.transport.group.wanted now,
    if n = e then s.transport.group.schedule.get e = some key else s.currentEpoch = some e))

instance (s : GroupLife) : (call : ℕ × GroupCall) → Decidable (s.Spares call)
  | (_, .mint _ _) | (_, .mintGated _ _ _) => inferInstanceAs (Decidable (_ ∧ _))
  | (_, .onKeyMessage _ _) => inferInstanceAs (Decidable (_ ∧ (_ → _)))
  | (_, .onAck _ _) | (_, .sealGroup _) | (_, .sealGroupControl _) =>
    inferInstanceAs (Decidable (_ ≤ _))

/-- Every call of the run spares the wanted keys where it is made. -/
def Runs (s : GroupLife) (calls : List (ℕ × GroupCall)) : Prop := Trace.Admits exec Spares s calls

instance (s : GroupLife) (calls : List (ℕ × GroupCall)) : Decidable (s.Runs calls) :=
  inferInstanceAs (Decidable (Trace.Admits exec Spares s calls))

/-! ## The invariant -/

/-- The wanted epochs are held. -/
structure Inv (s : GroupLife) : Prop where
  held : ∀ e ∈ s.transport.group.wanted s.now,
    ∃ key, s.minted e = some key ∧ s.transport.group.schedule.get e = some key
  cached : ∀ e k, s.transport.sealCache = some (e, k) →
    ∃ key, s.minted e = some key ∧
      k = deriveSendKey key s.transport.peers.selfId s.transport.peers.bootSalt

variable {s : GroupLife} {now e : ℕ}

theorem inv_start (peers : Peers) : (start peers).Inv where
  held := by
    intro e he
    cases he
  cached := by
    rintro e k h
    cases h

theorem Inv.named (hinv : s.Inv) (hle : s.now ≤ now)
    (h : s.transport.group.sealingEpoch now = some e) :
    ∃ key, s.minted e = some key ∧ s.transport.group.schedule.get e = some key :=
  hinv.held e (GroupPlane.mem_wanted_of_le hle (GroupPlane.mem_wanted_of_sealingEpoch h))

theorem Inv.mintGated (hinv : s.Inv) (hle : s.now ≤ now) {peers gateOn : List NodeId}
    (hspare : s.MintSpares now (peers.filter (· ∈ gateOn))) (key : GroupKey) :
    (s.withMint now (s.transport.group.mintGated peers gateOn now key).1 key).Inv := by
  obtain ⟨hgate, hcache⟩ := hspare
  rw [GroupPlane.mintGated_fst]
  constructor
  · intro e he
    obtain ⟨p, hp, rfl⟩ | ⟨hact, hpend⟩ := GroupPlane.mem_wanted.mp he
    · cases hp
      exact ⟨key, by simp [withMint], KeySchedule.get_install_self _ _ _⟩
    · -- the new epoch waits for an ack, so the old one has to be the current entry
      have hwait : peers.filter (· ∈ gateOn) ≠ [] := fun hnil =>
        hpend _ rfl (by simp [GroupPlane.isActivated, hnil])
      obtain ⟨old, hold, hget⟩ := hinv.named hle hact
      by_cases hnum : s.transport.group.nextEpoch = e
      · subst hnum
        exact ⟨key, by simp [withMint], KeySchedule.get_install_self _ _ _⟩
      · refine ⟨old, ?_, KeySchedule.get_install_of_current hnum ((hgate.resolve_left hwait) e hact) hget⟩
        simpa [withMint, Function.update_of_ne (Ne.symm hnum)] using hold
  · intro e k hk
    dsimp only [withMint] at hk ⊢
    obtain ⟨old, hold, rfl⟩ := hinv.cached e k hk
    have hnum : e ≠ s.transport.group.nextEpoch := by
      rintro rfl
      exact hcache (by rw [hk]; rfl)
    exact ⟨old, by rw [Function.update_of_ne hnum, hold], rfl⟩

theorem Inv.of_group (hinv : s.Inv) (hle : s.now ≤ now) (group : GroupPlane)
    (hwant : ∀ e ∈ group.wanted now, e ∈ s.transport.group.wanted now)
    (hget : ∀ e key, e ∈ s.transport.group.wanted now → s.transport.group.schedule.get e = some key →
      group.schedule.get e = some key) :
    Inv { s with transport := { s.transport with group }, now } where
  held e he := by
    have hwanted := hwant e he
    obtain ⟨key, hminted, hheld⟩ := hinv.held e (GroupPlane.mem_wanted_of_le hle hwanted)
    exact ⟨key, hminted, hget e key hwanted hheld⟩
  cached := hinv.cached

theorem Inv.onAck (hinv : s.Inv) (hle : s.now ≤ now) (sender : NodeId) (epoch : ℕ) : Inv { s with
      transport := { s.transport with group := s.transport.group.onAck sender epoch }
      now } :=
  hinv.of_group hle _ (fun _ => GroupPlane.mem_wanted_onAck) fun e key _ hget => by
    rwa [GroupPlane.onAck_schedule]

theorem Inv.onKeyMessage (hinv : s.Inv) (hle : s.now ≤ now) (sender : NodeId) (body : Bytes)
    (hspare : body.head? = some 0 ∧ body.length = keyMsgLen →
      s.DeliverySpares now (Bytes.num body 1 3) (body.drop 3)) :
    Inv { s with
      transport := { s.transport with group := (s.transport.group.onKeyMessage sender body).1 }
      now } := by
  simp only [GroupPlane.onKeyMessage]
  split_ifs with hkey hack
  · refine hinv.of_group hle _ (fun _ h => h) fun e key hwanted hget => ?_
    have hdelivery := hspare hkey e hwanted
    split_ifs at hdelivery with hnum
    · rw [hget, Option.some.injEq] at hdelivery
      subst hnum hdelivery
      exact KeySchedule.get_install_self _ _ _
    · exact KeySchedule.get_install_of_current hnum hdelivery hget
  · exact hinv.onAck hle sender _
  · exact hinv.of_group hle _ (fun _ h => h) fun _ _ _ h => h

theorem Inv.at_ (hinv : s.Inv) (hle : s.now ≤ now) : Inv { s with now } :=
  hinv.of_group hle s.transport.group (fun _ h => h) fun _ _ _ h => h

/-- The key that the process seals with under the epoch `e`. -/
def sendKey (s : GroupLife) (key : GroupKey) : AesKey :=
  deriveSendKey key s.transport.peers.selfId s.transport.peers.bootSalt

theorem Inv.groupSealCipher (hinv : s.Inv) {key : GroupKey} (hminted : s.minted e = some key)
    (hget : s.transport.group.schedule.get e = some key) (counter : ℕ) :
    { s.transport with counter }.groupSealCipher e =
      ({ s.transport with counter, sealCache := some (e, s.sendKey key) }, .ok (s.sendKey key)) := by
  rw [SharedTransport.groupSealCipher]
  dsimp only
  cases hcache : s.transport.sealCache with
  | none => simp [Option.filter, hget, sendKey]
  | some c =>
    obtain ⟨n, k⟩ := c
    by_cases hnum : n = e
    · subst hnum
      obtain ⟨own, hown, rfl⟩ := hinv.cached n k hcache
      rw [hminted, Option.some.injEq] at hown
      subst hown
      simp [Option.filter, sendKey]
    · simp [Option.filter, hnum, hget, sendKey]

/-- A cached seal of a full header, under an epoch whose minted key is held. -/
theorem Inv.sealGroup_eq (hinv : s.Inv) {key : GroupKey} {buf : Bytes}
    (hlen : datagramHeaderLen ≤ buf.length) (hname : s.transport.group.sealingEpoch now = some e)
    (hminted : s.minted e = some key) (hget : s.transport.group.schedule.get e = some key) :
    s.transport.sealGroup buf now = ({ s.transport with
          counter := s.transport.nextCounter.2, sealCache := some (e, s.sendKey key) },
        sealWith (stampEpoch buf e) (s.sendKey key) s.transport.nextCounter.2) := by
  rw [SharedTransport.sealGroup, if_neg (by omega), hname]
  dsimp only [SharedTransport.nextCounter]
  rw [hinv.groupSealCipher hminted hget]

theorem sealGroupControl_eq {key : GroupKey} {buf : Bytes} (hlen : datagramHeaderLen ≤ buf.length)
    (hname : s.transport.group.sealingEpoch now = some e)
    (hget : s.transport.group.schedule.get e = some key) :
    s.transport.sealGroupControl buf now =
      ({ s.transport with counter := s.transport.nextCounter.2 },
        sealWith (stampEpoch buf e) (s.sendKey key) s.transport.nextCounter.2) := by
  rw [SharedTransport.sealGroupControl, if_neg (by omega), hname]
  dsimp only
  rw [hget]
  rfl

theorem Inv.sealGroup (hinv : s.Inv) (hle : s.now ≤ now) (buf : Bytes) :
    Inv { s with transport := (s.transport.sealGroup buf now).1, now } := by
  by_cases hlen : buf.length < datagramHeaderLen
  · rw [SharedTransport.sealGroup, if_pos hlen]
    exact hinv.at_ hle
  cases hname : s.transport.group.sealingEpoch now with
  | none =>
    rw [SharedTransport.sealGroup, if_neg hlen, hname]
    exact hinv.at_ hle
  | some e =>
    obtain ⟨key, hminted, hget⟩ := hinv.named hle hname
    rw [hinv.sealGroup_eq (by omega) hname hminted hget]
    constructor
    · exact (hinv.at_ hle).held
    · rintro n k hk
      cases hk
      exact ⟨key, hminted, rfl⟩

theorem Inv.sealGroupControl (hinv : s.Inv) (hle : s.now ≤ now) (buf : Bytes) :
    Inv { s with transport := (s.transport.sealGroupControl buf now).1, now } := by
  by_cases hlen : buf.length < datagramHeaderLen
  · rw [SharedTransport.sealGroupControl, if_pos hlen]
    exact hinv.at_ hle
  cases hname : s.transport.group.sealingEpoch now with
  | none =>
    rw [SharedTransport.sealGroupControl, if_neg hlen, hname]
    exact hinv.at_ hle
  | some e =>
    obtain ⟨key, hminted, hget⟩ := hinv.named hle hname
    rw [sealGroupControl_eq (by omega) hname hget]
    exact ⟨(hinv.at_ hle).held, hinv.cached⟩

theorem Inv.exec (hinv : s.Inv) (call : ℕ × GroupCall) (hspare : s.Spares call) :
    (s.exec call).Inv := by
  obtain ⟨now, c⟩ := call
  cases c with
  | mint peers key =>
    obtain ⟨hle, hspare⟩ := hspare
    rw [GroupLife.exec, GroupPlane.mint_fst]
    exact hinv.mintGated hle (by rwa [List.filter_eq_self.mpr (by simp)]) key
  | mintGated peers gateOn key => exact hinv.mintGated hspare.1 hspare.2 key
  | onAck sender epoch => exact hinv.onAck hspare sender epoch
  | onKeyMessage sender body => exact hinv.onKeyMessage hspare.1 sender body hspare.2
  | sealGroup buf => exact hinv.sealGroup hspare buf
  | sealGroupControl buf => exact hinv.sealGroupControl hspare buf

theorem inv_run {peers : Peers} {calls : List (ℕ × GroupCall)} (h : (start peers).Runs calls) :
    ((start peers).run calls).Inv := by
  refine Trace.Admits.rule (P := fun calls => ((start peers).run calls).Inv) (inv_start peers)
    (fun calls call hinv hspare => ?_) h
  rw [run, List.foldl_append]
  exact hinv.exec call hspare

/-- The claim of the plane at a state, for the times from the last call on. -/
def SealsAsNamed (s : GroupLife) : Prop :=
  ∀ now e, s.now ≤ now → s.transport.group.sealingEpoch now = some e →
    ∃ key, s.minted e = some key ∧ s.transport.group.schedule.get e = some key ∧
      ∀ buf : Bytes, datagramHeaderLen ≤ buf.length →
        (s.transport.sealGroup buf now).2 =
            sealWith (stampEpoch buf e) (s.sendKey key) s.transport.nextCounter.2 ∧
          (s.transport.sealGroupControl buf now).2 =
            sealWith (stampEpoch buf e) (s.sendKey key) s.transport.nextCounter.2

/-- While every call spares the wanted keys, the schedule has the minted key of
    the epoch that is named, and both seals use it. -/
theorem sealing_key_held (peers : Peers) (calls : List (ℕ × GroupCall))
    (h : (start peers).Runs calls) : ((start peers).run calls).SealsAsNamed := by
  intro now e hle hname
  have hinv := inv_run h
  obtain ⟨key, hminted, hget⟩ := hinv.named hle hname
  refine ⟨key, hminted, hget, fun buf hlen => ⟨?_, ?_⟩⟩
  · rw [hinv.sealGroup_eq hlen hname hminted hget]
  · rw [sealGroupControl_eq hlen hname hget]

/-- A node with an empty allowlist. -/
def loneNode : Peers := .new [5] ⟨[], 0, 0⟩ 1 (by decide) ⟨List.replicate 16 7, by decide⟩

/-- The first epoch activates at once, the second when its peer acks; a key of
    another leader comes while the second is the current entry. -/
def rotation : List (ℕ × GroupCall) :=
  [(0, .mint [] (List.replicate 32 1)), (1, .sealGroup (List.replicate 16 0)),
    (2, .mintGated [8, 9] [9] (List.replicate 32 2)), (3, .onAck 9 2),
    (4, .onKeyMessage 9 (encodeKeyDelivery 7 (List.replicate 32 3))),
    (5, .sealGroup (List.replicate 16 0))]

theorem sealing_key_held_rotation : (start loneNode).Runs rotation ∧
      ((start loneNode).run rotation).transport.group.sealingEpoch 6 = some 2 ∧
        ((start loneNode).run rotation).SealsAsNamed := by
  have hruns : (start loneNode).Runs rotation := by decide +kernel
  exact ⟨hruns, by decide +kernel, sealing_key_held loneNode rotation hruns⟩

/-- Two mints that wait for an ack after one that did not. -/
def supersededMints : List (ℕ × GroupCall) :=
  [(0, .mint [] (List.replicate 32 1)), (1, .mint [9] (List.replicate 32 2)),
    (2, .mint [9] (List.replicate 32 3))]

/-- The third mint takes the key of the first out of the schedule, and the plane
    still names the first. -/
theorem superseded_mint_evicts : ¬ ∀ (peers : Peers) (calls : List (ℕ × GroupCall)),
      (calls.map (·.1)).Pairwise (· ≤ ·) → ((start peers).run calls).SealsAsNamed := by
  intro h
  have hname : ((start loneNode).run supersededMints).transport.group.sealingEpoch 2 = some 1 := by
    decide +kernel
  have hgone : ((start loneNode).run supersededMints).transport.group.schedule.get 1 = none := by
    decide +kernel
  obtain ⟨key, -, hget, -⟩ := h loneNode supersededMints (by decide) 2 1 (by decide) hname
  rw [hgone] at hget
  cases hget

end GroupLife

end UltimaCluster
