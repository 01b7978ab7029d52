/-
  The laws of the codecs: what a decoder accepts is what an encoder writes,
  records of older versions and ignored bytes apart.

  `Fits` says that a record's values fit the fields of its layout and pass the
  decoder's checks.  For each record `decode_encode` reads back what was
  written, and `encode_of_decode` says which bytes were read.
-/
import UltimaCluster.Wire

namespace UltimaCluster

open List (append_nil drop_drop drop_left length_append length_drop length_ofFn ofFn)
open Option (bind_eq_bind bind_eq_some_iff bind_some)

open Bytes

/-! ## Membership -/

/-- A member's id, address and port. -/
def memberFits (m : NodeId × Addr) : Prop := m.1 < 2 ^ 32 ∧ m.2.1 < 2 ^ 32 ∧ m.2.2 < 2 ^ 16

/-- What `encode` can write. -/
structure ClusterConfig.Fits (c : ClusterConfig) : Prop where
  version : c.version < 2 ^ 64
  members : c.voters.length + c.learners.length ≤ maxMembers
  tombstones : c.tombstones.length < 2 ^ 16
  voter : ∀ m ∈ c.voters, memberFits m
  learner : ∀ m ∈ c.learners, memberFits m
  tombstone : ∀ t ∈ c.tombstones, t < 2 ^ 32

variable {m : NodeId × Addr}

theorem decodeMember_encodeMember (h : memberFits m) : decodeMember (encodeMember m) = some m := by
  obtain ⟨hid, hip, hport⟩ := h
  have e₁ : num (encodeMember m) 0 4 = m.1 := val_le (w := 4) (by omega)
  have e₂ : num (encodeMember m) 4 8 = m.2.1 := val_le (w := 4) (by omega)
  have e₃ : num (encodeMember m) 8 10 = m.2.2 := val_le (w := 2) (by omega)
  simp [decodeMember, e₁, e₂, e₃]

variable {b : Bytes}

theorem encodeMember_of_decodeMember (hb : b.length = 10) (h : decodeMember b = some m) :
    encodeMember m = b := by
  cases h
  simp only [encodeMember]
  simp (disch := omega) only [le_num, slice_append, slice_all]

theorem memberFits_of_decodeMember (h : decodeMember b = some m) : memberFits m := by
  cases h
  exact ⟨num_lt b 0 4, num_lt b 4 8, num_lt b 8 10⟩

theorem le_of_decodeTombstone {t : NodeId} (hb : b.length = 4) (h : decodeTombstone b = some t) :
    le 4 t = b := by
  cases h
  rw [le_num (by rfl) (by omega), slice_all hb]

theorem readN_members {ms : List (NodeId × Addr)} (h : ∀ m ∈ ms, memberFits m) (rest : Bytes) :
    readN decodeMember 10 ms.length (ms.flatMap encodeMember ++ rest) = some ms := by
  refine readN_flatMap ?_ rest
  intro m hm
  exact ⟨rfl, decodeMember_encodeMember (h m hm)⟩

theorem readN_tombstones {ts : List NodeId} (h : ∀ t ∈ ts, t < 2 ^ 32) (rest : Bytes) :
    readN decodeTombstone 4 ts.length (ts.flatMap (le 4) ++ rest) = some ts := by
  refine readN_flatMap ?_ rest
  intro t ht
  have hval : num (le 4 t) 0 4 = t := val_le (w := 4) (h t ht)
  exact ⟨rfl, congrArg some hval⟩

theorem length_encodeConfig (c : ClusterConfig) (prev : ℕ) :
    (encodeConfig c prev).length =
      22 + (c.voters.length + c.learners.length) * 10 + c.tombstones.length * 4 := by
  have hm : ((c.voters ++ c.learners).flatMap encodeMember).length =
      (c.voters ++ c.learners).length * 10 := length_flatMap fun _ _ => rfl
  have ht : (c.tombstones.flatMap (le 4)).length = c.tombstones.length * 4 :=
    length_flatMap fun _ _ => rfl
  rw [length_append] at hm
  rw [encodeConfig, length_append, length_append, hm, ht]
  rfl

theorem decodeConfig_encodeConfig {c : ClusterConfig} {prev : ℕ} (h : c.Fits)
    (hprev : prev < 2 ^ 64) : decodeConfig (encodeConfig c prev) = some (c, prev) := by
  have hmax : maxMembers = 8 := rfl
  have hmem := h.members
  have e₀ : num (encodeConfig c prev) 0 8 = c.version := val_le (w := 8) h.version
  have e₁ : num (encodeConfig c prev) 8 16 = prev := val_le (w := 8) hprev
  have e₂ : num (encodeConfig c prev) 16 18 = c.voters.length := val_le (w := 2) (by omega)
  have e₃ : num (encodeConfig c prev) 18 20 = c.learners.length := val_le (w := 2) (by omega)
  have e₄ : num (encodeConfig c prev) 20 22 = c.tombstones.length := val_le (w := 2) h.tombstones
  have d₁ : (encodeConfig c prev).drop 22 =
      c.voters.flatMap encodeMember ++ (c.learners.flatMap encodeMember ++
        (c.tombstones.flatMap (le 4) ++ [])) := by
    have : (encodeConfig c prev).drop 22 =
      (c.voters ++ c.learners).flatMap encodeMember ++ c.tombstones.flatMap (le 4) := rfl
    rw [this, List.flatMap_append, List.append_assoc, append_nil]
  have lv : (c.voters.flatMap encodeMember).length = c.voters.length * 10 :=
    length_flatMap fun _ _ => rfl
  have ll : (c.learners.flatMap encodeMember).length = c.learners.length * 10 :=
    length_flatMap fun _ _ => rfl
  have d₂ : (encodeConfig c prev).drop (22 + c.voters.length * 10) =
      c.learners.flatMap encodeMember ++ (c.tombstones.flatMap (le 4) ++ []) := by
    rw [← drop_drop, d₁, ← lv, drop_left]
  have d₃ : (encodeConfig c prev).drop (22 + (c.voters.length + c.learners.length) * 10) =
      c.tombstones.flatMap (le 4) ++ [] := by
    rw [Nat.add_mul, ← Nat.add_assoc, ← drop_drop, d₂, ← ll, drop_left]
  have hlen := length_encodeConfig c prev
  have hge : ¬ (encodeConfig c prev).length < 22 := by omega
  rw [decodeConfig, if_neg hge]
  simp only [e₀, e₁, e₂, e₃, e₄]
  rw [if_neg (by omega), if_neg (by simpa using hlen), d₁, d₂, d₃, readN_members h.voter,
    readN_members h.learner, readN_tombstones h.tombstone]
  rfl

theorem encodeConfig_of_decodeConfig {c : ClusterConfig} {prev : ℕ}
    (h : decodeConfig b = some (c, prev)) : c.Fits ∧ prev < 2 ^ 64 ∧ encodeConfig c prev = b := by
  unfold decodeConfig at h
  split at h
  · cases h
  simp only at h
  split at h
  · cases h
  split at h
  · cases h
  rename_i hlen
  simp only [bind_eq_bind, bind_eq_some_iff] at h
  obtain ⟨voters, hv, learners, hl, tombstones, ht, heq⟩ := h
  cases heq
  rw [not_not] at hlen
  obtain ⟨nv, fv, av⟩ := readN_eq_some (fun _ _ => encodeMember_of_decodeMember)
    (by rw [length_drop]; omega) hv
  obtain ⟨nl, fl, al⟩ := readN_eq_some (fun _ _ => encodeMember_of_decodeMember)
    (by rw [length_drop]; omega) hl
  obtain ⟨nt, ft, at'⟩ := readN_eq_some (fun _ _ => le_of_decodeTombstone)
    (by rw [length_drop]; omega) ht
  refine ⟨?_, num_lt b 8 16, ?_⟩
  · exact {
      version := num_lt b 0 8
      members := by rw [nv, nl]; omega
      tombstones := nt ▸ num_lt b 20 22
      voter := fun m hm => (av m hm).elim fun _ hc => memberFits_of_decodeMember hc.2
      learner := fun m hm => (al m hm).elim fun _ hc => memberFits_of_decodeMember hc.2
      tombstone := by
        intro t ht
        obtain ⟨_, _, hc⟩ := at' t ht
        cases hc
        exact num_lt _ 0 4 }
  · rw [take_drop] at fv fl ft
    simp only [encodeConfig, List.flatMap_append, fv, fl, ft, nv, nl, nt]
    rw [Nat.add_mul, ← Nat.add_assoc]
    simp (disch := omega) only [le_num, slice_append, slice_all]

/-! ## The schedule table -/

/-- The period is not zero, the second is one of the day. -/
def ScheduleRule.Fits : ScheduleRule → Prop
  | every periodNs anchorNs => 0 < periodNs ∧ periodNs < 2 ^ 64 ∧ anchorNs < 2 ^ 64
  | dailyAt secsOfDay => secsOfDay < 86400
  | once atNs => atNs < 2 ^ 64

/-- What an entry's bytes can hold. -/
structure ScheduleEntry.Fits (e : ScheduleEntry) : Prop where
  identityHash : e.identityHash < 2 ^ 64
  timerId : e.timerId < 2 ^ 64
  rule : e.rule.Fits

/-- What `encode` can write. -/
structure ScheduleTable.Fits (t : ScheduleTable) : Prop where
  bounded : t.entries.length ≤ maxScheduleEntries
  entry : ∀ e ∈ t.entries, e.Fits
  distinct : ScheduleTable.timersDistinct t.entries

variable {e : ScheduleEntry}

theorem decodeScheduleEntry_encodeScheduleEntry (h : e.Fits) :
    decodeScheduleEntry (encodeScheduleEntry e) = some e := by
  obtain ⟨hash, timer, rule⟩ := e
  have e₁ : num (encodeScheduleEntry ⟨hash, timer, rule⟩) 0 8 = hash :=
    val_le (w := 8) h.identityHash
  have e₂ : num (encodeScheduleEntry ⟨hash, timer, rule⟩) 8 16 = timer := val_le (w := 8) h.timerId
  have hr : rule.Fits := h.rule
  cases rule with
  | every period anchor =>
    obtain ⟨hpos, hp, ha⟩ := hr
    have e₃ : at_ (encodeScheduleEntry ⟨hash, timer, .every period anchor⟩) 16 = 1 := rfl
    have e₄ : num (encodeScheduleEntry ⟨hash, timer, .every period anchor⟩) 17 25 = period :=
      val_le (w := 8) hp
    have e₅ : num (encodeScheduleEntry ⟨hash, timer, .every period anchor⟩) 25 33 = anchor :=
      val_le (w := 8) ha
    simp [decodeScheduleEntry, e₁, e₂, e₃, e₄, e₅, hpos]
  | dailyAt secs =>
    have hs : secs < 86400 := hr
    have e₃ : at_ (encodeScheduleEntry ⟨hash, timer, .dailyAt secs⟩) 16 = 2 := rfl
    have e₄ : num (encodeScheduleEntry ⟨hash, timer, .dailyAt secs⟩) 17 25 = secs :=
      val_le (w := 8) (show secs < 2 ^ 64 by omega)
    have e₅ : num (encodeScheduleEntry ⟨hash, timer, .dailyAt secs⟩) 25 33 = 0 :=
      val_le (w := 8) (n := 0) (by decide)
    simp [decodeScheduleEntry, e₁, e₂, e₃, e₄, e₅, hs]
  | once at_ns =>
    have e₃ : at_ (encodeScheduleEntry ⟨hash, timer, .once at_ns⟩) 16 = 3 := rfl
    have e₄ : num (encodeScheduleEntry ⟨hash, timer, .once at_ns⟩) 17 25 = at_ns :=
      val_le (w := 8) hr
    have e₅ : num (encodeScheduleEntry ⟨hash, timer, .once at_ns⟩) 25 33 = 0 :=
      val_le (w := 8) (n := 0) (by decide)
    simp [decodeScheduleEntry, e₁, e₂, e₃, e₄, e₅]

theorem decodeScheduleEntry_rule (h : decodeScheduleEntry b = some e) :
    e.identityHash = num b 0 8 ∧ e.timerId = num b 8 16 ∧ e.rule.Fits ∧
      e.rule.fields = (at_ b 16, num b 17 25, num b 25 33) := by
  simp only [decodeScheduleEntry, Option.map_eq_some_iff] at h
  obtain ⟨rule, hrule, rfl⟩ := h
  refine ⟨rfl, rfl, ?_⟩
  split at hrule
  · rename_i hk
    cases hrule
    exact ⟨⟨hk.2, num_lt b 17 25, num_lt b 25 33⟩, by simp [ScheduleRule.fields, hk.1]⟩
  split at hrule
  · rename_i hk
    cases hrule
    exact ⟨hk.2.1, by simp [ScheduleRule.fields, hk.1, hk.2.2]⟩
  split at hrule
  · rename_i hk
    cases hrule
    exact ⟨num_lt b 17 25, by simp [ScheduleRule.fields, hk.1, hk.2]⟩
  · cases hrule

theorem encodeScheduleEntry_of_decodeScheduleEntry (hb : b.length = 33)
    (h : decodeScheduleEntry b = some e) : encodeScheduleEntry e = b := by
  obtain ⟨hhash, htimer, -, hfields⟩ := decodeScheduleEntry_rule h
  simp only [encodeScheduleEntry, hhash, htimer, hfields, at_]
  simp (disch := omega) only [le_num, slice_append, slice_all]

theorem ScheduleEntry.fits_of_decode (h : decodeScheduleEntry b = some e) : e.Fits := by
  obtain ⟨hhash, htimer, hrule, -⟩ := decodeScheduleEntry_rule h
  exact ⟨hhash ▸ num_lt b 0 8, htimer ▸ num_lt b 8 16, hrule⟩

theorem length_scheduleBytes {pad : Bytes} (hpad : pad.length = 2) (t : ScheduleTable) :
    (scheduleBytes pad t).length = 8 + t.entries.length * 33 := by
  have h : (t.entries.flatMap encodeScheduleEntry).length = t.entries.length * 33 :=
    length_flatMap fun _ _ => rfl
  simp only [scheduleBytes, length_append, length_le, h, hpad]

theorem decodeScheduleTable_scheduleBytes {t : ScheduleTable} {pad : Bytes} (h : t.Fits)
    (hpad : pad.length = 2) : decodeScheduleTable (scheduleBytes pad t) = some t := by
  have hmax : maxScheduleEntries = 32 := rfl
  have hb := h.bounded
  have hlen := length_scheduleBytes hpad t
  have e₁ : num (scheduleBytes pad t) 0 4 = 1 := rfl
  have e₂ : num (scheduleBytes pad t) 4 6 = t.entries.length := val_le (w := 2) (by omega)
  have d : (scheduleBytes pad t).drop 8 = t.entries.flatMap encodeScheduleEntry ++ [] := by
    have h₁ : (le 4 1 ++ le 2 t.entries.length ++ pad).length = 8 := by simp [hpad]
    rw [append_nil, scheduleBytes, ← h₁, drop_left]
  have hread : readN decodeScheduleEntry 33 t.entries.length
      (t.entries.flatMap encodeScheduleEntry ++ []) = some t.entries := by
    refine readN_flatMap ?_ []
    intro e he
    exact ⟨rfl, decodeScheduleEntry_encodeScheduleEntry (h.entry e he)⟩
  have hge : ¬ (scheduleBytes pad t).length < 8 := by omega
  rw [decodeScheduleTable, if_neg hge]
  simp only [e₁, e₂, d, hread]
  rw [if_neg (by omega), if_neg (by simpa using hlen)]
  simp [h.distinct]

theorem scheduleBytes_of_decodeScheduleTable {t : ScheduleTable}
    (h : decodeScheduleTable b = some t) :
    t.Fits ∧ ∃ pad : Bytes, pad.length = 2 ∧ scheduleBytes pad t = b := by
  unfold decodeScheduleTable at h
  split at h
  · cases h
  simp only at h
  split at h
  · cases h
  rename_i hhead
  split at h
  · cases h
  rename_i hlen
  rw [not_or, not_not] at hhead
  rw [not_not] at hlen
  simp only [bind_eq_bind, bind_eq_some_iff] at h
  obtain ⟨entries, hread, heq⟩ := h
  split at heq
  · rename_i hdist
    cases heq
    obtain ⟨hn, hflat, hall⟩ := readN_eq_some
      (fun _ _ => encodeScheduleEntry_of_decodeScheduleEntry)
      (by rw [length_drop]; omega) hread
    rw [take_drop] at hflat
    refine ⟨⟨by simp only [hn]; omega, ?_, hdist⟩, slice b 6 8, by rw [length_slice]; omega, ?_⟩
    · intro e he
      obtain ⟨_, _, hc⟩ := hall e he
      exact ScheduleEntry.fits_of_decode hc
    · simp only [scheduleBytes, hflat, hn]
      rw [← hhead.1]
      simp (disch := omega) only [le_num, slice_append, slice_all]
  · cases heq

/-! ## Settings -/

/-- What the fixed fields can hold. -/
structure Settings.Fits (s : Settings) : Prop where
  fsmLagBytes : s.fsmLagBytes < 2 ^ 64
  admissionBytes : s.admissionBytes < 2 ^ 64
  snapshotIntervalBytes : s.snapshotIntervalBytes < 2 ^ 64
  datagramMtu : s.datagramMtu < 2 ^ 32
  retainSets : s.retainSets < 2 ^ 16
  backupRetainSets : s.backupRetainSets < 2 ^ 16
  backupRetainAgeSecs : s.backupRetainAgeSecs < 2 ^ 64
  purgeRequiresTiers : s.purgeRequiresTiers < 2 ^ 8
  wireLevel : s.wireLevel < 2 ^ 8
  wireRaise : s.wireRaise < 2 ^ 8

/-- The fields that a record of `version` lacks have their fixed values. -/
structure Settings.OfVersion (version : ℕ) (s : Settings) : Prop where
  datagramMtu : version < 2 → s.datagramMtu = 0
  retainSets : version < 3 → s.retainSets = 1
  autoFetch : version < 4 → s.autoFetch = true
  backupRetainSets : version < 5 → s.backupRetainSets = 0
  backupRetainAgeSecs : version < 5 → s.backupRetainAgeSecs = 0
  purgeRequiresTiers : version < 6 → s.purgeRequiresTiers = 0
  wireLevel : version < 7 → s.wireLevel = wireLevelFirst
  wireRaise : version < 7 → s.wireRaise = wireRaiseAuto

variable {version n : ℕ}

theorem settingsLen_cases (h : settingsLen version = some n) :
    (version = 1 ∧ n = 29) ∨ (version = 2 ∧ n = 33) ∨ (version = 3 ∧ n = 35) ∨
      (version = 4 ∧ n = 36) ∨ (version = 5 ∧ n = 46) ∨ (version = 6 ∧ n = 47) ∨
      (version = 7 ∧ n = 49) := by
  unfold settingsLen at h
  split at h <;> cases h <;> simp

theorem length_settingsBytes (version : ℕ) (s : Settings) :
    (settingsBytes version s).length = 49 := by
  simp [settingsBytes]

variable {s : Settings}

theorem settingsBytes_fields (hv : version < 2 ^ 32) (h : s.Fits) :
    num (settingsBytes version s) 0 4 = version ∧
    num (settingsBytes version s) 4 12 = s.fsmLagBytes ∧
    num (settingsBytes version s) 12 20 = s.admissionBytes ∧
    num (settingsBytes version s) 20 28 = s.snapshotIntervalBytes ∧
    num (settingsBytes version s) 28 29 = s.snapshotTarget.byte ∧
    num (settingsBytes version s) 29 33 = s.datagramMtu ∧
    num (settingsBytes version s) 33 35 = s.retainSets ∧
    num (settingsBytes version s) 35 36 = s.autoFetch.toNat ∧
    num (settingsBytes version s) 36 38 = s.backupRetainSets ∧
    num (settingsBytes version s) 38 46 = s.backupRetainAgeSecs ∧
    num (settingsBytes version s) 46 47 = s.purgeRequiresTiers ∧
    num (settingsBytes version s) 47 48 = s.wireLevel ∧
    num (settingsBytes version s) 48 49 = s.wireRaise := by
  have ht : s.snapshotTarget.byte < 256 ^ 1 := by cases s.snapshotTarget <;> decide
  have ha : s.autoFetch.toNat < 256 ^ 1 := by cases s.autoFetch <;> decide
  -- what follows a field in the layout does not matter to it
  simp (disch := simp) only [settingsBytes, num_append_left]
  exact ⟨num_le hv, num_append_le (by simp) rfl h.fsmLagBytes, num_append_le (by simp) rfl h.admissionBytes,
    num_append_le (by simp) rfl h.snapshotIntervalBytes, num_append_le (by simp) rfl ht,
    num_append_le (by simp) rfl h.datagramMtu, num_append_le (by simp) rfl h.retainSets,
    num_append_le (by simp) rfl ha, num_append_le (by simp) rfl h.backupRetainSets,
    num_append_le (by simp) rfl h.backupRetainAgeSecs,
    num_append_le (by simp) rfl h.purgeRequiresTiers, num_append_le (by simp) rfl h.wireLevel,
    num_append_le (by simp) rfl h.wireRaise⟩

theorem decodeSettings_take (hlen : settingsLen version = some n) (h : s.Fits)
    (hv : s.OfVersion version) : decodeSettings ((settingsBytes version s).take n) = some s := by
  have hcases := settingsLen_cases hlen
  obtain ⟨f₀, f₁, f₂, f₃, f₄, f₅, f₆, f₇, f₈, f₉, f₁₀, f₁₁, f₁₂⟩ :=
    settingsBytes_fields (show version < 2 ^ 32 by omega) h
  have hn : ((settingsBytes version s).take n).length = n := by
    rw [List.length_take, length_settingsBytes]
    omega
  generalize hb : (settingsBytes version s).take n = b at hn ⊢
  have hnum : ∀ i j, j ≤ n → num b i j = num (settingsBytes version s) i j := by
    intro i j hj
    rw [← hb, num_take hj]
  rw [← hnum _ _ (by omega)] at f₀ f₁ f₂ f₃ f₄
  have hmtu : (if version < 2 then 0 else num b 29 33) = s.datagramMtu := by
    split
    · exact (hv.datagramMtu ‹_›).symm
    · rw [hnum _ _ (by omega), f₅]
  have hretain : (if version < 3 then 1 else num b 33 35) = s.retainSets := by
    split
    · exact (hv.retainSets ‹_›).symm
    · rw [hnum _ _ (by omega), f₆]
  have hfetch : boolFromByte (if version < 4 then 1 else at_ b 35) = some s.autoFetch := by
    split
    · rw [hv.autoFetch ‹_›]
      rfl
    · rw [at_, hnum _ _ (by omega), f₇]
      cases s.autoFetch <;> rfl
  have htarget : Target.fromByte (at_ b 28) = some s.snapshotTarget := by
    rw [at_, f₄]
    cases s.snapshotTarget <;> rfl
  have hsets : (if version < 5 then 0 else num b 36 38) = s.backupRetainSets := by
    split
    · exact (hv.backupRetainSets ‹_›).symm
    · rw [hnum _ _ (by omega), f₈]
  have hage : (if version < 5 then 0 else num b 38 46) = s.backupRetainAgeSecs := by
    split
    · exact (hv.backupRetainAgeSecs ‹_›).symm
    · rw [hnum _ _ (by omega), f₉]
  have hpurge : (if version < 6 then 0 else at_ b 46) = s.purgeRequiresTiers := by
    split
    · exact (hv.purgeRequiresTiers ‹_›).symm
    · rw [at_, hnum _ _ (by omega), f₁₀]
  have hlevel : (if version < 7 then wireLevelFirst else at_ b 47) = s.wireLevel := by
    split
    · exact (hv.wireLevel ‹_›).symm
    · rw [at_, hnum _ _ (by omega), f₁₁]
  have hraise : (if version < 7 then wireRaiseAuto else at_ b 48) = s.wireRaise := by
    split
    · exact (hv.wireRaise ‹_›).symm
    · rw [at_, hnum _ _ (by omega), f₁₂]
  rw [decodeSettings, if_neg (by omega)]
  simp only [f₀, hn, hlen, ne_eq, not_true_eq_false, if_false]
  rw [hfetch, htarget]
  simp only [bind_eq_bind, bind_some, f₁, f₂, f₃, hmtu, hretain, hsets, hage, hpurge,
    hlevel, hraise]
  rfl

theorem Target.byte_of_fromByte {t : Target} (h : Target.fromByte n = some t) : t.byte = n := by
  unfold Target.fromByte at h
  split at h <;> cases h <;> rfl

theorem toNat_of_boolFromByte {x : Bool} (h : boolFromByte n = some x) : x.toNat = n := by
  unfold boolFromByte at h
  split at h <;> cases h <;> rfl

theorem decodeSettings_inv (h : decodeSettings b = some s) :
    settingsLen (num b 0 4) = some b.length ∧
    s.fsmLagBytes = num b 4 12 ∧ s.admissionBytes = num b 12 20 ∧
    s.snapshotIntervalBytes = num b 20 28 ∧ s.snapshotTarget.byte = num b 28 29 ∧
    s.datagramMtu = (if num b 0 4 < 2 then 0 else num b 29 33) ∧
    s.retainSets = (if num b 0 4 < 3 then 1 else num b 33 35) ∧
    s.autoFetch.toNat = (if num b 0 4 < 4 then 1 else num b 35 36) ∧
    s.backupRetainSets = (if num b 0 4 < 5 then 0 else num b 36 38) ∧
    s.backupRetainAgeSecs = (if num b 0 4 < 5 then 0 else num b 38 46) ∧
    s.purgeRequiresTiers = (if num b 0 4 < 6 then 0 else num b 46 47) ∧
    s.wireLevel = (if num b 0 4 < 7 then wireLevelFirst else num b 47 48) ∧
    s.wireRaise = (if num b 0 4 < 7 then wireRaiseAuto else num b 48 49) := by
  unfold decodeSettings at h
  split at h
  · cases h
  simp only at h
  split at h
  · cases h
  rename_i hlen
  simp only [bind_eq_bind, bind_eq_some_iff] at h
  obtain ⟨autoFetch, hfetch, snapshotTarget, htarget, heq⟩ := h
  cases heq
  exact ⟨not_not.mp hlen, rfl, rfl, rfl, Target.byte_of_fromByte htarget, rfl, rfl,
    toNat_of_boolFromByte hfetch, rfl, rfl, rfl, rfl, rfl⟩

theorem ite_num_lt {p : Prop} [Decidable p] {i j k : ℕ} (hk : k < 256 ^ (j - i)) :
    (if p then k else num b i j) < 256 ^ (j - i) := by
  split
  · exact hk
  · exact num_lt b i j

theorem settingsBytes_of_decodeSettings (h : decodeSettings b = some s) :
    s.Fits ∧ s.OfVersion (num b 0 4) ∧
      settingsLen (num b 0 4) = some b.length ∧
      (settingsBytes (num b 0 4) s).take b.length = b := by
  obtain ⟨hlen, h₁, h₂, h₃, h₄, h₅, h₆, h₇, h₈, h₉, h₁₀, h₁₁, h₁₂⟩ := decodeSettings_inv h
  have hfits : s.Fits := {
    fsmLagBytes := h₁ ▸ num_lt b 4 12
    admissionBytes := h₂ ▸ num_lt b 12 20
    snapshotIntervalBytes := h₃ ▸ num_lt b 20 28
    datagramMtu := h₅ ▸ ite_num_lt (i := 29) (j := 33) (by decide)
    retainSets := h₆ ▸ ite_num_lt (i := 33) (j := 35) (by decide)
    backupRetainSets := h₈ ▸ ite_num_lt (i := 36) (j := 38) (by decide)
    backupRetainAgeSecs := h₉ ▸ ite_num_lt (i := 38) (j := 46) (by decide)
    purgeRequiresTiers := h₁₀ ▸ ite_num_lt (i := 46) (j := 47) (by decide)
    wireLevel := h₁₁ ▸ ite_num_lt (i := 47) (j := 48) (by decide)
    wireRaise := h₁₂ ▸ ite_num_lt (i := 48) (j := 49) (by decide) }
  have hversion : s.OfVersion (num b 0 4) := {
    datagramMtu := fun hv => by rw [h₅, if_pos hv]
    retainSets := fun hv => by rw [h₆, if_pos hv]
    autoFetch := fun hv => by
      rw [if_pos hv] at h₇
      cases hf : s.autoFetch
      · rw [hf] at h₇
        cases h₇
      · rfl
    backupRetainSets := fun hv => by rw [h₈, if_pos hv]
    backupRetainAgeSecs := fun hv => by rw [h₉, if_pos hv]
    purgeRequiresTiers := fun hv => by rw [h₁₀, if_pos hv]
    wireLevel := fun hv => by rw [h₁₁, if_pos hv]
    wireRaise := fun hv => by rw [h₁₂, if_pos hv] }
  refine ⟨hfits, hversion, hlen, ?_⟩
  have hcases := settingsLen_cases hlen
  generalize hv : num b 0 4 = version at *
  generalize hn : b.length = n at *
  obtain ⟨f₀, f₁, f₂, f₃, f₄, f₅, f₆, f₇, f₈, f₉, f₁₀, f₁₁, f₁₂⟩ :=
    settingsBytes_fields (show version < 2 ^ 32 by omega) hfits
  have ha : ((settingsBytes version s).take n).length = n := by
    rw [List.length_take, length_settingsBytes]
    omega
  -- the two strings agree up to each field that the version has
  have step : ∀ i j x, i ≤ j → num (settingsBytes version s) i j = x → (j ≤ n → x = num b i j) →
      (i ≤ n → slice ((settingsBytes version s).take n) 0 i = slice b 0 i) →
      j ≤ n → slice ((settingsBytes version s).take n) 0 j = slice b 0 j := by
    intro i j x hij hx hb ih hj
    refine slice_ext hij (by omega) (by omega) (ih (by omega)) ?_
    rw [num_take hj, hx, hb hj]
  have t₀ := step 0 4 _ (by omega) f₀ (fun _ => hv.symm) (fun _ => by simp)
  have t₁ := step 4 12 _ (by omega) f₁ (fun _ => h₁) t₀
  have t₂ := step 12 20 _ (by omega) f₂ (fun _ => h₂) t₁
  have t₃ := step 20 28 _ (by omega) f₃ (fun _ => h₃) t₂
  have t₄ := step 28 29 _ (by omega) f₄ (fun _ => h₄) t₃
  have t₅ := step 29 33 _ (by omega) f₅ (fun _ => by rw [h₅, if_neg (by omega)]) t₄
  have t₆ := step 33 35 _ (by omega) f₆ (fun _ => by rw [h₆, if_neg (by omega)]) t₅
  have t₇ := step 35 36 _ (by omega) f₇ (fun _ => by rw [h₇, if_neg (by omega)]) t₆
  have t₈ := step 36 38 _ (by omega) f₈ (fun _ => by rw [h₈, if_neg (by omega)]) t₇
  have t₉ := step 38 46 _ (by omega) f₉ (fun _ => by rw [h₉, if_neg (by omega)]) t₈
  have t₁₀ := step 46 47 _ (by omega) f₁₀ (fun _ => by rw [h₁₀, if_neg (by omega)]) t₉
  have t₁₁ := step 47 48 _ (by omega) f₁₁ (fun _ => by rw [h₁₁, if_neg (by omega)]) t₁₀
  have t₁₂ := step 48 49 _ (by omega) f₁₂ (fun _ => by rw [h₁₂, if_neg (by omega)]) t₁₁
  have hall : slice ((settingsBytes version s).take n) 0 n = slice b 0 n := by
    rcases hcases with ⟨-, rfl⟩ | ⟨-, rfl⟩ | ⟨-, rfl⟩ | ⟨-, rfl⟩ | ⟨-, rfl⟩ | ⟨-, rfl⟩ | ⟨-, rfl⟩
    exacts [t₄ le_rfl, t₅ le_rfl, t₆ le_rfl, t₇ le_rfl, t₉ le_rfl, t₁₀ le_rfl, t₁₂ le_rfl]
  rwa [slice_all ha, slice_all hn] at hall

/-! ## Pins, row genesis, running versions -/

/-- What `decode` accepts. -/
structure UpgradePin.Fits (p : UpgradePin) : Prop where
  row : p.row < cncMaxServices
  from_ : p.from_ < 2 ^ 32
  to_ : p.to_ < 2 ^ 32
  origin_ne : p.origin ≠ 0
  origin : p.origin < 2 ^ 64

/-- What `decode` accepts. -/
structure RowGenesis.Fits (g : RowGenesis) : Prop where
  row : g.row < cncMaxServices
  version : g.version < 2 ^ 32

/-- What the bytes can hold. -/
structure RowRunning.Fits (r : RowRunning) : Prop where
  row : r.row < cncMaxServices
  version : r.version < 2 ^ 32
  recordPos : r.recordPos < 2 ^ 64

theorem decodeUpgradePin_encodeUpgradePin {p : UpgradePin} (h : p.Fits) :
    decodeUpgradePin (encodeUpgradePin p) = some p := by
  have hmax : cncMaxServices = 8 := rfl
  have hrow := h.row
  have e₀ : slice (encodeUpgradePin p) 1 4 = [0, 0, 0] := rfl
  have e₁ : at_ (encodeUpgradePin p) 0 = p.row := val_le (w := 1) (by omega)
  have e₂ : num (encodeUpgradePin p) 4 8 = p.from_ := val_le (w := 4) h.from_
  have e₃ : num (encodeUpgradePin p) 8 12 = p.to_ := val_le (w := 4) h.to_
  have e₄ : num (encodeUpgradePin p) 12 20 = p.origin := val_le (w := 8) h.origin
  have e₅ : (encodeUpgradePin p).length = 20 := rfl
  simp [decodeUpgradePin, e₀, e₁, e₂, e₃, e₄, e₅, hrow, h.origin_ne]

theorem encodeUpgradePin_of_decodeUpgradePin {p : UpgradePin} (h : decodeUpgradePin b = some p) :
    p.Fits ∧ encodeUpgradePin p = b := by
  unfold decodeUpgradePin at h
  split at h
  · cases h
  rename_i hhead
  rw [not_or, not_not, not_not] at hhead
  split at h
  · cases h
  rename_i hrow
  split at h
  · cases h
  rename_i horigin
  cases h
  obtain ⟨hlen, hzero⟩ := hhead
  refine ⟨⟨Nat.lt_of_not_le hrow, num_lt b 4 8, num_lt b 8 12, horigin, num_lt b 12 20⟩, ?_⟩
  simp only [encodeUpgradePin, at_]
  rw [← hzero]
  simp (disch := omega) only [le_num, slice_append, slice_all]

theorem decodeRowGenesis_encodeRowGenesis {g : RowGenesis} (h : g.Fits) :
    decodeRowGenesis (encodeRowGenesis g) = some g := by
  have hmax : cncMaxServices = 8 := rfl
  have hrow := h.row
  have e₀ : slice (encodeRowGenesis g) 1 4 = [0, 0, 0] := rfl
  have e₁ : at_ (encodeRowGenesis g) 0 = g.row := val_le (w := 1) (by omega)
  have e₂ : num (encodeRowGenesis g) 4 8 = g.version := val_le (w := 4) h.version
  have e₃ : (encodeRowGenesis g).length = 8 := rfl
  simp [decodeRowGenesis, e₀, e₁, e₂, e₃, hrow]

theorem encodeRowGenesis_of_decodeRowGenesis {g : RowGenesis} (h : decodeRowGenesis b = some g) :
    g.Fits ∧ encodeRowGenesis g = b := by
  unfold decodeRowGenesis at h
  split at h
  · cases h
  rename_i hhead
  rw [not_or, not_not, not_not] at hhead
  split at h
  · cases h
  rename_i hrow
  cases h
  obtain ⟨hlen, hzero⟩ := hhead
  refine ⟨⟨Nat.lt_of_not_le hrow, num_lt b 4 8⟩, ?_⟩
  simp only [encodeRowGenesis, at_]
  rw [← hzero]
  simp (disch := omega) only [le_num, slice_append, slice_all]

theorem decodeRowRunning_encodeRowRunning {r : RowRunning} (h : r.Fits) :
    decodeRowRunning (encodeRowRunning r) = some r := by
  have hmax : cncMaxServices = 8 := rfl
  have hrow := h.row
  have e₀ : slice (encodeRowRunning r) 1 4 = [0, 0, 0] := rfl
  have e₁ : at_ (encodeRowRunning r) 0 = r.row := val_le (w := 1) (by omega)
  have e₂ : num (encodeRowRunning r) 4 8 = r.version := val_le (w := 4) h.version
  have e₃ : num (encodeRowRunning r) 8 16 = r.recordPos := val_le (w := 8) h.recordPos
  simp [decodeRowRunning, e₀, e₁, e₂, e₃, hrow]

theorem decodeRunningList_encodeRunningList {l : List RowRunning} (h : ∀ r ∈ l, r.Fits)
    (hrows : l.Pairwise fun p q => p.row < q.row) :
    decodeRunningList (encodeRunningList l) = some l := by
  have hlen : (encodeRunningList l).length = l.length * 16 := length_flatMap fun _ _ => rfl
  have hread : readN decodeRowRunning 16 l.length (encodeRunningList l) = some l := by
    rw [encodeRunningList, ← append_nil (l.flatMap encodeRowRunning)]
    refine readN_flatMap ?_ []
    intro r hr
    exact ⟨rfl, decodeRowRunning_encodeRowRunning (h r hr)⟩
  simp [decodeRunningList, hlen, hread, hrows]

theorem decodePinList_encodePinList {pins : List UpgradePin} (h : ∀ p ∈ pins, p.Fits) :
    decodePinList (encodePinList pins) = some pins := by
  have hlen : (encodePinList pins).length = pins.length * 20 := length_flatMap fun _ _ => rfl
  have hread : readN decodeUpgradePin 20 pins.length (encodePinList pins) = some pins := by
    rw [encodePinList, ← append_nil (pins.flatMap encodeUpgradePin)]
    refine readN_flatMap ?_ []
    intro p hp
    exact ⟨rfl, decodeUpgradePin_encodeUpgradePin (h p hp)⟩
  simp [decodePinList, hlen, hread]

/-! ## Backup tiers -/

/-- What `decode` accepts. -/
structure BackupWatermark.Fits (w : BackupWatermark) : Prop where
  valid : w.Valid
  tierId : w.tierId < 2 ^ 64
  oldestSet : w.oldestSet < 2 ^ 64
  newestSet : w.newestSet < 2 ^ 64
  through : w.through < 2 ^ 64
  reporter : w.reporter < 2 ^ 64

/-- What the bytes can hold. -/
structure BackupTierEntry.Fits (e : BackupTierEntry) : Prop where
  tierId : e.tierId < 2 ^ 64
  oldestSet : e.oldestSet < 2 ^ 64
  newestSet : e.newestSet < 2 ^ 64
  through : e.through < 2 ^ 64
  reporter : e.reporter < 2 ^ 64
  updatedPos : e.updatedPos < 2 ^ 64

theorem WatermarkOp.fromByte_byte (op : WatermarkOp) : WatermarkOp.fromByte op.byte = some op := by
  cases op <;> rfl

theorem WatermarkOp.byte_of_fromByte {op : WatermarkOp} (h : WatermarkOp.fromByte n = some op) :
    op.byte = n := by
  unfold WatermarkOp.fromByte at h
  split at h <;> cases h <;> rfl

theorem decodeBackupWatermark_encodeBackupWatermark {w : BackupWatermark} (h : w.Fits) :
    decodeBackupWatermark (encodeBackupWatermark w) = some w := by
  have hop : w.op.byte < 256 ^ 1 := by cases w.op <;> decide
  have e₀ : slice (encodeBackupWatermark w) 1 8 = [0, 0, 0, 0, 0, 0, 0] := rfl
  have hnums : at_ (encodeBackupWatermark w) 0 = w.op.byte ∧
      num (encodeBackupWatermark w) 8 16 = w.tierId ∧
      num (encodeBackupWatermark w) 16 24 = w.oldestSet ∧
      num (encodeBackupWatermark w) 24 32 = w.newestSet ∧
      num (encodeBackupWatermark w) 32 40 = w.through ∧
      num (encodeBackupWatermark w) 40 48 = w.reporter := by
    simp (disch := simp) only [encodeBackupWatermark, at_, num_append_left]
    exact ⟨num_le hop, num_append_le (by simp) rfl h.tierId, num_append_le (by simp) rfl h.oldestSet,
      num_append_le (by simp) rfl h.newestSet, num_append_le (by simp) rfl h.through,
      num_append_le (by simp) rfl h.reporter⟩
  obtain ⟨e₁, e₂, e₃, e₄, e₅, e₆⟩ := hnums
  have e₇ : (encodeBackupWatermark w).length = 48 := by simp [encodeBackupWatermark]
  simp [decodeBackupWatermark, e₀, e₁, e₂, e₃, e₄, e₅, e₆, e₇, WatermarkOp.fromByte_byte, h.valid]

theorem encodeBackupWatermark_of_decodeBackupWatermark {w : BackupWatermark}
    (h : decodeBackupWatermark b = some w) : w.Fits ∧ encodeBackupWatermark w = b := by
  unfold decodeBackupWatermark at h
  split at h
  · cases h
  rename_i hhead
  rw [not_or, not_not, not_not] at hhead
  obtain ⟨hlen, hzero⟩ := hhead
  simp only [bind_eq_bind, bind_eq_some_iff] at h
  obtain ⟨op, hop, heq⟩ := h
  split at heq
  · rename_i hvalid
    cases heq
    refine ⟨⟨hvalid, num_lt b 8 16, num_lt b 16 24, num_lt b 24 32, num_lt b 32 40,
      num_lt b 40 48⟩, ?_⟩
    simp only [encodeBackupWatermark, WatermarkOp.byte_of_fromByte hop, at_]
    rw [← hzero]
    simp (disch := omega) only [le_num, slice_append, slice_all]
  · cases heq

theorem decodeBackupEntry_encodeBackupEntry {e : BackupTierEntry} (h : e.Fits) :
    decodeBackupEntry (encodeBackupEntry e) = some e := by
  have hnums : num (encodeBackupEntry e) 0 8 = e.tierId ∧
      num (encodeBackupEntry e) 8 16 = e.oldestSet ∧
      num (encodeBackupEntry e) 16 24 = e.newestSet ∧
      num (encodeBackupEntry e) 24 32 = e.through ∧
      num (encodeBackupEntry e) 32 40 = e.reporter ∧
      num (encodeBackupEntry e) 40 48 = e.updatedPos := by
    simp (disch := simp) only [encodeBackupEntry, num_append_left]
    exact ⟨num_le h.tierId, num_append_le (by simp) rfl h.oldestSet,
      num_append_le (by simp) rfl h.newestSet, num_append_le (by simp) rfl h.through,
      num_append_le (by simp) rfl h.reporter, num_append_le (by simp) rfl h.updatedPos⟩
  obtain ⟨e₁, e₂, e₃, e₄, e₅, e₆⟩ := hnums
  simp [decodeBackupEntry, e₁, e₂, e₃, e₄, e₅, e₆]

theorem decodeBackupList_encodeBackupList {l : List BackupTierEntry} (h : ∀ e ∈ l, e.Fits)
    (hmax : l.length ≤ maxBackupTiers) (hdist : (l.map BackupTierEntry.tierId).Nodup) :
    decodeBackupList (encodeBackupList l) = some l := by
  have h4 : maxBackupTiers = 4 := rfl
  have hflat : (l.flatMap encodeBackupEntry).length = l.length * 48 := length_flatMap fun _ _ => rfl
  have hlen : (encodeBackupList l).length = 1 + l.length * 48 := by
    simp [encodeBackupList, hflat]
  have hcount : at_ (encodeBackupList l) 0 = l.length := by
    rw [at_, encodeBackupList, num_append_left (by simp)]
    exact num_le (by omega)
  have hread : readN decodeBackupEntry 48 l.length ((encodeBackupList l).drop 1) = some l := by
    have hd : (encodeBackupList l).drop 1 = l.flatMap encodeBackupEntry ++ [] := by
      rw [append_nil]
      rfl
    rw [hd]
    refine readN_flatMap ?_ []
    intro e he
    exact ⟨rfl, decodeBackupEntry_encodeBackupEntry (h e he)⟩
  rw [decodeBackupList, if_neg (by omega)]
  simp only [hcount, hread]
  rw [if_neg (by omega)]
  simp [hdist]

/-! ## Snapshot reports -/

/-- A node's id, hash and size. -/
def reportEntryFits (e : ℕ × ℕ × ℕ) : Prop := e.1 < 2 ^ 32 ∧ e.2.1 < 2 ^ 64 ∧ e.2.2 < 2 ^ 64

/-- What `decode` accepts. -/
structure SnapshotReport.Fits (r : SnapshotReport) : Prop where
  encodable : r.Encodable
  position : r.position < 2 ^ 64
  hash : ∀ e ∈ r.hashes, reportEntryFits e

/-- A report from before sizes. -/
def SnapshotReport.Unsized (r : SnapshotReport) : Prop := ∀ e ∈ r.hashes, e.2.2 = 0

/-- The layout of the entries, by whether they carry sizes. -/
def reportEntryBytes (sized : Bool) : ℕ × ℕ × ℕ → Bytes :=
  if sized then encodeReportEntry else encodeReportEntryUnsized

theorem length_reportEntryBytes (sized : Bool) (e : ℕ × ℕ × ℕ) :
    (reportEntryBytes sized e).length = reportEntryLen sized := by
  cases sized <;> rfl

variable {sized : Bool}

theorem decodeReportEntry_reportEntryBytes {e : ℕ × ℕ × ℕ} (h : reportEntryFits e)
    (hs : sized = false → e.2.2 = 0) :
    decodeReportEntry sized (reportEntryBytes sized e) = some e := by
  obtain ⟨hid, hhash, hsize⟩ := h
  obtain ⟨node, hash, size⟩ := e
  cases sized with
  | false =>
    obtain rfl : size = 0 := hs rfl
    have e₁ : num (reportEntryBytes false (node, hash, 0)) 0 4 = node := val_le (w := 4) hid
    have e₂ : num (reportEntryBytes false (node, hash, 0)) 4 12 = hash := val_le (w := 8) hhash
    simp [decodeReportEntry, e₁, e₂]
  | true =>
    have e₁ : num (reportEntryBytes true (node, hash, size)) 0 4 = node := val_le (w := 4) hid
    have e₂ : num (reportEntryBytes true (node, hash, size)) 4 12 = hash := val_le (w := 8) hhash
    have e₃ : num (reportEntryBytes true (node, hash, size)) 12 20 = size := val_le (w := 8) hsize
    simp [decodeReportEntry, e₁, e₂, e₃]

theorem reportEntryBytes_of_decodeReportEntry {e : ℕ × ℕ × ℕ} (hb : b.length = reportEntryLen sized)
    (h : decodeReportEntry sized b = some e) : reportEntryBytes sized e = b := by
  cases h
  cases sized with
  | false =>
    have hb : b.length = 12 := hb
    simp only [reportEntryBytes, Bool.false_eq_true, if_false, encodeReportEntryUnsized]
    simp (disch := omega) only [le_num, slice_append, slice_all]
  | true =>
    have hb : b.length = 20 := hb
    simp only [reportEntryBytes, if_true, encodeReportEntry]
    simp (disch := omega) only [le_num, slice_append, slice_all]

theorem reportEntryFits_of_decodeReportEntry {e : ℕ × ℕ × ℕ}
    (h : decodeReportEntry sized b = some e) : reportEntryFits e ∧ (sized = false → e.2.2 = 0) := by
  cases h
  cases sized with
  | false => exact ⟨⟨num_lt b 0 4, num_lt b 4 12, Nat.two_pow_pos 64⟩, fun _ => rfl⟩
  | true => exact ⟨⟨num_lt b 0 4, num_lt b 4 12, num_lt b 12 20⟩, nofun⟩

theorem length_reportBytes (sized : Bool) (r : SnapshotReport) :
    (reportBytes (reportEntryBytes sized) r).length = 16 + r.hashes.length * reportEntryLen sized := by
  have h : (r.hashes.flatMap (reportEntryBytes sized)).length =
      r.hashes.length * reportEntryLen sized :=
    length_flatMap fun e _ => length_reportEntryBytes sized e
  simp only [reportBytes, length_append, length_le, h]
  rfl

theorem reportSized_mul (sized : Bool) (hn : n ≠ 0) :
    reportSized n (n * reportEntryLen sized) = some sized := by
  have h12 : reportEntryLen false = 12 := rfl
  have h20 : reportEntryLen true = 20 := rfl
  cases sized with
  | false => rw [reportSized, if_neg (by rw [h12, h20]; omega), if_pos rfl]
  | true => rw [reportSized, if_pos rfl]

theorem length_of_reportSized {n len : ℕ} (h : reportSized n len = some sized) :
    len = n * reportEntryLen sized := by
  unfold reportSized at h
  split at h
  · cases h
    assumption
  split at h
  · cases h
    assumption
  · cases h

theorem row_lt_of_isReportRow {row : ℕ} (h : isReportRow row = true) : row < 256 := by
  rcases Bool.or_eq_true_iff.mp h with h | h
  · have hrow : row < 8 := of_decide_eq_true h
    omega
  · have hrow : row = 255 := eq_of_beq h
    omega

variable {r : SnapshotReport}

theorem decodeSnapshotReport_reportBytes (h : r.Fits) (hs : sized = false → r.Unsized) :
    decodeSnapshotReport (reportBytes (reportEntryBytes sized) r) = some r := by
  obtain ⟨hne, hmax, hids, hrow, hpos⟩ := h.encodable
  have hmax' : maxSnapshotReportNodes = 8 := rfl
  have hlt : r.row < 256 := row_lt_of_isReportRow hrow
  have hlen := length_reportBytes sized r
  have e₀ : slice (reportBytes (reportEntryBytes sized) r) 2 8 = [0, 0, 0, 0, 0, 0] := rfl
  have e₁ : at_ (reportBytes (reportEntryBytes sized) r) 0 = r.row := val_le (w := 1) hlt
  have e₂ : at_ (reportBytes (reportEntryBytes sized) r) 1 = r.hashes.length :=
    val_le (w := 1) (by omega)
  have e₃ : num (reportBytes (reportEntryBytes sized) r) 8 16 = r.position :=
    val_le (w := 8) h.position
  have hread : readN (decodeReportEntry sized) (reportEntryLen sized) r.hashes.length
      ((reportBytes (reportEntryBytes sized) r).drop 16) = some r.hashes := by
    have hd : (reportBytes (reportEntryBytes sized) r).drop 16 =
        r.hashes.flatMap (reportEntryBytes sized) ++ [] := by
      rw [append_nil]
      rfl
    rw [hd]
    refine readN_flatMap ?_ []
    intro e he
    exact ⟨length_reportEntryBytes sized e,
      decodeReportEntry_reportEntryBytes (h.hash e he) fun hf => hs hf e he⟩
  rw [decodeSnapshotReport, if_neg (by simp [e₀]; omega)]
  simp only [e₁, e₂, e₃]
  rw [if_neg (by simp [hrow, hne, hmax]), hlen, Nat.add_sub_cancel_left, reportSized_mul sized hne]
  simp only [bind_eq_bind, bind_some, if_neg hpos, hread, if_pos hids]
  rfl

theorem reportBytes_of_decodeSnapshotReport (h : decodeSnapshotReport b = some r) :
    r.Fits ∧ ∃ sized : Bool, (sized = false → r.Unsized) ∧
      reportBytes (reportEntryBytes sized) r = b := by
  unfold decodeSnapshotReport at h
  split at h
  · cases h
  rename_i hhead
  rw [not_or, not_not] at hhead
  simp only at h
  split at h
  · cases h
  rename_i hcount
  simp only [not_or, Bool.not_eq_false] at hcount
  simp only [bind_eq_bind, bind_eq_some_iff] at h
  obtain ⟨sized, hsized, h⟩ := h
  split at h
  · cases h
  rename_i hpos
  obtain ⟨hashes, hread, heq⟩ := Option.bind_eq_some_iff.mp h
  split at heq
  · rename_i hids
    cases heq
    have hlen := length_of_reportSized hsized
    obtain ⟨hn, hflat, hall⟩ := readN_eq_some
      (fun _ _ => reportEntryBytes_of_decodeReportEntry)
      (by rw [length_drop]; omega) hread
    rw [take_drop] at hflat
    have hfits : ∀ e ∈ hashes, reportEntryFits e ∧ (sized = false → e.2.2 = 0) := by
      intro e he
      obtain ⟨_, _, hc⟩ := hall e he
      exact reportEntryFits_of_decodeReportEntry hc
    refine ⟨⟨⟨?_, ?_, hids, hcount.1, hpos⟩, num_lt b 8 16, fun e he => (hfits e he).1⟩,
      sized, fun hf e he => (hfits e he).2 hf, ?_⟩
    · simpa only [hn] using hcount.2.1
    · simpa only [hn] using Nat.le_of_not_lt hcount.2.2
    · simp only [reportBytes, hflat, hn, at_]
      rw [← hhead.2, le_num (by rfl) (by omega), le_num (by rfl) (by omega),
        le_num (by rfl) (by omega), slice_append b (by omega) (by omega),
        slice_append b (by omega) (by omega), slice_append b (by omega) (by omega),
        slice_append b (by omega) (by omega), ← at_, slice_all (by omega)]
  · cases heq

theorem encodeSnapshotReport_eq (h : r.Encodable) :
    encodeSnapshotReport r = some (reportBytes (reportEntryBytes true) r) := by
  rw [encodeSnapshotReport, if_pos h]
  rfl

theorem encodeReportList_some {rs : List SnapshotReport} (h : ∀ r ∈ rs, r.Fits) :
    ∃ bs, encodeReportList rs = some bs ∧ bs.length ≤ rs.length * 180 := by
  induction rs with
  | nil => exact ⟨[], rfl, le_rfl⟩
  | cons r rs ih =>
    obtain ⟨bs, hbs, hlen⟩ := ih fun q hq => h q (List.mem_cons_of_mem _ hq)
    have hr := (h r List.mem_cons_self).encodable
    have hmax : r.hashes.length ≤ 8 := hr.2.1
    have hrlen := length_reportBytes true r
    have h20 : reportEntryLen true = 20 := rfl
    rw [h20] at hrlen
    refine ⟨_, by rw [encodeReportList, encodeSnapshotReport_eq hr, hbs]; rfl, ?_⟩
    simp only [length_append, length_le, List.length_cons]
    omega

theorem readReports_encodeReportList {rs : List SnapshotReport} (h : ∀ r ∈ rs, r.Fits)
    {bs : Bytes} (hbs : encodeReportList rs = some bs) {fuel : ℕ} (hfuel : bs.length ≤ fuel) :
    readReports fuel bs = some rs := by
  induction rs generalizing bs fuel with
  | nil =>
    cases hbs
    cases fuel <;> rfl
  | cons r rs ih =>
    have hr := h r List.mem_cons_self
    have hmax : r.hashes.length ≤ 8 := hr.encodable.2.1
    have hrlen := length_reportBytes true r
    have h20 : reportEntryLen true = 20 := rfl
    rw [h20] at hrlen
    rw [encodeReportList, encodeSnapshotReport_eq hr.encodable] at hbs
    simp only [bind_eq_bind, bind_some, bind_eq_some_iff] at hbs
    obtain ⟨rest, hrest, heq⟩ := hbs
    have hdec : decodeSnapshotReport (reportBytes (reportEntryBytes true) r) = some r :=
      decodeSnapshotReport_reportBytes hr nofun
    generalize reportBytes (reportEntryBytes true) r = b at hrlen hdec heq
    cases heq
    have hlen : (le 4 b.length ++ b ++ rest).length = 4 + b.length + rest.length := by
      simp only [length_append, length_le]
    obtain ⟨fuel, rfl⟩ : ∃ k, fuel = k + 1 := ⟨fuel - 1, by omega⟩
    have hne : le 4 b.length ++ b ++ rest ≠ [] := List.ne_nil_of_length_pos (by omega)
    have hcount : num (le 4 b.length ++ b ++ rest) 0 4 = b.length := by
      rw [num_append_left (by simp), num_append_left (by simp)]
      exact num_le (by omega)
    have hslice : slice (le 4 b.length ++ b ++ rest) 4 (4 + b.length) = b := by
      rw [slice_append_left (by simp), slice_append_right (by simp), length_le, Nat.sub_self,
        Nat.add_sub_cancel_left, slice_all rfl]
    have hdrop : (le 4 b.length ++ b ++ rest).drop (4 + b.length) = rest := by
      have h4 : 4 + b.length = (le 4 b.length ++ b).length := by simp
      rw [h4, drop_left]
    rw [readReports, if_neg hne, if_neg (by omega)]
    simp only [hcount]
    rw [if_neg (by omega), hslice, hdec, hdrop,
      ih (fun q hq => h q (List.mem_cons_of_mem _ hq)) hrest (by omega)]
    rfl

/-! ## The catalog -/

/-- What the bytes can hold. -/
structure RowEntry.Fits (r : RowEntry) : Prop where
  version : r.version < 2 ^ 32
  hash : r.hash < 2 ^ 64
  size : r.size < 2 ^ 64

/-- What the bytes can hold. -/
structure SetEntry.Fits (e : SetEntry) : Prop where
  position : e.position < 2 ^ 64
  timeNs : e.timeNs < 2 ^ 64
  row : ∀ i, (e.rows i).Fits
  cluster : e.cluster.Fits

theorem length_encodeRowEntry (r : RowEntry) : (encodeRowEntry r).length = 21 := by
  simp [encodeRowEntry]

theorem decodeRowEntry_encodeRowEntry {r : RowEntry} (h : r.Fits) :
    decodeRowEntry true (encodeRowEntry r) = some r := by
  have hb : r.verdict.byte < 256 ^ 1 := by cases r.verdict <;> decide
  have hv : RowVerdict.fromByte r.verdict.byte = some r.verdict := by cases r.verdict <;> rfl
  have hnums : num (encodeRowEntry r) 0 4 = r.version ∧ num (encodeRowEntry r) 4 12 = r.hash ∧
      at_ (encodeRowEntry r) 12 = r.verdict.byte ∧ num (encodeRowEntry r) 13 21 = r.size := by
    simp (disch := simp) only [encodeRowEntry, at_, num_append_left]
    exact ⟨num_le h.version, num_append_le (by simp) rfl h.hash, num_append_le (by simp) rfl hb,
      num_append_le (by simp) rfl h.size⟩
  obtain ⟨e₁, e₂, e₃, e₄⟩ := hnums
  simp [decodeRowEntry, e₁, e₂, e₃, e₄, hv]

theorem length_encodeSetEntry (e : SetEntry) : (encodeSetEntry e).length = 207 := by
  have h : ((ofFn e.rows ++ [e.cluster]).flatMap encodeRowEntry).length =
      (ofFn e.rows ++ [e.cluster]).length * 21 :=
    length_flatMap fun r _ => length_encodeRowEntry r
  rw [length_append, length_ofFn, List.length_singleton] at h
  rw [encodeSetEntry, length_append, h]
  simp [cncMaxServices]

theorem decodeSetEntry_encodeSetEntry {e : SetEntry} (h : e.Fits) :
    decodeSetEntry true (encodeSetEntry e) = some e := by
  have hk : SetKind.fromByte e.kind.byte = some e.kind := by cases e.kind <;> rfl
  have hkb : e.kind.byte < 256 ^ 1 := by cases e.kind <;> decide
  have hs : SetState.fromByte e.state.byte = some e.state := by cases e.state <;> rfl
  have hsb : e.state.byte < 256 ^ 1 := by cases e.state <;> decide
  have hnums : num (encodeSetEntry e) 0 8 = e.position ∧ at_ (encodeSetEntry e) 8 = e.kind.byte ∧
      at_ (encodeSetEntry e) 9 = e.state.byte ∧ num (encodeSetEntry e) 10 18 = e.timeNs := by
    simp (disch := simp) only [encodeSetEntry, at_, num_append_left]
    exact ⟨num_le h.position, num_append_le (by simp) rfl hkb, num_append_le (by simp) rfl hsb,
      num_append_le (by simp) rfl h.timeNs⟩
  obtain ⟨e₁, e₂, e₃, e₄⟩ := hnums
  have hd : (encodeSetEntry e).drop 18 =
      (ofFn e.rows).flatMap encodeRowEntry ++ encodeRowEntry e.cluster := by
    have h18 : (le 8 e.position ++ le 1 e.kind.byte ++ le 1 e.state.byte ++ le 8 e.timeNs).length =
        18 := by simp
    rw [encodeSetEntry, ← h18, drop_left, List.flatMap_append, List.flatMap_singleton]
  have hrows : readN (decodeRowEntry true) 21 cncMaxServices ((encodeSetEntry e).drop 18) =
      some (ofFn e.rows) := by
    have h8 : (ofFn e.rows).length = cncMaxServices := length_ofFn
    have hread : readN (decodeRowEntry true) 21 (ofFn e.rows).length
        ((ofFn e.rows).flatMap encodeRowEntry ++ encodeRowEntry e.cluster) =
          some (ofFn e.rows) := by
      refine readN_flatMap ?_ _
      intro r hr
      obtain ⟨i, rfl⟩ := List.mem_ofFn.mp hr
      exact ⟨length_encodeRowEntry _, decodeRowEntry_encodeRowEntry (h.row i)⟩
    rwa [h8, ← hd] at hread
  have hcluster : (encodeSetEntry e).drop (18 + cncMaxServices * 21) = encodeRowEntry e.cluster := by
    have hlen : ((ofFn e.rows).flatMap encodeRowEntry).length = cncMaxServices * 21 := by
      rw [length_flatMap fun r _ => length_encodeRowEntry r, length_ofFn]
    rw [← drop_drop, hd, ← hlen, drop_left]
  have h21 : rowEntryLen true = 21 := rfl
  have hlen : (encodeSetEntry e).length = setEntryLen true := length_encodeSetEntry e
  rw [decodeSetEntry, if_neg (by simpa using hlen), h21, e₁, e₂, e₃, e₄, hk, hs, hrows, hcluster,
    decodeRowEntry_encodeRowEntry h.cluster]
  simp

theorem decodeSetList_encodeSetList {sets : List SetEntry} (h : ∀ e ∈ sets, e.Fits)
    (hmax : sets.length ≤ maxCatalogSets) :
    ∃ bs, encodeSetList sets = some bs ∧ bs.length = 2 + sets.length * 207 ∧
      decodeSetListWith true bs = some sets := by
  have h64 : maxCatalogSets = 64 := rfl
  have hflat : (sets.flatMap encodeSetEntry).length = sets.length * 207 :=
    length_flatMap fun e _ => length_encodeSetEntry e
  have hlen : (le 2 sets.length ++ sets.flatMap encodeSetEntry).length = 2 + sets.length * 207 := by
    simp [hflat]
  refine ⟨_, by rw [encodeSetList, if_neg (by omega)], hlen, ?_⟩
  have hcount : num (le 2 sets.length ++ sets.flatMap encodeSetEntry) 0 2 = sets.length := by
    rw [num_append_left (by simp)]
    exact num_le (by omega)
  have hdrop : (le 2 sets.length ++ sets.flatMap encodeSetEntry).drop 2 =
      sets.flatMap encodeSetEntry ++ [] := by
    rw [append_nil]
    rfl
  have h207 : setEntryLen true = 207 := rfl
  have hread : readN (decodeSetEntry true) 207 sets.length (sets.flatMap encodeSetEntry ++ []) =
      some sets := by
    refine readN_flatMap ?_ []
    intro e he
    exact ⟨length_encodeSetEntry e, decodeSetEntry_encodeSetEntry (h e he)⟩
  rw [decodeSetListWith, if_neg (by omega)]
  simp only [hcount, h207, hdrop, hread]
  rw [if_neg (by omega)]

end UltimaCluster
