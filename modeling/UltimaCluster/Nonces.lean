/-
  No key meets a nonce twice, and no process opens a datagram twice.

  `Sealer` says what the counter of a process has been used for, `Opener` what its
  windows remember of the datagrams that it opened.
-/
import UltimaCluster.Sealing

namespace UltimaCluster

/-- No key is used twice with one nonce. -/
def NoncesApart (d d' : Datagram) : Prop :=
  ∀ b b', d.box = some b → d'.box = some b' → b.key = b'.key → b.nonce ≠ b'.nonce

namespace SharedTransport

variable {t t' : SharedTransport} {past events : List TransportEvent}
  {input : Option (NodeId × HandshakeBody)}

/-! ## Seals of one process -/

/-- The counters a process sealed under. -/
structure Sealer (t : SharedTransport) (past : List TransportEvent) : Prop where
  fresh : (t.jobs.map (·.counter)).Nodup
  drawn : ∀ job ∈ t.jobs, job.counter ≤ t.counter
  staged : ∀ job ∈ t.jobs, job.buf.length ≤ maxDatagram
  used : ∀ d b, .sealed d ∈ past → d.box = some b →
    b.nonce ≤ t.counter ∧ (∀ job ∈ t.jobs, job.counter ≠ b.nonce) ∧ b.key.sealer = t.peers.bootSalt
  apart : past.Pairwise fun e e' => ∀ d d', e = .sealed d → e' = .sealed d' → NoncesApart d d'
  cache : t.CacheOwn

theorem sealer_new (P : Peers) : Sealer (new P) [] where
  fresh := List.nodup_nil
  drawn _ h := absurd h List.not_mem_nil
  staged _ h := absurd h List.not_mem_nil
  used _ _ h := absurd h List.not_mem_nil
  apart := List.Pairwise.nil
  cache _ _ h := by cases h

theorem Sealer.frame (h : t.Sealer past) (hsalt : t'.peers.bootSalt = t.peers.bootSalt)
    (hcounter : t.counter ≤ t'.counter) (hjobs : t'.jobs.Sublist t.jobs) (hcache : t'.CacheOwn)
    (hevents : ∀ d, .sealed d ∉ events) : t'.Sealer (past ++ events) where
  fresh := h.fresh.sublist (hjobs.map _)
  drawn job hjob := (h.drawn job (hjobs.mem hjob)).trans hcounter
  staged job hjob := h.staged job (hjobs.mem hjob)
  used d b hd hb := by
    rcases List.mem_append.mp hd with hd | hd
    · obtain ⟨hle, hne, hkey⟩ := h.used d b hd hb
      exact ⟨hle.trans hcounter, fun job hjob => hne job (hjobs.mem hjob), hsalt ▸ hkey⟩
    · exact absurd hd (hevents d)
  apart := by
    refine List.pairwise_append.mpr ⟨h.apart, ?_, ?_⟩
    · exact List.Pairwise.imp_of_mem (fun {e e'} he _ _ d _ hd => absurd (hd ▸ he) (hevents d))
        (List.pairwise_of_forall (R := fun _ _ => True) fun _ _ => trivial)
    · intro e _ e' he' d d' _ hd'
      exact absurd (hd' ▸ he') (hevents d')
  cache := hcache

theorem Sealer.sealed (h : t.Sealer past) (hsalt : t'.peers.bootSalt = t.peers.bootSalt)
    (hcounter : t.counter ≤ t'.counter) (hjobs : t'.jobs.Sublist t.jobs) (hcache : t'.CacheOwn)
    {d : Datagram} {b : Box} (hbox : d.box = some b) (hkey : b.key.sealer = t.peers.bootSalt)
    (hle : b.nonce ≤ t'.counter) (hjob : ∀ job ∈ t'.jobs, job.counter ≠ b.nonce)
    (hnew : ∀ d' b', .sealed d' ∈ past → d'.box = some b' → b'.nonce ≠ b.nonce) :
    t'.Sealer (past ++ [.sealed d]) where
  fresh := h.fresh.sublist (hjobs.map _)
  drawn job hj := (h.drawn job (hjobs.mem hj)).trans hcounter
  staged job hj := h.staged job (hjobs.mem hj)
  used d' b' hd' hb' := by
    rcases List.mem_append.mp hd' with hd' | hd'
    · obtain ⟨hle', hne, hkey'⟩ := h.used d' b' hd' hb'
      exact ⟨hle'.trans hcounter, fun job hj => hne job (hjobs.mem hj), hsalt ▸ hkey'⟩
    · cases List.mem_singleton.mp hd'
      obtain rfl := Option.some.inj (hbox.symm.trans hb')
      exact ⟨hle, hjob, hsalt ▸ hkey⟩
  apart := by
    refine List.pairwise_append.mpr ⟨h.apart, List.pairwise_singleton _ _, ?_⟩
    rintro e he e' he' d₁ d₂ rfl rfl b₁ b₂ hb₁ hb₂ -
    cases List.mem_singleton.mp he'
    obtain rfl := Option.some.inj (hbox.symm.trans hb₂)
    exact hnew d₁ b₁ he hb₁
  cache := hcache

theorem acted_not_sealed (acts : List HandshakeAction) (d : Datagram) :
    TransportEvent.sealed d ∉ acts.map TransportEvent.acted := by
  simp

theorem Effect.same (h : Effect input t t' events) : t.peers.Same t'.peers := by
  cases h with
  | message sender body received step => exact Peers.PeersStep.same step
  | peers steps => exact Peers.PeersSteps.same steps
  | openedPairwise sender d c ok =>
    exact Peers.PeersSteps.same (Peers.openPairwise_steps t.peers sender d)
  | openedGroup P sender groupKey salt d b window fresh steps box key check =>
    exact Peers.PeersSteps.same steps
  | group | burnt | queued | sealedGroup | jobFailed | jobSealed => exact Peers.Same.refl _

theorem Effect.sealer (h : Effect input t t' events) (hs : t.Sealer past)
    (hkeys : ∀ x s, (t.peers.link x).current = some s → s.sealKey.sealer = t.peers.bootSalt) :
    t'.Sealer (past ++ events) := by
  have hsalt := h.same.bootSalt
  have hown : ∀ k, t.OwnKey k → t'.OwnKey k := by
    rintro k ⟨groupKey, rfl⟩
    exact ⟨groupKey, by rw [h.same.selfId, hsalt]⟩
  -- the counter is new
  have hnew : ∀ d b, .sealed d ∈ past → d.box = some b → b.nonce ≠ t.counter + 1 := by
    intro d b hd hb
    have := (hs.used d b hd hb).1
    omega
  cases h with
  | message | peers =>
    exact hs.frame hsalt le_rfl (.refl _) (fun e k hk => hown k (hs.cache e k hk)) (acted_not_sealed _)
  | group g => exact hs.frame hsalt le_rfl (.refl _) hs.cache (acted_not_sealed _)
  | burnt cache own bound =>
    exact hs.frame hsalt (Nat.le_succ _) (.refl _) own fun _ => List.not_mem_nil
  | queued job counter bound staged =>
    rw [List.append_nil]
    exact { hs with
      fresh := by
        rw [List.map_append, List.nodup_append]
        refine ⟨hs.fresh, List.nodup_singleton _, ?_⟩
        intro n hn n' hn'
        obtain ⟨job', hjob', rfl⟩ := List.mem_map.mp hn
        rw [List.mem_singleton.mp hn']
        have := hs.drawn job' hjob'
        dsimp only
        omega
      drawn := by
        intro job' hjob'
        rcases List.mem_snoc.mp hjob' with hold | rfl
        · exact (hs.drawn job' hold).trans (Nat.le_succ _)
        · exact counter.le
      staged := by
        intro job' hjob'
        rcases List.mem_snoc.mp hjob' with hold | rfl
        · exact hs.staged job' hold
        · exact staged
      used := by
        intro d b hd hb
        obtain ⟨hle, hne, hkey⟩ := hs.used d b hd hb
        refine ⟨hle.trans (Nat.le_succ _), fun job' hjob' => ?_, hkey⟩
        rcases List.mem_snoc.mp hjob' with hold | rfl
        · exact hne job' hold
        · rw [counter]
          exact (hnew d b hd hb).symm }
  | sealedGroup cache d b own box nonce key bound =>
    refine hs.sealed hsalt (Nat.le_succ _) (.refl _) own box key.sealer nonce.le ?_ ?_
    · intro job hjob
      have := hs.drawn job hjob
      omega
    · rw [nonce]
      exact hnew
  | jobFailed job =>
    exact hs.frame hsalt le_rfl List.erase_sublist hs.cache fun _ => List.not_mem_nil
  | jobSealed job s d b mem current box nonce key =>
    refine hs.sealed hsalt le_rfl List.erase_sublist hs.cache box (key ▸ hkeys job.peer s current)
      (nonce ▸ hs.drawn job mem) (fun job' hjob' heq => ?_) fun d' b' hd' hb' => ?_
    · -- counters tell the jobs apart
      have hsame : job' = job :=
        List.inj_on_of_nodup_map hs.fresh (List.mem_of_mem_erase hjob') mem (heq.trans nonce)
      rw [hsame] at hjob'
      exact (List.Nodup.of_map _ hs.fresh).not_mem_erase hjob'
    · rw [nonce]
      exact ((hs.used d' b' hd' hb').2.1 job mem).symm
  | openedPairwise sender d c ok =>
    refine hs.frame hsalt le_rfl (.refl _) (fun e k hk => hown k (hs.cache e k hk)) ?_
    simp
  | openedGroup P sender groupKey salt d b window fresh steps box key check =>
    refine hs.frame hsalt le_rfl (.refl _) (fun e k hk => hown k (hs.cache e k hk)) ?_
    cases fresh <;> simp

/-! ## Opens of one process -/

/-- The process opened a datagram under this key with this counter. -/
def OpenedUnder (past : List TransportEvent) (k : AesKey) (c : ℕ) : Prop :=
  ∃ d b, .opened d ∈ past ∧ d.box = some b ∧ b.key = k ∧ d.counter = c

/-- What a process opened. -/
structure Opener (t : SharedTransport) (past : List TransportEvent) : Prop where
  ledger : ∃ place, t.peers.Ledger (OpenedUnder past) place
  boxed : ∀ d, .opened d ∈ past → ∃ b, d.box = some b
  group : ∀ d b groupKey sender salt, .opened d ∈ past → d.box = some b →
    b.key = .send groupKey sender salt →
    (t.groupReplay (sender, Bytes.num d.header 14 16, salt)).Seen d.counter
  once : past.Pairwise fun e e' => ∀ d, e = .opened d → e' ≠ .opened d

theorem opener_new (identity : PublicKey) (allowlist : Allowlist) {selfId : NodeId}
    (hid : selfId < 2 ^ 32) (salt : BootSalt) :
    Opener (new (.new identity allowlist selfId hid salt)) [] where
  ledger := by
    have hnone : OpenedUnder [] = fun _ _ => False := by
      funext k c
      simp [OpenedUnder]
    rw [hnone]
    exact ⟨_, Peers.ledger_new identity allowlist hid salt⟩
  boxed _ h := absurd h List.not_mem_nil
  group _ _ _ _ _ h := absurd h List.not_mem_nil
  once := List.Pairwise.nil

theorem openedUnder_append {k : AesKey} {c : ℕ} (hevents : ∀ d, .opened d ∉ events) :
    OpenedUnder (past ++ events) k c ↔ OpenedUnder past k c := by
  unfold OpenedUnder
  simp [hevents]

theorem Opener.frame (h : t.Opener past) (hledger : ∃ place, t'.peers.Ledger (OpenedUnder past) place)
    (hgroup : ∀ w c, (t.groupReplay w).Seen c → (t'.groupReplay w).Seen c)
    (hevents : ∀ d, .opened d ∉ events) : t'.Opener (past ++ events) where
  ledger := by
    have hsame : OpenedUnder (past ++ events) = OpenedUnder past :=
      funext fun k => funext fun c => propext (openedUnder_append hevents)
    rw [hsame]
    exact hledger
  boxed d hd := by
    rcases List.mem_append.mp hd with hd | hd
    · exact h.boxed d hd
    · exact absurd hd (hevents d)
  group d b groupKey sender salt hd hb hk := by
    rcases List.mem_append.mp hd with hd | hd
    · exact hgroup _ _ (h.group d b groupKey sender salt hd hb hk)
    · exact absurd hd (hevents d)
  once := by
    refine List.pairwise_append.mpr ⟨h.once, ?_, ?_⟩
    · exact List.Pairwise.imp_of_mem (fun {e e'} he _ _ d hd => absurd (hd ▸ he) (hevents d))
        (List.pairwise_of_forall (R := fun _ _ => True) fun _ _ => trivial)
    · intro e _ e' he' d _ hd'
      exact absurd (hd' ▸ he') (hevents d)

theorem Opener.opened (h : t.Opener past) {d : Datagram} {b : Box} (hbox : d.box = some b)
    (hnew : ¬ .opened d ∈ past)
    (hledger : ∃ place, t'.peers.Ledger (OpenedUnder (past ++ [.opened d])) place)
    (hgroup : ∀ w c, (t.groupReplay w).Seen c → (t'.groupReplay w).Seen c)
    (hmarked : ∀ groupKey sender salt, b.key = .send groupKey sender salt →
      (t'.groupReplay (sender, Bytes.num d.header 14 16, salt)).Seen d.counter) :
    t'.Opener (past ++ [.opened d]) where
  ledger := hledger
  boxed d' hd' := by
    rcases List.mem_append.mp hd' with hd' | hd'
    · exact h.boxed d' hd'
    · cases List.mem_singleton.mp hd'
      exact ⟨b, hbox⟩
  group d' b' groupKey sender salt hd' hb' hk := by
    rcases List.mem_append.mp hd' with hd' | hd'
    · exact hgroup _ _ (h.group d' b' groupKey sender salt hd' hb' hk)
    · cases List.mem_singleton.mp hd'
      obtain rfl := Option.some.inj (hbox.symm.trans hb')
      exact hmarked groupKey sender salt hk
  once := by
    refine List.pairwise_append.mpr ⟨h.once, List.pairwise_singleton _ _, ?_⟩
    rintro e he e' he' d' rfl rfl
    cases List.mem_singleton.mp he'
    exact hnew he

theorem openedUnder_last {d : Datagram} {b : Box} (hbox : d.box = some b) {k : AesKey} {c : ℕ} :
    OpenedUnder (past ++ [.opened d]) k c ↔ OpenedUnder past k c ∨ (k = b.key ∧ c = d.counter) := by
  constructor
  · rintro ⟨d', b', hd', hb', rfl, rfl⟩
    rcases List.mem_append.mp hd' with hd' | hd'
    · exact .inl ⟨d', b', hd', hb', rfl, rfl⟩
    · cases List.mem_singleton.mp hd'
      obtain rfl := Option.some.inj (hbox.symm.trans hb')
      exact .inr ⟨rfl, rfl⟩
  · rintro (⟨d', b', hd', hb', rfl, rfl⟩ | ⟨rfl, rfl⟩)
    · exact ⟨d', b', List.mem_append_left _ hd', hb', rfl, rfl⟩
    · exact ⟨d, b, List.mem_concat_self, hbox, rfl, rfl⟩

theorem Effect.opener (h : Effect input t t' events) (ho : t.Opener past) : t'.Opener (past ++ events) := by
  obtain ⟨place, hledger⟩ := ho.ledger
  have hquiet : ∀ acts : List HandshakeAction, ∀ d, .opened d ∉ acts.map TransportEvent.acted := by
    simp
  cases h with
  | message sender body received step =>
    exact ho.frame (Peers.PeersStep.ledger step hledger) (fun _ _ h => h) (hquiet _)
  | peers steps =>
    exact ho.frame (Peers.PeersSteps.ledger steps hledger) (fun _ _ h => h) (hquiet _)
  | group g => exact ho.frame ⟨place, hledger⟩ (fun _ _ h => h) (hquiet _)
  | burnt | queued | jobFailed =>
    exact ho.frame ⟨place, hledger⟩ (fun _ _ h => h) fun _ => List.not_mem_nil
  | sealedGroup | jobSealed =>
    exact ho.frame ⟨place, hledger⟩ (fun _ _ h => h) (by simp)
  | openedPairwise sender d c ok =>
    obtain ⟨k, b, hbox, rfl, hown, hnew, place', hledger'⟩ := hledger.openPairwise ok
    refine ho.opened hbox (fun hd => hnew ⟨d, b, hd, hbox, rfl, rfl⟩) ⟨place', ?_⟩ (fun _ _ h => h) ?_
    · have hsame : OpenedUnder (past ++ [.opened d]) = _ :=
        funext fun k => funext fun c => propext (openedUnder_last hbox)
      rw [hsame]
      exact hledger'
    · intro groupKey sender' salt hk
      rw [hk] at hown
      exact absurd rfl hown
  | openedGroup P sender groupKey salt d b window fresh steps box key check =>
    obtain ⟨place', hledger'⟩ := Peers.PeersSteps.ledger steps hledger
    have hwindow : window = ((t.groupReplay (sender, Bytes.num d.header 14 16, salt)).checkAndSet
        d.counter).1 := by
      rw [check]
    have hgroup : ∀ w c, (t.groupReplay w).Seen c →
        (Function.update t.groupReplay (sender, Bytes.num d.header 14 16, salt) window w).Seen c := by
      intro w c hseen
      by_cases hw : w = (sender, Bytes.num d.header 14 16, salt)
      · subst hw
        rw [Function.update_self, hwindow]
        exact hseen.checkAndSet d.counter
      · rw [Function.update_of_ne hw]
        exact hseen
    cases fresh with
    | false => exact ho.frame ⟨place', hledger'⟩ hgroup fun _ => List.not_mem_nil
    | true =>
      refine ho.opened box (fun hd => ?_) ⟨place', ?_⟩ hgroup ?_
      · have hseen := ho.group d b groupKey sender salt hd box key
        rw [ReplayWindow.checkAndSet_seen hseen] at check
        cases check
      · refine hledger'.widen fun k c hA => ?_
        rcases (openedUnder_last box).mp hA with hA | ⟨rfl, rfl⟩
        · exact .inl hA
        · right
          rw [key]
          rfl
      · intro groupKey' sender' salt' hk
        rw [key] at hk
        cases hk
        dsimp only
        rw [Function.update_self, hwindow]
        exact ReplayWindow.seen_checkAndSet (by rw [check])

/-! ## A seal that fails -/

variable {after : Buffer} {buf : Bytes} {err : CryptoError}

theorem sealWith_error {key : AesKey} {counter : ℕ} (hlen : buf.length ≤ maxDatagram)
    (h : sealWith buf key counter = (after, .error err)) :
    after = .clear buf ∧ buf.length < datagramHeaderLen := by
  unfold sealWith at h
  dsimp only at h
  have hshort : ¬ maxPlaintext < (buf.drop datagramHeaderLen).length := by
    have hmax : maxDatagram ≤ maxPlaintext := by decide
    rw [List.length_drop]
    omega
  rw [if_neg hshort] at h
  split_ifs at h with hlt
  · cases h
    exact ⟨rfl, hlt⟩
  · cases h

/-- The epoch is stamped only once the header is known to be there, and then the
    seal does not fail. -/
theorem sealWith_stampEpoch {key : AesKey} {counter epoch : ℕ} (hlen : buf.length ≤ maxDatagram)
    (hheader : ¬ buf.length < datagramHeaderLen) :
    sealWith (stampEpoch buf epoch) key counter ≠ (after, .error err) := by
  intro h
  have hsame : (stampEpoch buf epoch).length = buf.length := by
    have h16 : datagramHeaderLen = 16 := rfl
    have h14 : offDgramKeyEpoch = 14 := rfl
    simp only [stampEpoch, List.length_append, List.length_take, List.length_drop, Bytes.length_le]
    omega
  exact hheader (hsame ▸ (sealWith_error (hsame ▸ hlen) h).2)

theorem sealGroup_error {now : ℕ} (hlen : buf.length ≤ maxDatagram)
    (h : (t.sealGroup buf now).2 = (after, .error err)) : after = .clear buf := by
  unfold sealGroup at h
  split_ifs at h with hshort
  · cases h
    rfl
  split at h
  · cases h
    rfl
  dsimp only at h
  split at h
  · cases h
    rfl
  · exact absurd h (sealWith_stampEpoch hlen hshort)

theorem sealGroupControl_error {now : ℕ} (hlen : buf.length ≤ maxDatagram)
    (h : (t.sealGroupControl buf now).2 = (after, .error err)) : after = .clear buf := by
  unfold sealGroupControl at h
  split_ifs at h with hshort
  · cases h
    rfl
  split at h
  · cases h
    rfl
  split at h
  · cases h
    rfl
  · exact absurd h (sealWith_stampEpoch hlen hshort)

theorem sealResult_error {c : TransportCall}
    (hstaged : ∀ job ∈ t.jobs, job.buf.length ≤ maxDatagram) (h : t.Possible c)
    (hr : t.sealResult c = some (buf, after, .error err)) : after = .clear buf := by
  cases c with
  | sealDatagram control kind peer staged now =>
    obtain ⟨r, hbegin, hpair⟩ := Option.map_eq_some_iff.mp hr
    obtain ⟨rfl, rfl⟩ := Prod.mk.inj hpair
    unfold beginSeal at hbegin
    split at hbegin
    · obtain hgroup := Option.some.inj hbegin
      cases control with
      | true => exact sealGroupControl_error h.1 hgroup
      | false => exact sealGroup_error h.1 hgroup
    · split at hbegin
      · cases hbegin
        rfl
      · cases hbegin
    · cases hbegin
      rfl
  | finishSeal job =>
    obtain ⟨rfl, hfinish⟩ := Prod.mk.inj (Option.some.inj hr)
    unfold finishSeal Peers.sealPairwise at hfinish
    dsimp only at hfinish
    split at hfinish
    · cases hfinish
      rfl
    · exact (sealWith_error (hstaged job h) hfinish).1
  | initiate | onHandshakeMessage | tick | reload | mint | onGroupKeyMessage | openDatagram => cases hr

end SharedTransport

namespace CryptoWorld

open SharedTransport

variable {w : CryptoWorld}

/-- The events of a process. -/
def past (w : CryptoWorld) (i : ℕ) : List TransportEvent :=
  w.log.filterMap fun e => if e.1 = i then some e.2 else none

variable {i j : ℕ}

theorem mem_past {e : TransportEvent} : e ∈ w.past i ↔ (i, e) ∈ w.log := by
  unfold past
  rw [List.mem_filterMap]
  constructor
  · rintro ⟨⟨j, e'⟩, hmem, heq⟩
    split_ifs at heq with hj
    cases heq
    exact hj ▸ hmem
  · intro hmem
    exact ⟨(i, e), hmem, if_pos rfl⟩

/-- The invariant over all processes. -/
structure Inv (w : CryptoWorld) : Prop where
  sealer : ∀ i (t : SharedTransport), w.processes[i]? = some t → t.Sealer (w.past i)
  opener : ∀ i (t : SharedTransport), w.processes[i]? = some t → t.Opener (w.past i)
  salts : (w.processes.map (·.peers.bootSalt)).Nodup
  acting : ∀ e ∈ w.log, e.1 < w.processes.length

theorem inv_start : Inv start where
  sealer _ _ h := by cases h
  opener _ _ h := by cases h
  salts := List.nodup_nil
  acting _ h := absurd h List.not_mem_nil

theorem past_call {events : List TransportEvent} {processes : List SharedTransport} :
    past ⟨processes, w.log ++ events.map fun e => (i, e)⟩ j =
      w.past j ++ if i = j then events else [] := by
  unfold past
  rw [List.filterMap_append, List.filterMap_map]
  congr 1
  by_cases hij : i = j
  · simp [hij]
  · simp [hij]

theorem boot_cases {identity : PublicKey} {allowlist : Allowlist} {selfId : NodeId}
    {hid : selfId < 2 ^ 32} {salt : BootSalt} {t : SharedTransport}
    (ht : (w.exec (.boot identity allowlist selfId hid salt)).processes[i]? = some t) :
    w.processes[i]? = some t ∨
      (i = w.processes.length ∧ t = new (.new identity allowlist selfId hid salt)) := by
  change (w.processes ++ [_])[i]? = some t at ht
  rcases lt_trichotomy i w.processes.length with hlt | rfl | hgt
  · rw [List.getElem?_append_left hlt] at ht
    exact .inl ht
  · rw [List.getElem?_concat_length] at ht
    exact .inr ⟨rfl, (Option.some.inj ht).symm⟩
  · rw [List.getElem?_eq_none (by simp; omega)] at ht
    cases ht

theorem exec_call {t : SharedTransport} (ht : w.processes[i]? = some t) (c : TransportCall) :
    w.exec (.call i c) =
      ⟨w.processes.set i (t.exec c).1, w.log ++ (t.exec c).2.map fun e => (i, e)⟩ := by
  dsimp only [exec]
  rw [ht]

theorem call_cases {t t' : SharedTransport} (ht : w.processes[i]? = some t) {c : TransportCall}
    (ht' : (w.exec (.call i c)).processes[j]? = some t') :
    (i = j ∧ t' = (t.exec c).1) ∨ (i ≠ j ∧ w.processes[j]? = some t') := by
  rw [exec_call ht, List.getElem?_set] at ht'
  split_ifs at ht' with hij
  · exact .inl ⟨hij, (Option.some.inj ht').symm⟩
  · exact .inr ⟨hij, ht'⟩

theorem Inv.boot (h : w.Inv) {identity : PublicKey} {allowlist : Allowlist} {selfId : NodeId}
    {hid : selfId < 2 ^ 32} {salt : BootSalt}
    (hp : w.Possible (.boot identity allowlist selfId hid salt)) :
    (w.exec (.boot identity allowlist selfId hid salt)).Inv := by
  have hnone : w.past w.processes.length = [] := by
    rw [List.eq_nil_iff_forall_not_mem]
    intro e he
    exact absurd (h.acting _ (mem_past.mp he)) (lt_irrefl _)
  exact {
    sealer := by
      intro i t ht
      rcases boot_cases ht with hold | ⟨rfl, rfl⟩
      · exact h.sealer i t hold
      · exact hnone.symm ▸ sealer_new _
    opener := by
      intro i t ht
      rcases boot_cases ht with hold | ⟨rfl, rfl⟩
      · exact h.opener i t hold
      · exact hnone.symm ▸ opener_new identity allowlist hid salt
    salts := by
      change ((w.processes ++ [_]).map _).Nodup
      rw [List.map_append, List.nodup_append]
      refine ⟨h.salts, List.nodup_singleton _, ?_⟩
      rintro s hs s' hs'
      obtain ⟨t, ht, rfl⟩ := List.mem_map.mp hs
      rw [List.mem_singleton.mp hs']
      exact hp t ht
    acting := by
      intro e he
      have := h.acting e he
      simp only [exec, List.length_append]
      omega }

theorem Inv.call (h : w.Inv) {c : TransportCall} (hp : w.Possible (.call i c)) :
    (w.exec (.call i c)).Inv := by
  obtain ⟨t, ht, hp⟩ := hp
  have hsealer := h.sealer i t ht
  have hopener := h.opener i t ht
  have heffect : Effect c.input t (t.exec c).1 (t.exec c).2 := exec_effect hsealer.cache hp
  obtain ⟨place, hledger⟩ := hopener.ledger
  have hlt : i < w.processes.length := (List.getElem?_eq_some_iff.mp ht).1
  have hcases : ∀ j t', (w.exec (.call i c)).processes[j]? = some t' →
      (i = j ∧ t' = (t.exec c).1) ∨ (i ≠ j ∧ w.processes[j]? = some t') := fun j t' => call_cases ht
  rw [exec_call ht] at hcases ⊢
  exact {
    sealer := by
      intro j t' ht'
      rw [past_call]
      rcases hcases j t' ht' with ⟨rfl, rfl⟩ | ⟨hij, hold⟩
      · rw [if_pos rfl]
        exact heffect.sealer hsealer fun x s hs => hledger.sealer x true s hs
      · rw [if_neg hij, List.append_nil]
        exact h.sealer j t' hold
    opener := by
      intro j t' ht'
      rw [past_call]
      rcases hcases j t' ht' with ⟨rfl, rfl⟩ | ⟨hij, hold⟩
      · rw [if_pos rfl]
        exact heffect.opener hopener
      · rw [if_neg hij, List.append_nil]
        exact h.opener j t' hold
    salts := by
      rw [List.map_set, heffect.same.bootSalt]
      have hsame : (w.processes.map (·.peers.bootSalt)).set i t.peers.bootSalt =
          w.processes.map (·.peers.bootSalt) := by
        rw [← List.map_set]
        congr 1
        obtain ⟨_, hget⟩ := List.getElem?_eq_some_iff.mp ht
        rw [← hget, List.set_getElem_self]
      rw [hsame]
      exact h.salts
    acting := by
      intro e he
      rw [List.length_set]
      rcases List.mem_append.mp he with he | he
      · exact h.acting e he
      · obtain ⟨e', -, rfl⟩ := List.mem_map.mp he
        exact hlt }

theorem Runs.inv {steps : List CryptoStep} (h : Runs start steps) : (start.run steps).Inv := by
  refine Trace.Admits.rule (P := fun steps => (start.run steps).Inv) inv_start ?_ h
  intro steps step hinv hp
  unfold run
  rw [List.foldl_append]
  cases step with
  | boot identity allowlist selfId hid salt => exact hinv.boot hp
  | call i c => exact hinv.call hp

theorem pairwise_past {R : TransportEvent → TransportEvent → Prop} (h : (w.past i).Pairwise R) :
    w.log.Pairwise fun e e' => e.1 = i → e'.1 = i → R e.2 e'.2 := by
  refine (List.pairwise_filterMap.mp h).imp ?_
  intro e e' hR he he'
  exact hR e.2 (if_pos he) e'.2 (if_pos he')

theorem Inv.process (h : w.Inv) {e : ℕ × TransportEvent} (he : e ∈ w.log) :
    ∃ t, w.processes[e.1]? = some t :=
  ⟨_, List.getElem?_eq_getElem (h.acting e he)⟩

/-- Two seals anywhere: of one process by its counter, of two by their keys. -/
theorem Inv.noncesApart (h : w.Inv) :
    w.log.Pairwise fun e e' => ∀ d d', e.2 = .sealed d → e'.2 = .sealed d' → NoncesApart d d' := by
  rw [List.pairwise_iff_getElem]
  intro p q hp hq hpq d d' hd hd'
  have hmem : w.log[p] ∈ w.log := List.getElem_mem hp
  have hmem' : w.log[q] ∈ w.log := List.getElem_mem hq
  obtain ⟨t, ht⟩ := h.process hmem
  obtain ⟨t', ht'⟩ := h.process hmem'
  by_cases hsame : w.log[q].1 = w.log[p].1
  · have hpast := pairwise_past (h.sealer _ t ht).apart
    exact List.pairwise_iff_getElem.mp hpast p q hp hq hpq rfl hsame d d' hd hd'
  · intro b b' hb hb' hkey _
    have hsealed : ∀ e ∈ w.log, e.2 = .sealed d → .sealed d ∈ w.past e.1 := by
      rintro ⟨i, e⟩ he rfl
      exact mem_past.mpr he
    have hsealed' : ∀ e ∈ w.log, e.2 = .sealed d' → .sealed d' ∈ w.past e.1 := by
      rintro ⟨i, e⟩ he rfl
      exact mem_past.mpr he
    have hsalt := ((h.sealer _ t ht).used d b (hsealed _ hmem hd) hb).2.2
    have hsalt' := ((h.sealer _ t' ht').used d' b' (hsealed' _ hmem' hd') hb').2.2
    -- the salts tell the processes apart
    rw [hkey, hsalt'] at hsalt
    have hget : (w.processes.map (·.peers.bootSalt))[w.log[q].1]? =
        (w.processes.map (·.peers.bootSalt))[w.log[p].1]? := by
      rw [List.getElem?_map, List.getElem?_map, ht, ht']
      exact congrArg some hsalt
    exact hsame ((List.getElem?_inj (by simpa using h.acting _ hmem') h.salts).mp hget)

theorem Inv.openedOnce (h : w.Inv) :
    w.log.Pairwise fun e e' => e'.1 = e.1 → ∀ d, e.2 = .opened d → e'.2 ≠ .opened d := by
  rw [List.pairwise_iff_getElem]
  intro p q hp hq hpq hsame
  obtain ⟨t, ht⟩ := h.process (List.getElem_mem hp)
  have hpast := pairwise_past (h.opener _ t ht).once
  exact List.pairwise_iff_getElem.mp hpast p q hp hq hpq rfl hsame

/-- No key is used twice with one nonce, a seal that fails leaves the staged
    datagram, and a process opens a datagram once. -/
theorem seals_and_opens_once {steps : List CryptoStep} (h : Runs start steps) :
    ((start.run steps).log.Pairwise fun e e' =>
      ∀ d d', e.2 = .sealed d → e'.2 = .sealed d' → NoncesApart d d') ∧
    (∀ (i : ℕ) (t : SharedTransport) (c : TransportCall) (buf : Bytes) (after : Buffer)
      (err : CryptoError), (start.run steps).processes[i]? = some t → t.Possible c →
      t.sealResult c = some (buf, after, .error err) → after = .clear buf) ∧
    ((start.run steps).log.Pairwise fun e e' =>
      e'.1 = e.1 → ∀ d, e.2 = .opened d → e'.2 ≠ .opened d) := by
  have hinv := h.inv
  refine ⟨hinv.noncesApart, ?_, hinv.openedOnce⟩
  intro i t c buf after err ht hp hr
  exact sealResult_error (hinv.sealer i t ht).staged hp hr

/-- Message 2 of node 2 for `Peers.firstContact`. -/
def firstAnswer : RespMessage :=
  ⟨Peers.firstContact, ⟨Peers.saltTwo, 0⟩, encodePayload 2 Peers.saltTwo⟩

/-- A header of kind 3, no more. -/
def firstStaged : Bytes := List.replicate 12 0 ++ [3, 0, 0, 0]

def firstSealed : Datagram :=
  ⟨firstStaged, 1, some ⟨.transport firstAnswer true, 1, firstStaged, []⟩⟩

/-- Node 1 meets node 2. -/
def meeting : List CryptoStep :=
  [.boot [1] ⟨[(2, [2])], 0, 0⟩ 1 Peers.nodeOne_lt Peers.saltOne,
    .boot [2] ⟨[(1, [1])], 0, 0⟩ 2 (by decide) Peers.saltTwo,
    .call 0 (.initiate 0 none 2),
    .call 1 (.onHandshakeMessage 0 none 1 18 (.init Peers.firstContact)),
    .call 0 (.onHandshakeMessage 0 none 2 19 (.resp firstAnswer))]

/-- They meet, node 1 seals a datagram and fails at a second, and the network
    delivers the first twice. -/
def firstMeeting : List CryptoStep :=
  meeting ++ [.call 0 (.sealDatagram false 3 (some 2) firstStaged 0),
    .call 0 (.finishSeal ⟨2, firstStaged, 1⟩),
    .call 0 (.sealDatagram false 1 none firstStaged 0),
    .call 1 (.openDatagram false 1 firstSealed),
    .call 1 (.openDatagram true 1 firstSealed)]

theorem seals_and_opens_once_firstMeeting :
    (0, .sealed firstSealed) ∈ (start.run firstMeeting).log ∧
    (1, .opened firstSealed) ∈ (start.run firstMeeting).log ∧
    (start.run firstMeeting).log.Pairwise fun e e' =>
      e'.1 = e.1 → ∀ d, e.2 = .opened d → e'.2 ≠ .opened d :=
  ⟨by decide +kernel, by decide +kernel, (seals_and_opens_once (by decide +kernel)).2.2⟩

end CryptoWorld

end UltimaCluster
