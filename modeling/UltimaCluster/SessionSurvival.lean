/-
  A shared session survives every replay but one.

  A process completes one attempt with a peer at most, and never after it has
  answered the peer; so of two processes only one has completed an attempt with
  the other (`crossed`).  A session parked beside one with the running process of
  the peer can have been completed by no other boot (`later`).  Together: nothing
  that the network replays opens under a parked session while the current one is
  shared, a datagram of group scope apart.
-/
import UltimaCluster.SessionCalls

namespace UltimaCluster

open Function (update update_of_ne update_self)

namespace CryptoWorld

open SharedTransport

variable {w : CryptoWorld} {done : ℕ → NodeId → Option RespMessage}

/-- `done i y` is the attempt that process `i` completed with `y`. -/
structure Sessions (w : CryptoWorld) (done : ℕ → NodeId → Option RespMessage) : Prop where
  straight : ∀ (i : ℕ) (t : SharedTransport) y, w.processes[i]? = some t →
    (t.peers.link y).Straight t.peers.selfId t.peers.bootSalt y (done i y)
  acting : ∀ i y, done i y ≠ none → i < w.processes.length
  wrote : ∀ (i : ℕ) (t : SharedTransport) p kind body, w.processes[i]? = some t →
    (i, .acted (.send p kind body)) ∈ w.log → t.Wrote p body
  used : ∀ i d b h, (i, .sealed d) ∈ w.log → d.box = some b → b.key = .transport h true →
    ∃ y, done i y = some h
  answered : ∀ i y h, done i y = some h →
    ∃ j p kind, (j, .acted (.send p kind (.resp h))) ∈ w.log
  known : ∀ (i : ℕ) (t : SharedTransport) y s, w.processes[i]? = some t → (t.peers.link y).Holds s →
    ∃ (k : ℕ) (u : SharedTransport), w.processes[k]? = some u ∧ u.peers.selfId = y ∧
      u.peers.bootSalt = s.bootSalt ∧
      ∀ h initiator, s.EndOf h initiator → h.process (!initiator) = s.bootSalt
  crossed : ∀ (i j : ℕ) (t u : SharedTransport) h g, w.processes[i]? = some t → w.processes[j]? = some u →
    done i u.peers.selfId = some h → done j t.peers.selfId = some g →
    h.ephemeral.process = u.peers.bootSalt → g.ephemeral.process ≠ t.peers.bootSalt
  later : ∀ (i j : ℕ) (t u : SharedTransport) c s h x, w.processes[i]? = some t →
    w.processes[j]? = some u → w.Running j →
    (t.peers.link u.peers.selfId).current = some c → c.bootSalt = u.peers.bootSalt →
    (t.peers.link u.peers.selfId).pending = some s → s.openKey = .transport h true →
    done x t.peers.selfId = some h → x = j

theorem sessions_start : Sessions start fun _ _ => none where
  straight _ _ _ h := by cases h
  acting _ _ h := absurd rfl h
  wrote _ _ _ _ _ h := by cases h
  used _ _ _ _ h := absurd h List.not_mem_nil
  answered _ _ _ h := by cases h
  known _ _ _ _ h := by cases h
  crossed _ _ _ _ _ _ h := by cases h
  later _ _ _ _ _ _ _ _ h := by cases h

variable {i j : ℕ} {t u : SharedTransport}

theorem Inv.index (h : w.Inv) (hi : w.processes[i]? = some t) (hj : w.processes[j]? = some u)
    (hsalt : t.peers.bootSalt = u.peers.bootSalt) : i = j := by
  have hlt : i < w.processes.length := (List.getElem?_eq_some_iff.mp hi).1
  refine (List.getElem?_inj (by simpa using hlt) h.salts).mp ?_
  rw [List.getElem?_map, List.getElem?_map, hi, hj]
  exact congrArg some hsalt

theorem Running.unique (hi : w.processes[i]? = some t) (hj : w.processes[j]? = some u)
    (hri : w.Running i) (hrj : w.Running j) (hid : t.peers.selfId = u.peers.selfId) : i = j := by
  have hle : ∀ {i j : ℕ} {t u : SharedTransport}, w.processes[i]? = some t →
      w.processes[j]? = some u → w.Running i → t.peers.selfId = u.peers.selfId → j ≤ i := by
    intro i j t u hi hj hri hid
    obtain ⟨t', ht', hlast⟩ := hri
    obtain rfl := Option.some.inj (hi.symm.trans ht')
    by_contra hlt
    refine hlast u ?_ hid.symm
    rw [List.mem_iff_getElem?]
    exact ⟨j - (i + 1), by rw [List.getElem?_drop, ← hj]; congr 1; omega⟩
  exact le_antisymm (hle hj hi hrj hid.symm) (hle hi hj hri hid)

theorem Sessions.sender (h : w.Sessions done) (hinv : w.Inv) {j k kind : ℕ} {p : NodeId}
    {g : RespMessage} (hmem : (j, .acted (.send p kind (.resp g))) ∈ w.log)
    (hk : w.processes[k]? = some u) (hprocess : g.ephemeral.process = u.peers.bootSalt) :
    ∃ p, u.Wrote p (.resp g) := by
  obtain ⟨v, hv⟩ := hinv.process hmem
  have hwrote := h.wrote j v p kind _ hv hmem
  obtain rfl := hinv.index hv hk (hwrote.1.symm.trans hprocess)
  obtain rfl := Option.some.inj (hv.symm.trans hk)
  exact ⟨p, hwrote⟩

theorem getElem?_boot (ht : w.processes[i]? = some t) (identity : PublicKey) (allowlist : Allowlist)
    (selfId : NodeId) (hid : selfId < 2 ^ 32) (salt : BootSalt) :
    (w.exec (.boot identity allowlist selfId hid salt)).processes[i]? = some t := by
  have hlt : i < w.processes.length := (List.getElem?_eq_some_iff.mp ht).1
  change (w.processes ++ [_])[i]? = some t
  rw [List.getElem?_append_left hlt]
  exact ht

variable {salt : BootSalt}

theorem Running.of_boot {identity : PublicKey} {allowlist : Allowlist} {selfId : NodeId}
    {hid : selfId < 2 ^ 32} (ht : w.processes[i]? = some t)
    (h : (w.exec (.boot identity allowlist selfId hid salt)).Running i) : w.Running i := by
  obtain ⟨t', ht', hlast⟩ := h
  obtain rfl := Option.some.inj ((getElem?_boot ht identity allowlist selfId hid salt).symm.trans ht')
  refine ⟨t, ht, fun u hu => hlast u ?_⟩
  change u ∈ (w.processes ++ [_]).drop (i + 1)
  have hlt : i < w.processes.length := (List.getElem?_eq_some_iff.mp ht).1
  rw [List.drop_append_of_le_length (by omega)]
  exact List.mem_append_left _ hu

theorem Sessions.boot (h : w.Sessions done) (hinv : w.Inv) {identity : PublicKey}
    {allowlist : Allowlist} {selfId : NodeId} {hid : selfId < 2 ^ 32}
    (hp : w.Possible (.boot identity allowlist selfId hid salt)) :
    (w.exec (.boot identity allowlist selfId hid salt)).Sessions done := by
  have hnone : ∀ y, done w.processes.length y = none := by
    intro y
    by_contra hne
    exact absurd (h.acting _ y hne) (lt_irrefl _)
  exact { h with
    straight := by
      intro i t y ht
      rcases boot_cases ht with hold | ⟨rfl, rfl⟩
      · exact h.straight i t y hold
      · rw [hnone y]
        exact Link.straight_new
    acting := by
      intro i y hne
      have := h.acting i y hne
      simp only [exec, List.length_append]
      omega
    wrote := by
      intro i t p kind body ht hmem
      rcases boot_cases ht with hold | ⟨rfl, rfl⟩
      · exact h.wrote i t p kind body hold hmem
      · exact absurd (hinv.acting _ hmem) (lt_irrefl _)
    known := by
      intro i t y s ht hs
      rcases boot_cases ht with hold | ⟨rfl, rfl⟩
      · obtain ⟨k, u, hu, hk⟩ := h.known i t y s hold hs
        exact ⟨k, u, getElem?_boot hu _ _ _ _ _, hk⟩
      · rcases hs with hs | hs <;> cases hs
    crossed := by
      intro i j t u hd g ht hu hi hj
      rcases boot_cases ht with hold | ⟨rfl, rfl⟩
      · rcases boot_cases hu with hold' | ⟨rfl, rfl⟩
        · exact h.crossed i j t u hd g hold hold' hi hj
        · rw [hnone] at hj
          cases hj
      · rw [hnone] at hi
        cases hi
    later := by
      intro i j t u c s hd x ht hu hrun hc hsalt hs hkey hx
      rcases boot_cases ht with hold | ⟨rfl, rfl⟩
      · rcases boot_cases hu with hold' | ⟨rfl, rfl⟩
        · exact h.later i j t u c s hd x hold hold' (hrun.of_boot hold') hc hsalt hs hkey hx
        · -- no session has the new salt
          obtain ⟨k, v, hv, -, hvsalt, -⟩ := h.known i t _ c hold (.inl hc)
          exact absurd (hvsalt.trans hsalt) (hp v (List.mem_of_getElem? hv))
      · cases hc }

variable {c : TransportCall}

theorem call_before {n i : ℕ} {t t' : SharedTransport} (ht : w.processes[n]? = some t)
    (heffect : Effect c.input t (t.exec c).1 (t.exec c).2)
    (ht' : (w.exec (.call n c)).processes[i]? = some t') :
    ∃ t₀, w.processes[i]? = some t₀ ∧ t₀.peers.Same t'.peers := by
  rcases call_cases ht ht' with ⟨rfl, rfl⟩ | ⟨-, hold⟩
  · exact ⟨t, ht, heffect.same⟩
  · exact ⟨t', hold, Peers.Same.refl _⟩

theorem Running.of_call {n j : ℕ} (ht : w.processes[n]? = some t)
    (heffect : Effect c.input t (t.exec c).1 (t.exec c).2) (h : (w.exec (.call n c)).Running j) :
    w.Running j := by
  obtain ⟨u', hu', hlast⟩ := h
  obtain ⟨u, hu, hsame⟩ := call_before ht heffect hu'
  refine ⟨u, hu, fun v hv heq => ?_⟩
  obtain ⟨k, hk⟩ := List.mem_iff_getElem?.mp hv
  rw [List.getElem?_drop] at hk
  -- the same process after the call
  have hlen : j + 1 + k < (w.exec (.call n c)).processes.length := by
    rw [exec_call ht, List.length_set]
    exact (List.getElem?_eq_some_iff.mp hk).1
  obtain ⟨v₀, hv₀, hsame'⟩ := call_before ht heffect (List.getElem?_eq_getElem hlen)
  obtain rfl := Option.some.inj (hk.symm.trans hv₀)
  refine hlast _ (List.mem_iff_getElem?.mpr ⟨k, ?_⟩) (hsame'.selfId.trans (heq.trans hsame.selfId.symm))
  rw [List.getElem?_drop]
  exact List.getElem?_eq_getElem hlen

theorem claim_eq {b : Bytes} {y : NodeId} (hb : b = encodePayload u.peers.selfId u.peers.bootSalt)
    (hd : decodePayload b = some (y, salt)) : u.peers.selfId = y ∧ u.peers.bootSalt = salt := by
  rw [hb, decodePayload_encodePayload u.peers.selfId_lt] at hd
  exact Prod.mk.inj (Option.some.inj hd)

/-- A call of a running process; what it received was sent. -/
structure Called (w : CryptoWorld) (n : ℕ) (t : SharedTransport) (c : TransportCall) : Prop where
  process : w.processes[n]? = some t
  effect : Effect c.input t (t.exec c).1 (t.exec c).2
  running : w.Running n
  received : ∀ y body, c.input = some (y, body) →
    ∃ k p kind, (k, .acted (.send p kind body)) ∈ w.log

theorem Honest.called (hinv : w.Inv) {n : ℕ} (h : w.Honest (.call n c)) : ∃ t, w.Called n t c := by
  obtain ⟨⟨t, ht, hpossible⟩, hrunning, hdelivered⟩ := h
  refine ⟨t, ht, exec_effect (hinv.sealer n t ht).cache hpossible, hrunning, ?_⟩
  intro y body hinput
  cases c with
  | onHandshakeMessage now file sender kind body' =>
    obtain ⟨rfl, rfl⟩ := Prod.mk.inj (Option.some.inj hinput)
    obtain ⟨⟨k, e⟩, hmem, hsent⟩ := hdelivered
    unfold TransportEvent.sentBody at hsent
    split at hsent
    · rename_i p kind' body heq
      cases hsent
      dsimp only at heq
      exact ⟨k, p, kind', heq ▸ hmem⟩
    · cases hsent
  | initiate | tick | reload | mint | onGroupKeyMessage | sealDatagram | finishSeal | openDatagram =>
    cases hinput

section Call

variable {n : ℕ} {t : SharedTransport} {c : TransportCall} {next : NodeId → Option RespMessage}

/-- The attempts after the call: one may have been completed by message 2. -/
def NextDone (done : ℕ → NodeId → Option RespMessage) (n : ℕ) (t : SharedTransport)
    (c : TransportCall) (next : NodeId → Option RespMessage) : Prop :=
  ∀ y, next y = done n y ∨
    ∃ hd, c.input = some (y, .resp hd) ∧ (t.peers.link y).hs = some hd.init ∧ next y = some hd

theorem Called.log (hc : w.Called n t c) :
    (w.exec (.call n c)).log = w.log ++ (t.exec c).2.map fun e => (n, e) := by
  rw [exec_call hc.process]

theorem Called.log_mono (hc : w.Called n t c) {e : ℕ × TransportEvent} (he : e ∈ w.log) :
    e ∈ (w.exec (.call n c)).log := by
  rw [hc.log]
  exact List.mem_append_left _ he

theorem Called.mem_log (hc : w.Called n t c) {i : ℕ} {e : TransportEvent}
    (he : (i, e) ∈ (w.exec (.call n c)).log) : (i, e) ∈ w.log ∨ (i = n ∧ e ∈ (t.exec c).2) := by
  rw [hc.log] at he
  rcases List.mem_append.mp he with he | he
  · exact .inl he
  · obtain ⟨e', he', heq⟩ := List.mem_map.mp he
    obtain ⟨rfl, rfl⟩ := Prod.mk.inj heq
    exact .inr ⟨rfl, he'⟩

variable {g : RespMessage} {y : NodeId}

theorem NextDone.cases (hnext : NextDone done n t c next) {i : ℕ}
    (h : update done n next i y = some g) : done i y = some g ∨
      (i = n ∧ c.input = some (y, .resp g) ∧ (t.peers.link y).hs = some g.init) := by
  by_cases hi : i = n
  · subst hi
    rw [update_self] at h
    rcases hnext y with heq | ⟨hd, hinput, hhs, heq⟩
    · exact .inl (heq ▸ h)
    · obtain rfl := Option.some.inj (heq.symm.trans h)
      exact .inr ⟨rfl, hinput, hhs⟩
  · rw [update_of_ne hi] at h
    exact .inl h

theorem NextDone.mono (hnext : NextDone done n t c next) (h : w.Sessions done) (hc : w.Called n t c)
    {i : ℕ} (hdone : done i y = some g) : update done n next i y = some g := by
  by_cases hi : i = n
  · subst hi
    rw [update_self]
    rcases hnext y with heq | ⟨hd, -, hhs, -⟩
    · exact heq.trans hdone
    · -- a link with an attempt has completed none
      have hl := h.straight i t y hc.process
      rw [(hl.vacant (hl.attempt _ hhs).1).2] at hdone
      cases hdone
  · rw [update_of_ne hi]
    exact hdone

theorem NextDone.answered (hnext : NextDone done n t c next) (h : w.Sessions done)
    (hc : w.Called n t c) {i : ℕ} (hdone : update done n next i y = some g) :
    ∃ j p kind, (j, .acted (.send p kind (.resp g))) ∈ w.log := by
  rcases hnext.cases hdone with hold | ⟨-, hinput, -⟩
  · exact h.answered i y g hold
  · exact hc.received y _ hinput

theorem NextDone.answerer (hnext : NextDone done n t c next) (h : w.Sessions done) (hinv : w.Inv)
    (hc : w.Called n t c) {i k : ℕ} {u : SharedTransport}
    (hdone : update done n next i y = some g) (hk : w.processes[k]? = some u)
    (hprocess : g.ephemeral.process = u.peers.bootSalt) : ∃ p, u.Wrote p (.resp g) := by
  obtain ⟨j, p, kind, hmem⟩ := hnext.answered h hc hdone
  exact h.sender hinv hmem hk hprocess

theorem NextDone.initiator (hnext : NextDone done n t c next) (h : w.Sessions done)
    (hc : w.Called n t c) {i : ℕ} {u : SharedTransport}
    (hdone : update done n next i y = some g) (hu : w.processes[i]? = some u) :
    g.init.Of u.peers.selfId u.peers.bootSalt := by
  rcases hnext.cases hdone with hold | ⟨rfl, -, hhs⟩
  · exact ((h.straight i u y hu).finished g hold).1
  · obtain rfl := Option.some.inj (hc.process.symm.trans hu)
    exact ((h.straight i t y hu).attempt _ hhs).2

theorem Sessions.call_known (h : w.Sessions done) (hinv : w.Inv) (hc : w.Called n t c) {i : ℕ}
    {t' : SharedTransport} {s : Session} (ht' : (w.exec (.call n c)).processes[i]? = some t')
    (hs : (t'.peers.link y).Holds s) :
    ∃ (k : ℕ) (u : SharedTransport), w.processes[k]? = some u ∧ u.peers.selfId = y ∧
      u.peers.bootSalt = s.bootSalt ∧
      ∀ h initiator, s.EndOf h initiator → h.process (!initiator) = s.bootSalt := by
  rcases call_cases hc.process ht' with ⟨rfl, rfl⟩ | ⟨-, hold⟩
  · rcases hc.effect.holds hs with ⟨s₀, hs₀, hkeys⟩ | ⟨hd, initiator, hinput, hof, hpayload⟩
    · obtain ⟨k, u, hu, hid, hsalt, hends⟩ := h.known n t y s₀ hc.process hs₀
      refine ⟨k, u, hu, hid, hsalt.trans hkeys.bootSalt.symm, fun hd initiator hof => ?_⟩
      rw [hkeys.bootSalt]
      exact hends hd initiator
        ⟨hkeys.sealKey.symm.trans hof.sealKey, hkeys.openKey.symm.trans hof.openKey⟩
    · -- the writer of the message
      obtain ⟨k, p, kind, hmem⟩ := hc.received y _ hinput
      obtain ⟨u, hu⟩ := hinv.process hmem
      have hwrote := h.wrote k u p kind _ hu hmem
      have hother : hd.process (!initiator) = u.peers.bootSalt ∧
          hd.peerPayload initiator = encodePayload u.peers.selfId u.peers.bootSalt := by
        cases initiator with
        | true => exact ⟨hwrote.1, hwrote.2.2.1⟩
        | false => exact ⟨hwrote.process, hwrote.payload⟩
      obtain ⟨hid, hsalt⟩ := claim_eq hother.2 hpayload
      refine ⟨k, u, hu, hid, hsalt, fun hd' initiator' hof' => ?_⟩
      obtain ⟨rfl, rfl⟩ := hof.unique hof'
      exact hother.1.trans hsalt
  · exact h.known i t' y s hold hs

/-- A process with an attempt in flight has answered nobody: the other has not
    completed an attempt with it. -/
theorem NextDone.uncrossed (hnext : NextDone done n t c next) (h : w.Sessions done) (hinv : w.Inv)
    (hc : w.Called n t c) {j : ℕ} {u : SharedTransport} {m : InitMessage}
    (hu : w.processes[j]? = some u) (hhs : (t.peers.link u.peers.selfId).hs = some m)
    (hg : update done n next j y = some g) : g.ephemeral.process ≠ t.peers.bootSalt := by
  intro hprocess
  obtain ⟨p, -, -, -, ⟨salt, hclaim⟩, hcur⟩ := hnext.answerer h hinv hc hg hc.process hprocess
  -- the answer went to the process that asked
  obtain ⟨rfl, -⟩ := claim_eq (hnext.initiator h hc hg hu).payload hclaim
  exact hcur ((h.straight n t _ hc.process).attempt _ hhs).1

theorem NextDone.crossed (hnext : NextDone done n t c next) (h : w.Sessions done) (hinv : w.Inv)
    (hc : w.Called n t c) {i j : ℕ} {v u : SharedTransport} {hd g : RespMessage}
    (hv : w.processes[i]? = some v) (hu : w.processes[j]? = some u)
    (hi : update done n next i u.peers.selfId = some hd)
    (hj : update done n next j v.peers.selfId = some g)
    (hprocess : hd.ephemeral.process = u.peers.bootSalt) :
    g.ephemeral.process ≠ v.peers.bootSalt := by
  rcases hnext.cases hi with hold | ⟨rfl, -, hhs⟩
  · rcases hnext.cases hj with hold' | ⟨rfl, -, hhs⟩
    · exact h.crossed i j v u hd g hv hu hold hold' hprocess
    · obtain rfl := Option.some.inj (hc.process.symm.trans hu)
      exact absurd hprocess (hnext.uncrossed h hinv hc hv hhs hi)
  · obtain rfl := Option.some.inj (hc.process.symm.trans hv)
    exact hnext.uncrossed h hinv hc hu hhs hj

/-- What is parked next to a session with a running process was completed by no
    other boot. -/
theorem NextDone.later (hnext : NextDone done n t c next) (h : w.Sessions done)
    (hc : w.Called n t c) {i j x : ℕ} {v u : SharedTransport} {a s : Session} {hd : RespMessage}
    (hv : w.processes[i]? = some v) (hu : w.processes[j]? = some u) (hrun : w.Running j)
    (ha : (v.peers.link u.peers.selfId).current = some a) (hsalt : a.bootSalt = u.peers.bootSalt)
    (hs : (v.peers.link u.peers.selfId).pending = some s) (hkey : s.openKey = .transport hd true)
    (hx : update done n next x v.peers.selfId = some hd) : x = j := by
  rcases hnext.cases hx with hold | ⟨rfl, -, hhs⟩
  · exact h.later i j v u a s hd x hv hu hrun ha hsalt hs hkey hold
  · -- the two boots are running
    obtain ⟨hd', initiator, hof, -, hpayload, -⟩ := (h.straight i v _ hv).ended s (.inr hs)
    obtain ⟨rfl, hinit⟩ := AesKey.transport.inj (hof.openKey.symm.trans hkey)
    obtain rfl : initiator = false := by simpa using hinit
    have hown := ((h.straight x t _ hc.process).attempt _ hhs).2
    exact hc.running.unique hc.process hu hrun (claim_eq hown.payload hpayload).1

theorem Sessions.call (h : w.Sessions done) (hinv : w.Inv) (hc : w.Called n t c) :
    ∃ done', (w.exec (.call n c)).Sessions done' := by
  choose next hstraight hnext' using fun y => hc.effect.straight (h.straight n t y hc.process)
  have hnext : NextDone done n t c next := hnext'
  have hbefore : ∀ {i : ℕ} {v : SharedTransport},
      (w.exec (.call n c)).processes[i]? = some v →
      ∃ v₀, w.processes[i]? = some v₀ ∧ v₀.peers.Same v.peers := call_before hc.process hc.effect
  refine ⟨update done n next, ?_⟩
  exact {
    straight := by
      intro i v y hv
      rcases call_cases hc.process hv with ⟨rfl, rfl⟩ | ⟨hne, hold⟩
      · rw [update_self]
        exact hstraight y
      · rw [update_of_ne (Ne.symm hne)]
        exact h.straight i v y hold
    acting := by
      intro i y hne
      rw [exec_call hc.process, List.length_set]
      obtain ⟨g, hg⟩ := Option.ne_none_iff_exists'.mp hne
      rcases hnext.cases hg with hold | ⟨rfl, -⟩
      · exact h.acting i y (by simp [hold])
      · exact (List.getElem?_eq_some_iff.mp hc.process).1
    wrote := by
      intro i v p kind body hv hmem
      have hown : ∀ y m, (t.peers.link y).hs = some m → m.Of t.peers.selfId t.peers.bootSalt :=
        fun y m hm => ((h.straight n t y hc.process).attempt m hm).2
      rcases call_cases hc.process hv with ⟨rfl, rfl⟩ | ⟨hne, hold⟩
      · rcases hc.mem_log hmem with hmem | ⟨-, hmem⟩
        · exact hc.effect.wrote (h.wrote n t p kind body hc.process hmem)
        · exact exec_wrote hown hc.effect hmem
      · rcases hc.mem_log hmem with hmem | ⟨rfl, -⟩
        · exact h.wrote i v p kind body hold hmem
        · exact absurd rfl hne
    used := by
      intro i d b hd hmem hbox hkey
      rcases hc.mem_log hmem with hold | ⟨rfl, hnew⟩
      · obtain ⟨y, hy⟩ := h.used i d b hd hold hbox hkey
        exact ⟨y, hnext.mono h hc hy⟩
      · obtain ⟨y, s, hs, hseal⟩ := hc.effect.sealedTransport hnew hbox hkey
        obtain ⟨hd', initiator, hof, -, -, hdone⟩ := (h.straight i t y hc.process).ended s (.inl hs)
        obtain ⟨rfl, rfl⟩ := AesKey.transport.inj (hof.sealKey.symm.trans hseal)
        exact ⟨y, hnext.mono h hc (hdone rfl)⟩
    answered := by
      intro i y g hg
      obtain ⟨j, p, kind, hmem⟩ := hnext.answered h hc hg
      exact ⟨j, p, kind, hc.log_mono hmem⟩
    known := by
      intro i v y s hv hs
      obtain ⟨k, u, hu, hid, hsalt, hends⟩ := h.call_known hinv hc hv hs
      have hlt : k < (w.exec (.call n c)).processes.length := by
        rw [exec_call hc.process, List.length_set]
        exact (List.getElem?_eq_some_iff.mp hu).1
      obtain ⟨u₀, hu₀, hsame⟩ := hbefore (List.getElem?_eq_getElem hlt)
      obtain rfl := Option.some.inj (hu.symm.trans hu₀)
      exact ⟨k, _, List.getElem?_eq_getElem hlt, hsame.selfId.trans hid, hsame.bootSalt.trans hsalt, hends⟩
    crossed := by
      intro i j v u hd g hv hu hi hj hprocess
      obtain ⟨v₀, hv₀, hsame⟩ := hbefore hv
      obtain ⟨u₀, hu₀, hsame'⟩ := hbefore hu
      rw [hsame'.selfId] at hi
      rw [hsame.selfId] at hj
      rw [hsame'.bootSalt] at hprocess
      rw [hsame.bootSalt]
      exact hnext.crossed h hinv hc hv₀ hu₀ hi hj hprocess
    later := by
      intro i j v u a s hd x hv hu hrun ha hsalt hs hkey hx
      obtain ⟨u₀, hu₀, hsame'⟩ := hbefore hu
      have hrun₀ := hrun.of_call hc.process hc.effect
      rw [hsame'.selfId] at ha hs
      rw [hsame'.bootSalt] at hsalt
      rcases call_cases hc.process hv with ⟨rfl, rfl⟩ | ⟨hne, hold⟩
      · rw [hc.effect.same.selfId] at hx
        obtain ⟨⟨a₀, a', ha₀, ha', hkeys⟩, hparked⟩ :=
          hc.effect.parked (h.straight n t _ hc.process) hs
        obtain rfl := Option.some.inj (ha'.symm.trans ha)
        rcases hparked with ⟨s₀, hs₀, hkeys'⟩ | ⟨m, hm⟩
        · exact hnext.later h hc hc.process hu₀ hrun₀ ha₀ (hkeys.bootSalt ▸ hsalt) hs₀
            (hkeys'.openKey.symm.trans hkey) hx
        · -- nobody has completed what was just answered
          obtain ⟨rfl, -⟩ := AesKey.transport.inj (hm.symm.trans hkey)
          obtain ⟨p, -, hindex, -⟩ := hnext.answerer h hinv hc hx hc.process rfl
          exact absurd hindex (lt_irrefl _)
      · exact hnext.later h hc hold hu₀ hrun₀ ha hsalt hs hkey hx }

end Call

/-! ## The shared session -/

theorem Inv.apart (hinv : w.Inv) (ht : w.processes[i]? = some t) {y : NodeId} {c s : Session}
    (hc : (t.peers.link y).current = some c) (hs : (t.peers.link y).pending = some s) :
    c.openKey ≠ s.openKey := by
  intro heq
  obtain ⟨place, hledger⟩ := (hinv.opener i t ht).ledger
  obtain ⟨k, hk, hplace⟩ := hledger.slot y true c hc
  obtain ⟨k', hk', hplace'⟩ := hledger.slot y false s hs
  rw [heq] at hk
  obtain rfl := Option.some.inj (hk.symm.trans hk')
  cases hplace.symm.trans hplace'

/-- Nothing that was sent opens under the session parked beside a shared one. -/
theorem Sessions.unopened (h : w.Sessions done) (hinv : w.Inv) (ht : w.processes[i]? = some t)
    (hu : w.processes[j]? = some u) (hrun : w.Running j) (hshare : t.Shares u) {s : Session}
    (hs : (t.peers.link u.peers.selfId).pending = some s) {x : ℕ} {d : Datagram}
    (hd : (x, .sealed d) ∈ w.log) (r : ℕ × Bytes) : openWith d s.openKey ≠ .ok r := by
  intro hopen
  obtain ⟨c, c', hc, hc', hmirror⟩ := hshare
  -- the parked handshake, which process `x` has completed
  obtain ⟨g, hg⟩ := (h.straight i t _ ht).parked s hs
  obtain ⟨g', role, hof, hprocess, -, -⟩ := (h.straight i t _ ht).ended s (.inr hs)
  obtain ⟨rfl, rfl⟩ := hg.unique hof
  obtain ⟨-, b, hbox, hkey⟩ := openWith_ok hopen
  obtain ⟨y, hx⟩ := h.used x d b g hd hbox (hkey.trans hg.openKey)
  obtain ⟨v, hv⟩ : ∃ v, w.processes[x]? = some v :=
    ⟨_, List.getElem?_eq_getElem (h.acting x y (by simp [hx]))⟩
  obtain ⟨-, salt, hclaim⟩ := (h.straight x v y hv).finished g hx
  obtain ⟨k, q, kind, hsent⟩ := h.answered x y g hx
  obtain ⟨p, -, -, hpayload, -⟩ := h.sender hinv hsent ht hprocess
  obtain ⟨rfl, -⟩ := claim_eq hpayload hclaim
  -- the shared handshake
  obtain ⟨hd, role, hofc, hown, -, hdone⟩ := (h.straight i t _ ht).ended c (.inl hc)
  obtain ⟨hd', role', hof', hown', -, hdone'⟩ := (h.straight j u _ hu).ended c' (.inl hc')
  obtain ⟨rfl, hrole⟩ :=
    AesKey.transport.inj (hofc.sealKey.symm.trans (hmirror.sealKey.trans hof'.openKey))
  obtain ⟨-, -, -, -, -, hends⟩ := h.known i t _ c ht (.inl hc)
  have hsalt : c.bootSalt = u.peers.bootSalt := by
    rw [← hends hd role hofc, hrole, Bool.not_not]
    exact hown'
  obtain rfl := h.later i j t u c s g x ht hu hrun hc hsalt hs hg.openKey hx
  cases role with
  | true =>
    obtain rfl : role' = false := by simpa using hrole
    exact h.crossed i x t u hd g ht hu (hdone rfl) hx hown' hprocess
  | false =>
    obtain rfl : role' = true := by simpa using hrole
    obtain rfl := Option.some.inj ((hdone' rfl).symm.trans hx)
    exact hinv.apart ht hc hs (hofc.openKey.trans hg.openKey.symm)

theorem Sessions.kept (h : w.Sessions done) (hinv : w.Inv) (hp : w.Honest (.call i c))
    (hsettled : w.Settled (.call i c)) (ht : w.processes[i]? = some t)
    (hu : w.processes[j]? = some u) (hrun : w.Running j) (hshare : t.Shares u) {s : Session}
    (hs : (t.peers.link u.peers.selfId).current = some s) :
    ∃ s', ((t.exec c).1.peers.link u.peers.selfId).current = some s' ∧ s'.SameKeys s := by
  by_cases hopen : ∃ slice sender d, c = .openDatagram slice sender d
  · obtain ⟨slice, sender, d, rfl⟩ := hopen
    have hexec : (t.exec (.openDatagram slice sender d)).1 = (t.openDatagram sender d).1 := by
      dsimp only [SharedTransport.exec]
      split <;> simp_all
    rw [hexec]
    rcases openDatagram_current t sender d hs with hkept | ⟨rfl, s', r, hs', hopen⟩ | ⟨rfl, hgroup⟩
    · exact hkept
    · obtain ⟨-, -, ⟨x, e⟩, hmem, he⟩ := hp
      dsimp only at he
      subst he
      exact absurd hopen (h.unopened hinv ht hu hrun hshare hs' hmem r)
    · exact absurd hgroup (hsettled t j u ht hu hrun rfl hshare)
  · refine exec_current (fun slice sender d heq => hopen ⟨slice, sender, d, heq⟩)
      (h.straight i t _ ht) hs

variable {step : CryptoStep}

theorem Sessions.survives (h : w.Sessions done) (hinv : w.Inv) (hp : w.Honest step)
    (hsettled : w.Settled step) : w.Survives step := by
  intro i j t u ht hu hri hrj hne hshare t' u' ht' hu' s hs
  have hshare' := hshare
  obtain ⟨c, c', hc, hc', hmirror⟩ := hshare'
  cases step with
  | boot identity allowlist selfId hid salt =>
    obtain rfl := Option.some.inj ((getElem?_boot ht _ _ _ hid salt).symm.trans ht')
    obtain rfl := Option.some.inj ((getElem?_boot hu _ _ _ hid salt).symm.trans hu')
    obtain rfl := Option.some.inj (hc.symm.trans hs)
    exact ⟨c', .inl hc', hmirror⟩
  | call n k =>
    obtain ⟨v, hv⟩ := Honest.called hinv hp
    rcases call_cases hv.process ht' with ⟨rfl, rfl⟩ | ⟨hni, hold⟩
    · -- a call of the first process
      obtain rfl := Option.some.inj (hv.process.symm.trans ht)
      rcases call_cases hv.process hu' with ⟨rfl, -⟩ | ⟨-, hold⟩
      · exact absurd (Option.some.inj (ht.symm.trans hu) ▸ rfl) hne
      · obtain rfl := Option.some.inj (hu.symm.trans hold)
        obtain ⟨s', hs', hkeys⟩ := h.kept hinv hp hsettled ht hu hrj hshare hc
        obtain rfl := Option.some.inj (hs'.symm.trans hs)
        exact ⟨c', .inl hc', hkeys.sealKey.trans hmirror.sealKey, hkeys.openKey.trans hmirror.openKey⟩
    · obtain rfl := Option.some.inj (ht.symm.trans hold)
      obtain rfl := Option.some.inj (hc.symm.trans hs)
      rcases call_cases hv.process hu' with ⟨rfl, rfl⟩ | ⟨-, hold'⟩
      · -- a call of the second
        obtain rfl := Option.some.inj (hv.process.symm.trans hu)
        have hshare' : v.Shares t := ⟨c', c, hc', hc, hmirror.openKey.symm, hmirror.sealKey.symm⟩
        obtain ⟨s', hs', hkeys⟩ := h.kept hinv hp hsettled hu ht hri hshare' hc'
        exact ⟨s', .inl hs', hmirror.sealKey.trans hkeys.openKey.symm,
          hmirror.openKey.trans hkeys.sealKey.symm⟩
      · obtain rfl := Option.some.inj (hu.symm.trans hold')
        exact ⟨c', .inl hc', hmirror⟩

theorem Honest.possible (h : w.Honest step) : w.Possible step := by
  cases step with
  | boot identity allowlist selfId hid salt => exact h
  | call i c => exact h.1

/-- **A shared session survives.**  As long as no datagram of group scope promotes
    a session where one is shared, neither of two running processes comes to seal
    under a session that the other does not hold. -/
theorem shared_session_survives {steps : List CryptoStep}
    (h : Trace.Admits exec (fun w step => w.Honest step ∧ w.Settled step) start steps)
    (before : List CryptoStep) (step : CryptoStep) (after : List CryptoStep)
    (hsplit : steps = before ++ step :: after) : (start.run before).Survives step := by
  rw [hsplit] at h
  obtain ⟨hbefore, hstep, -⟩ := Trace.admits_append.mp h
  have hsessions : (start.run before).Inv ∧ ∃ done, (start.run before).Sessions done := by
    refine Trace.Admits.rule
      (P := fun is => (start.run is).Inv ∧ ∃ done, (start.run is).Sessions done)
      ⟨inv_start, _, sessions_start⟩ ?_ hbefore
    rintro is step ⟨hinv, done, hs⟩ ⟨hp, -⟩
    unfold run at hinv hs ⊢
    rw [List.foldl_append]
    cases step with
    | boot identity allowlist selfId hid salt => exact ⟨hinv.boot hp, done, hs.boot hinv hp⟩
    | call i c =>
      obtain ⟨t, hc⟩ := Honest.called hinv hp
      exact ⟨hinv.call hp.possible, hs.call hinv hc⟩
  obtain ⟨hinv, done, hs⟩ := hsessions
  exact hs.survives hinv hstep.1 hstep.2

/-! ### The replay of an earlier boot -/

def secondSalt : BootSalt := ⟨List.replicate 16 3, rfl⟩

/-- Message 1 of the second boot of node 1. -/
def secondContact : InitMessage := ⟨[1], [2], ⟨secondSalt, 0⟩, encodePayload 1 secondSalt⟩

def secondAnswer : RespMessage :=
  ⟨secondContact, ⟨Peers.saltTwo, 1⟩, encodePayload 2 Peers.saltTwo⟩

def headerOf (kind : UInt8) (epoch : ℕ) : Bytes := List.replicate 12 0 ++ [kind, 0] ++ Bytes.le 2 epoch

def sharedKey : GroupKey := List.replicate 32 7

/-- The group key goes to node 2. -/
def keyDatagram : Datagram :=
  ⟨headerOf 20 0, 1,
    some ⟨.transport firstAnswer true, 1, headerOf 20 0, encodeKeyDelivery 1 sharedKey⟩⟩

/-- Data of the first boot. -/
def oldData : Datagram :=
  ⟨headerOf 1 1, 2,
    some ⟨.send sharedKey 1 Peers.saltOne, 2, headerOf 1 1, []⟩⟩

/-- The first datagram of the second boot, which node 2 promotes its session on. -/
def newDatagram : Datagram :=
  ⟨headerOf 3 0, 1, some ⟨.transport secondAnswer true, 1, headerOf 3 0, []⟩⟩

/-- Node 1 restarts and shares a new session with node 2; then the network
    replays message 1 of its first boot. -/
def restarted : List CryptoStep :=
  meeting ++ [.call 0 (.mint [2] 0 sharedKey),
    .call 0 (.sealDatagram false 20 (some 2) (headerOf 20 0 ++ encodeKeyDelivery 1 sharedKey) 0),
    .call 0 (.finishSeal ⟨2, headerOf 20 0 ++ encodeKeyDelivery 1 sharedKey, 1⟩),
    .call 1 (.openDatagram false 1 keyDatagram),
    .call 1 (.onGroupKeyMessage 1 (encodeKeyDelivery 1 sharedKey)),
    .call 0 (.sealDatagram false 1 none (headerOf 1 0) 3_000_000_000),
    .boot [1] ⟨[(2, [2])], 0, 0⟩ 1 Peers.nodeOne_lt secondSalt,
    .call 2 (.initiate 0 none 2),
    .call 1 (.onHandshakeMessage 0 none 1 18 (.init secondContact)),
    .call 2 (.onHandshakeMessage 0 none 2 19 (.resp secondAnswer)),
    .call 2 (.sealDatagram false 3 (some 2) (headerOf 3 0) 0),
    .call 2 (.finishSeal ⟨2, headerOf 3 0, 1⟩),
    .call 1 (.openDatagram false 1 newDatagram),
    .call 1 (.onHandshakeMessage 0 none 1 18 (.init Peers.firstContact))]

/-- What node 2 answers to the replayed message. -/
def replayedAnswer : RespMessage :=
  ⟨Peers.firstContact, ⟨Peers.saltTwo, 2⟩, encodePayload 2 Peers.saltTwo⟩

/-- The step opens no datagram of group scope. -/
def opensNoGroup : CryptoStep → Bool
  | .call _ (.openDatagram _ _ d) => scopeOf (Bytes.at_ d.header 12) ≠ .group
  | _ => true

theorem settled_of_opensNoGroup (h : opensNoGroup step = true) (w : CryptoWorld) :
    w.Settled step := by
  unfold Settled
  split
  · intro t j u _ _ _ _ _ hgroup
    exact absurd hgroup.1 (of_decide_eq_true h)
  · trivial

/-- The keys of a process's current session, to seal and to open. -/
def currentKeys (w : CryptoWorld) (i : ℕ) (y : NodeId) : Option (AesKey × AesKey) :=
  (w.processes[i]?).bind fun t => (t.peers.link y).current.map fun s => (s.sealKey, s.openKey)

theorem currentKeys_some {y : NodeId} {a b : AesKey} (h : w.currentKeys i y = some (a, b)) :
    ∃ t s, w.processes[i]? = some t ∧ (t.peers.link y).current = some s ∧ s.sealKey = a ∧
      s.openKey = b := by
  obtain ⟨t, ht, hmap⟩ := Option.bind_eq_some_iff.mp h
  obtain ⟨s, hs, heq⟩ := Option.map_eq_some_iff.mp hmap
  obtain ⟨rfl, rfl⟩ := Prod.mk.inj heq
  exact ⟨t, s, ht, hs, rfl, rfl⟩

/-- The replay of message 1 next to the shared session. -/
theorem shared_session_survives_restarted :
    (start.run (restarted.take 18)).currentKeys 1 1 =
      some (.transport secondAnswer false, .transport secondAnswer true) ∧
    (start.run (restarted.take 18)).currentKeys 2 2 =
      some (.transport secondAnswer true, .transport secondAnswer false) ∧
    (start.run (restarted.take 18)).Survives
      (.call 1 (.onHandshakeMessage 0 none 1 18 (.init Peers.firstContact))) := by
  have hhonest : Trace.Admits exec Honest start restarted := by decide +kernel
  have hsettled : ∀ step ∈ restarted, opensNoGroup step = true := by decide +kernel
  refine ⟨by decide +kernel, by decide +kernel, ?_⟩
  exact shared_session_survives
    (hhonest.and fun step hstep w => settled_of_opensNoGroup (hsettled step hstep) w)
    (restarted.take 18) _ [] rfl

/-- Data of the first boot opens under the replayed session, and takes the place
    of the shared one. -/
theorem shared_session_replaced :
    ¬ ∀ steps : List CryptoStep, Trace.Admits exec Honest start steps →
      ∀ before step after, steps = before ++ step :: after → (start.run before).Survives step := by
  intro h
  have hhonest : Trace.Admits exec Honest start
      (restarted ++ [.call 1 (.openDatagram false 1 oldData)]) := by
    decide +kernel
  have hsurvives := h _ hhonest restarted _ [] rfl
  -- the two running processes share the session of the second boot
  obtain ⟨t, s, ht, hs, hseal, hopen⟩ : ∃ t s, (start.run restarted).processes[1]? = some t ∧
      (t.peers.link 1).current = some s ∧ s.sealKey = .transport secondAnswer false ∧
      s.openKey = .transport secondAnswer true := currentKeys_some (by decide +kernel)
  obtain ⟨u, s', hu, hs', hseal', hopen'⟩ : ∃ t s, (start.run restarted).processes[2]? = some t ∧
      (t.peers.link 2).current = some s ∧ s.sealKey = .transport secondAnswer true ∧
      s.openKey = .transport secondAnswer false := currentKeys_some (by decide +kernel)
  have hids : (start.run restarted).processes.map (·.peers.selfId) = [1, 2, 1] := by decide +kernel
  have hid : t.peers.selfId = 2 := by
    have := congrArg (·[1]?) hids
    simpa [List.getElem?_map, ht] using this
  have hid' : u.peers.selfId = 1 := by
    have := congrArg (·[2]?) hids
    simpa [List.getElem?_map, hu] using this
  have hshares : t.Shares u := by
    refine ⟨s, s', ?_, ?_, hseal.trans hopen'.symm, hopen.trans hseal'.symm⟩
    · rw [hid']
      exact hs
    · rw [hid]
      exact hs'
  -- node 2 comes to seal under the replayed one, which the second boot does not hold
  obtain ⟨t', s₁, ht', hs₁, hseal₁, -⟩ : ∃ t s,
      ((start.run restarted).exec (.call 1 (.openDatagram false 1 oldData))).processes[1]? = some t ∧
      (t.peers.link 1).current = some s ∧ s.sealKey = .transport replayedAnswer false ∧
      s.openKey = .transport replayedAnswer true := currentKeys_some (by decide +kernel)
  have hu' : ((start.run restarted).exec (.call 1 (.openDatagram false 1 oldData))).processes[2]? =
      some u := by
    rw [exec_call ht, List.getElem?_set_ne (by decide)]
    exact hu
  have hpending : ((start.run restarted).processes[2]?).bind (fun t => (t.peers.link 2).pending) =
      none := by
    decide +kernel
  obtain ⟨s₂, hholds, hmirror⟩ := hsurvives 1 2 t u ht hu (by decide +kernel) (by decide +kernel)
    (by rw [hid, hid']; decide) hshares t' u ht' hu' s₁ (by rw [hid']; exact hs₁)
  rw [hid] at hholds
  rcases hholds with hcur | hpend
  · obtain rfl := Option.some.inj (hs'.symm.trans hcur)
    have hkey := hseal₁.symm.trans (hmirror.sealKey.trans hopen')
    exact absurd hkey (by decide)
  · rw [hu, Option.bind_some, hpend] at hpending
    cases hpending

end CryptoWorld

end UltimaCluster
