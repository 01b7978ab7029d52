/-
  Nonces are never reused and datagrams never replayed.

  A key belongs to one process (`AesKey.sealer`), and a process draws each
  counter once; so no key meets a nonce twice.  A datagram opens under one key
  of one window, and a window takes a counter once.
-/
import UltimaCluster.CryptoWorld

namespace UltimaCluster

namespace SharedTransport

variable {t : SharedTransport} {input : Option (NodeId × HandshakeBody)}

/-! ## What a call can do -/

/-- A group key of this process. -/
def OwnKey (t : SharedTransport) (k : AesKey) : Prop :=
  ∃ groupKey, k = deriveSendKey groupKey t.peers.selfId t.peers.bootSalt

/-- The cached key is this process's own. -/
def CacheOwn (t : SharedTransport) : Prop := ∀ e k, t.sealCache = some (e, k) → t.OwnKey k

theorem OwnKey.sealer {k : AesKey} (h : t.OwnKey k) : k.sealer = t.peers.bootSalt := by
  obtain ⟨groupKey, rfl⟩ := h
  rfl

/-- `input` is the handshake message of the call. -/
inductive Effect (input : Option (NodeId × HandshakeBody)) (t : SharedTransport) :
    SharedTransport → List TransportEvent → Prop where
  | message {P : Peers} {acts : List HandshakeAction} (sender : NodeId) (body : HandshakeBody)
      (received : input = some (sender, body)) (step : PeersStep input t.peers P) :
      Effect input t { t with peers := P } (acts.map .acted)
  | peers {P : Peers} {acts : List HandshakeAction} (steps : PeersSteps none t.peers P) :
      Effect input t { t with peers := P } (acts.map .acted)
  | group (g : GroupPlane) {acts : List HandshakeAction} :
      Effect input t { t with group := g } (acts.map .acted)
  /-- A group seal that fails after its counter. -/
  | burnt (cache : Option (ℕ × AesKey))
      (own : ∀ e k, cache = some (e, k) → t.OwnKey k)
      (bound : t.counter + 1 < 2 ^ 64) :
      Effect input t { t with counter := t.counter + 1, sealCache := cache } []
  | queued (job : SealJob) (counter : job.counter = t.counter + 1) (bound : t.counter + 1 < 2 ^ 64)
      (staged : job.buf.length ≤ maxDatagram) :
      Effect input t { t with counter := t.counter + 1, jobs := t.jobs ++ [job] } []
  | sealedGroup (cache : Option (ℕ × AesKey)) (d : Datagram) (b : Box)
      (own : ∀ e k, cache = some (e, k) → t.OwnKey k) (box : d.box = some b)
      (nonce : b.nonce = t.counter + 1) (key : t.OwnKey b.key)
      (bound : t.counter + 1 < 2 ^ 64) :
      Effect input t { t with counter := t.counter + 1, sealCache := cache } [.sealed d]
  | jobFailed (job : SealJob) : Effect input t { t with jobs := t.jobs.erase job } []
  | jobSealed (job : SealJob) (s : Session) (d : Datagram) (b : Box) (mem : job ∈ t.jobs)
      (current : (t.peers.link job.peer).current = some s) (box : d.box = some b)
      (nonce : b.nonce = job.counter) (key : b.key = s.sealKey) :
      Effect input t { t with jobs := t.jobs.erase job } [.sealed d]
  | openedPairwise (sender : NodeId) (d : Datagram) (c : ℕ)
      (ok : (t.peers.openPairwise sender d).2 = .ok c) :
      Effect input t { t with peers := (t.peers.openPairwise sender d).1 } [.opened d]
  /-- A group open that reaches the window. -/
  | openedGroup (P : Peers) (sender : NodeId) (groupKey : GroupKey) (salt : BootSalt) (d : Datagram)
      (b : Box) (window : ReplayWindow) (fresh : Bool) (steps : PeersSteps none t.peers P)
      (box : d.box = some b) (key : b.key = .send groupKey sender salt)
      (check : (t.groupReplay (sender, Bytes.num d.header 14 16, salt)).checkAndSet d.counter =
        (window, fresh)) :
      Effect input t { t with
        peers := P
        groupReplay :=
          Function.update t.groupReplay (sender, Bytes.num d.header 14 16, salt) window }
        (if fresh then [.opened d] else [])

theorem sealWith_ok {buf : Bytes} {key : AesKey} {counter : ℕ} {d : Datagram}
    (h : (sealWith buf key counter).1 = .sealed d) :
    ∃ b, d.box = some b ∧ b.nonce = counter ∧ b.key = key := by
  unfold sealWith at h
  dsimp only at h
  split_ifs at h
  cases h
  exact ⟨_, rfl, rfl, rfl⟩

theorem sealEvents_eq (r : Buffer × Except CryptoError Unit) :
    sealEvents r = [] ∨ ∃ d, r.1 = .sealed d ∧ sealEvents r = [.sealed d] := by
  unfold sealEvents
  split
  · rename_i d
    exact .inr ⟨d, rfl, rfl⟩
  · exact .inl rfl

theorem nextCounter_eq (h : t.counter + 1 < 2 ^ 64) :
    t.nextCounter = ({ t with counter := t.counter + 1 }, t.counter + 1) := by
  unfold nextCounter
  rw [Nat.mod_eq_of_lt h]

theorem effect_sealWith {cache : Option (ℕ × AesKey)}
    (hcache : ∀ e k, cache = some (e, k) → t.OwnKey k) (h : t.counter + 1 < 2 ^ 64)
    {key : AesKey} (hkey : t.OwnKey key) (buf : Bytes) :
    Effect input t { t with counter := t.counter + 1, sealCache := cache }
      (sealEvents (sealWith buf key (t.counter + 1))) := by
  obtain hnil | ⟨d, hd, hevents⟩ := sealEvents_eq (sealWith buf key (t.counter + 1))
  · rw [hnil]
    exact .burnt cache hcache h
  · rw [hevents]
    obtain ⟨b, hbox, hnonce, rfl⟩ := sealWith_ok hd
    exact .sealedGroup cache d b hcache hbox hnonce hkey h

theorem effect_quiet (t : SharedTransport) : Effect input t t [] :=
  @Effect.peers input t t.peers [] .refl

theorem effect_sealGroup (hcache : t.CacheOwn) (h : t.counter + 1 < 2 ^ 64) (buf : Bytes) (now : ℕ) :
    Effect input t (t.sealGroup buf now).1 (sealEvents (t.sealGroup buf now).2) := by
  unfold sealGroup
  rw [nextCounter_eq h]
  split_ifs
  · exact effect_quiet t
  split
  · exact effect_quiet t
  rename_i epoch hepoch
  unfold groupSealCipher
  dsimp only
  cases hfilter : t.sealCache.filter (·.1 = epoch) with
  | some c =>
    obtain ⟨e, key⟩ := c
    have hkey : t.OwnKey key := hcache e key (Option.filter_eq_some_iff.mp hfilter).1
    exact effect_sealWith hcache h hkey _
  | none =>
    cases t.group.schedule.get epoch with
    | none => exact .burnt t.sealCache hcache h
    | some groupKey =>
      refine effect_sealWith (fun e k heq => ?_) h ⟨groupKey, rfl⟩ _
      obtain ⟨-, rfl⟩ := Prod.mk.inj (Option.some.inj heq)
      exact ⟨groupKey, rfl⟩

theorem effect_sealGroupControl (hcache : t.CacheOwn) (h : t.counter + 1 < 2 ^ 64) (buf : Bytes)
    (now : ℕ) : Effect input t (t.sealGroupControl buf now).1 (sealEvents (t.sealGroupControl buf now).2) := by
  unfold sealGroupControl
  rw [nextCounter_eq h]
  split_ifs
  · exact effect_quiet t
  split
  · exact effect_quiet t
  split
  · exact effect_quiet t
  · exact effect_sealWith hcache h ⟨_, rfl⟩ _

theorem effect_beginSeal (hcache : t.CacheOwn) (h : t.counter + 1 < 2 ^ 64) {buf : Bytes}
    (hbuf : buf.length ≤ maxDatagram) (control : Bool) (kind : ℕ) (peer : Option NodeId) (now : ℕ) :
    Effect input t (t.beginSeal control kind peer buf now).1
      ((t.beginSeal control kind peer buf now).2.elim [] sealEvents) := by
  unfold beginSeal
  rw [nextCounter_eq h]
  split
  · cases control with
    | true => exact effect_sealGroupControl hcache h buf now
    | false => exact effect_sealGroup hcache h buf now
  · split
    · exact effect_quiet t
    · rename_i peer
      exact .queued ⟨peer, buf, t.counter + 1⟩ rfl h hbuf
  · exact effect_quiet t

theorem effect_finishSeal {job : SealJob} (hjob : job ∈ t.jobs) :
    Effect input t (t.finishSeal job).1 (sealEvents (t.finishSeal job).2) := by
  unfold finishSeal Peers.sealPairwise
  split
  · exact .jobFailed job
  · rename_i s hs
    obtain hnil | ⟨d, hd, hevents⟩ := sealEvents_eq (sealWith job.buf s.sealKey job.counter)
    · rw [hnil]
      exact .jobFailed job
    · rw [hevents]
      obtain ⟨b, hbox, hnonce, hkey⟩ := sealWith_ok hd
      exact .jobSealed job s d b hjob hs hbox hnonce hkey

def openEvents (d : Datagram) : Except CryptoError Unit → List TransportEvent
  | .ok () => [.opened d]
  | .error _ => []

theorem effect_finishGroupOpen {P : Peers} (hsteps : PeersSteps none t.peers P) {sender : NodeId}
    {groupKey : GroupKey} {salt : BootSalt} {d : Datagram} {counter : ℕ} {p : Bytes}
    (hopen : openWith d (deriveSendKey groupKey sender salt) = .ok (counter, p)) :
    Effect input t (({ t with peers := P } : SharedTransport).finishGroupOpen sender
        (Bytes.num d.header 14 16) salt counter).1
      (openEvents d (({ t with peers := P } : SharedTransport).finishGroupOpen sender
        (Bytes.num d.header 14 16) salt counter).2) := by
  obtain ⟨rfl, b, hbox, hkey⟩ := openWith_ok hopen
  unfold finishGroupOpen
  generalize hcheck : (t.groupReplay (sender, Bytes.num d.header 14 16, salt)).checkAndSet d.counter = r
  obtain ⟨window, fresh⟩ := r
  cases fresh with
  | true => exact .openedGroup P sender groupKey salt d b window true hsteps hbox hkey hcheck
  | false => exact .openedGroup P sender groupKey salt d b window false hsteps hbox hkey hcheck

section Trial

variable {d : Datagram} {key : BootSalt → AesKey} {salt : Option BootSalt} {err e : CryptoError}
  {salt' : BootSalt} {counter : ℕ}

theorem trial_ok (h : (match salt with
      | none => .error err
      | some salt => (openWith d (key salt)).map fun r => (salt, r.1)) = Except.ok (salt', counter)) :
    ∃ p, salt = some salt' ∧ openWith d (key salt') = .ok (counter, p) := by
  cases salt with
  | none => cases h
  | some salt =>
    dsimp only at h
    cases hopen : openWith d (key salt) with
    | error e =>
      rw [hopen] at h
      cases h
    | ok r =>
      rw [hopen] at h
      cases h
      exact ⟨r.2, rfl, hopen⟩

theorem trial_error (h : (match salt with
      | none => .error err
      | some salt => (openWith d (key salt)).map fun r => (salt, r.1)) = Except.error e)
    (r : ℕ × Bytes) (hsalt : salt = some salt') : openWith d (key salt') ≠ .ok r := by
  intro hopen
  rw [hsalt] at h
  dsimp only at h
  rw [hopen] at h
  cases h

end Trial

theorem effect_openGroup (t : SharedTransport) (sender : NodeId) (d : Datagram) :
    Effect input t (t.openGroup sender (Bytes.num d.header 14 16) d).1
      (openEvents d (t.openGroup sender (Bytes.num d.header 14 16) d).2) := by
  unfold openGroup
  split
  · exact effect_quiet t
  dsimp only
  split
  · rename_i salt counter hok
    obtain ⟨p, -, hopen⟩ := trial_ok hok
    exact effect_finishGroupOpen .refl hopen
  · split
    · rename_i salt counter hok
      obtain ⟨p, -, hopen⟩ := trial_ok hok
      exact effect_finishGroupOpen (Peers.promotePending_steps t.peers sender) hopen
    · exact effect_quiet t

theorem effect_openDatagram (t : SharedTransport) (sender : NodeId) (d : Datagram) :
    Effect input t (t.openDatagram sender d).1 (openEvents d (t.openDatagram sender d).2) := by
  unfold openDatagram
  split
  · exact effect_quiet t
  split
  · exact effect_openGroup t sender d
  · dsimp only
    cases hok : (t.peers.openPairwise sender d).2 with
    | ok c => exact .openedPairwise sender d c hok
    | error e =>
      exact @Effect.peers input t (t.peers.openPairwise sender d).1 []
        (Peers.openPairwise_steps t.peers sender d)
  · exact effect_quiet t

theorem exec_effect {c : TransportCall} (hcache : t.CacheOwn) (h : t.Possible c) :
    Effect c.input t (t.exec c).1 (t.exec c).2 := by
  cases c with
  | initiate now file peer => exact .peers (Peers.initiate_steps t.peers now file peer)
  | onHandshakeMessage now file sender kind body =>
    exact .message sender body rfl (Peers.onMessage_step t.peers now file sender kind body)
  | tick now file => exact .peers (Peers.tick_steps t.peers now file)
  | reload now file =>
    exact @Effect.peers none t _ [] (.single (Peers.reload_quiet t.peers now file))
  | mint peers now key => exact .group _
  | onGroupKeyMessage sender body => exact .group _
  | sealDatagram control kind peer buf now =>
    exact effect_beginSeal hcache h.2 h.1 control kind peer now
  | finishSeal job => exact effect_finishSeal h
  | openDatagram slice sender d =>
    have heffect : Effect none t _ _ := effect_openDatagram t sender d
    unfold exec
    dsimp only
    cases hr : t.openDatagram sender d with
    | mk t' r =>
      rw [hr] at heffect
      cases r with
      | ok u => exact heffect
      | error e => exact heffect

end SharedTransport

end UltimaCluster
