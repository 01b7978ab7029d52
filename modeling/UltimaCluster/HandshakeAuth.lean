/-
  Authentication of the handshake: a session is installed for an id only from a
  handshake with the holder of the static key that the allowlist gives for the
  id, and bytes that fail authentication change no link.

  A message 2 is authenticated by its read, since the key of its writer was
  pinned in message 1; a message 1 only by the checks after the read.
-/
import UltimaCluster.HandshakeSpec
import UltimaCluster.Lib.Trace

namespace UltimaCluster

open Function (update update_of_ne update_self)

/-! ## The ends of a handshake -/

namespace RespMessage

/-- The static key of the other end. -/
def peerKey (h : RespMessage) (initiator : Bool) : PublicKey :=
  if initiator then h.init.remote else h.init.static

def ownKey (h : RespMessage) (initiator : Bool) : PublicKey := h.peerKey (!initiator)

/-- What the other end put into its message. -/
def peerPayload (h : RespMessage) (initiator : Bool) : Bytes :=
  if initiator then h.payload else h.init.payload

/-- The message that the other end writes. -/
def received (h : RespMessage) (initiator : Bool) : HandshakeBody :=
  if initiator then .resp h else .init h.init

end RespMessage

namespace Session

/-- The session of one end of a handshake. -/
structure EndOf (s : Session) (h : RespMessage) (initiator : Bool) : Prop where
  sealKey : s.sealKey = .transport h initiator
  openKey : s.openKey = .transport h (!initiator)

/-- The same session, but for its window. -/
structure SameKeys (s t : Session) : Prop where
  sealKey : s.sealKey = t.sealKey
  openKey : s.openKey = t.openKey
  bootSalt : s.bootSalt = t.bootSalt

theorem SameKeys.refl (s : Session) : s.SameKeys s := ⟨rfl, rfl, rfl⟩

theorem SameKeys.trans {s t u : Session} (h : s.SameKeys t) (h' : t.SameKeys u) : s.SameKeys u :=
  ⟨h.sealKey.trans h'.sealKey, h.openKey.trans h'.openKey, h.bootSalt.trans h'.bootSalt⟩

end Session

def Link.Holds (l : Link) (s : Session) : Prop := l.current = some s ∨ l.pending = some s

/-! ## Calls -/

/-- A call on `Peers`. -/
inductive PeersCall where
  | initiate (now : ℕ) (file : Option AllowlistFile) (peer : NodeId)
  | onMessage (now : ℕ) (file : Option AllowlistFile) (sender : NodeId) (kind : ℕ)
      (body : HandshakeBody)
  | tick (now : ℕ) (file : Option AllowlistFile)
  | reload (now : ℕ) (file : Option AllowlistFile)
  | promotePending (peer : NodeId)
  | sealPairwise (peer : NodeId) (buf : Bytes) (counter : ℕ)
  | openPairwise (peer : NodeId) (d : Datagram)

namespace Peers

variable {P P' : Peers}

def exec (P : Peers) : PeersCall → Peers
  | .initiate now file peer => (P.initiate now file peer).1
  | .onMessage now file sender kind body => (P.onMessage now file sender kind body).1
  | .tick now file => (P.tick now file).1
  | .reload now file => P.allowlistReloadIfStale now file
  | .promotePending peer => (P.promotePending peer).1
  | .sealPairwise _ _ _ => P
  | .openPairwise peer d => (P.openPairwise peer d).1

def run (P : Peers) (calls : List PeersCall) : Peers := calls.foldl exec P

/-- The session comes from a handshake in which the other end, the holder of
    the key that the allowlist then gives for `peer`, bound itself to `peer`. -/
def Authenticated (P : Peers) (call : PeersCall) (peer : NodeId) (s : Session) : Prop :=
  ∃ now file kind h initiator, call = .onMessage now file peer kind (h.received initiator) ∧
    s.EndOf h initiator ∧
    (P.exec call).allowlist.lookup peer = some (h.peerKey initiator) ∧
    decodePayload (h.peerPayload initiator) = some (peer, s.bootSalt) ∧
    h.ownKey initiator = P.identity

/-- The message is authentic: a message 1 to this process from the holder of the
    key of `sender`, bound to `sender`; or the answer to the handshake in flight. -/
def Authentic (P : Peers) (now : ℕ) (file : Option AllowlistFile) (sender : NodeId) (kind : ℕ)
    (body : HandshakeBody) : Prop :=
  (kind = dgramKindHsInit ∧ ∃ m salt, readInit P.identity body = some m ∧
    decodePayload m.payload = some (sender, salt) ∧
    (P.authorizedKey now file sender).2 = some m.static) ∨
  (kind = dgramKindHsResp ∧ ∃ msg1 m, (P.link sender).hs = some msg1 ∧
    readResp msg1 body = some m)

/-! ## One call -/

variable {peer : NodeId} {s : Session}

theorem PeersStep.holds {input : Option (NodeId × HandshakeBody)} (h : PeersStep input P P')
    (hs : (P'.link peer).Holds s) :
    (∃ s₀, (P.link peer).Holds s₀ ∧ s.SameKeys s₀) ∨
      ∃ hd initiator, input = some (peer, hd.received initiator) ∧ s.EndOf hd initiator ∧
        P'.allowlist.lookup peer = some (hd.peerKey initiator) ∧
        decodePayload (hd.peerPayload initiator) = some (peer, s.bootSalt) ∧
        (initiator = true → (P.link peer).hs = some hd.init) ∧
        (initiator = false → hd.init.remote = P.identity) := by
  have hold : (P.link peer).Holds s → (∃ s₀, (P.link peer).Holds s₀ ∧ s.SameKeys s₀) :=
    fun h => ⟨s, h, .refl s⟩
  -- a step of another link leaves this one
  have hother : ∀ {x : NodeId} {l : Link}, P'.link = update P.link x l → peer ≠ x →
      (∃ s₀, (P.link peer).Holds s₀ ∧ s.SameKeys s₀) := by
    intro x l hl hne
    rw [hl, update_of_ne hne] at hs
    exact hold hs
  cases h with
  | quiet same drawn link =>
    rw [link] at hs
    exact .inl (hold hs)
  | expire same drawn link =>
    rcases link peer with h | h
    · rw [h] at hs
      exact .inl (hold hs)
    · rw [h] at hs
      rcases hs with hs | hs
      · exact .inl (hold (.inl hs))
      · cases hs
  | start x key same drawn vacant link =>
    by_cases hx : peer = x
    · subst hx
      rw [link, update_self] at hs
      exact .inl (hold hs)
    · exact .inl (hother link hx)
  | drop x same drawn link =>
    by_cases hx : peer = x
    · subst hx
      rw [link, update_self] at hs
      exact .inl (hold hs)
    · exact .inl (hother link hx)
  | promote x t datagram same drawn pending link =>
    by_cases hx : peer = x
    · subst hx
      rw [link, update_self] at hs
      rcases hs with hs | hs
      · obtain rfl := Option.some.inj hs
        exact .inl (hold (.inr pending))
      · cases hs
    · exact .inl (hother link hx)
  | touch x t replay same drawn grows link =>
    by_cases hx : peer = x
    · subst hx
      rcases link with ⟨hcur, link⟩ | ⟨hpend, link⟩
      · rw [link, update_self] at hs
        rcases hs with hs | hs
        · obtain rfl := Option.some.inj hs
          exact .inl ⟨t, .inl hcur, rfl, rfl, rfl⟩
        · exact .inl (hold (.inr hs))
      · rw [link, update_self] at hs
        rcases hs with hs | hs
        · exact .inl (hold (.inl hs))
        · obtain rfl := Option.some.inj hs
          exact .inl ⟨t, .inr hpend, rfl, rfl, rfl⟩
    · rcases link with ⟨-, link⟩ | ⟨-, link⟩ <;> exact .inl (hother link hx)
  | respond x m salt now same received drawn remote payload allowed link =>
    by_cases hx : peer = x
    · subst hx
      have hnew : s = Session.fromFinishedHandshake (P.ownResp m) false salt now ∨
          (P.link peer).Holds s := by
        rw [link, update_self] at hs
        dsimp only at hs
        split at hs
        · exact hs.imp (fun h => (Option.some.inj h).symm) .inr
        · rename_i c hc
          exact hs.elim (fun h => .inr (.inl (hc.trans h))) fun h => .inl (Option.some.inj h).symm
      rcases hnew with rfl | hnew
      · refine .inr ⟨P.ownResp m, false, received, ⟨rfl, rfl⟩, allowed, payload, by simp, ?_⟩
        exact fun _ => remote
      · exact .inl (hold hnew)
    · exact .inl (hother link hx)
  | complete x m salt now same received drawn hhs payload allowed link =>
    by_cases hx : peer = x
    · subst hx
      rw [link, update_self] at hs
      rcases hs with hs | hs
      · obtain rfl := Option.some.inj hs
        exact .inr ⟨m, true, received, ⟨rfl, rfl⟩, allowed, payload, fun _ => hhs, by simp⟩
      · cases hs
    · exact .inl (hother link hx)

/-- A handshake in flight was started by this process. -/
def OwnAttempts (P : Peers) : Prop := ∀ peer m, (P.link peer).hs = some m → m.static = P.identity

theorem PeersStep.ownAttempts {input : Option (NodeId × HandshakeBody)} (h : PeersStep input P P')
    (hown : P.OwnAttempts) : P'.OwnAttempts := by
  have hsame := PeersStep.same h
  intro peer m hm
  rw [hsame.identity]
  have hold : (P.link peer).hs = some m → m.static = P.identity := hown peer m
  have hother : ∀ {x : NodeId} {l : Link}, P'.link = update P.link x l →
      (peer = x → l.hs = some m → m.static = P.identity) → m.static = P.identity := by
    intro x l hl hself
    by_cases hx : peer = x
    · subst hx
      rw [hl, update_self] at hm
      exact hself rfl hm
    · rw [hl, update_of_ne hx] at hm
      exact hold hm
  cases h with
  | quiet same drawn link => exact hold (link ▸ hm)
  | expire same drawn link =>
    rcases link peer with h | h
    · exact hold (h ▸ hm)
    · rw [h] at hm
      exact hold hm
  | start x key same drawn vacant link =>
    exact hother link fun _ h => (Option.some.inj h) ▸ rfl
  | drop x same drawn link => exact hother link fun _ h => by cases h
  | promote x t datagram same drawn pending link => exact hother link fun hx h => hold (hx ▸ h)
  | touch x t replay same drawn grows link =>
    rcases link with ⟨-, link⟩ | ⟨-, link⟩ <;> exact hother link fun hx h => hold (hx ▸ h)
  | respond x m' salt now same received drawn remote payload allowed link =>
    refine hother link fun _ h => ?_
    dsimp only at h
    split at h <;> cases h
  | complete x m' salt now same received drawn hhs payload allowed link =>
    exact hother link fun _ h => by cases h

theorem exec_steps (P : Peers) (call : PeersCall) :
    (∃ now file sender kind body, call = .onMessage now file sender kind body ∧
      PeersStep (some (sender, body)) P (P.exec call)) ∨ PeersSteps none P (P.exec call) := by
  cases call with
  | initiate now file peer => exact .inr (initiate_steps P now file peer)
  | onMessage now file sender kind body =>
    exact .inl ⟨now, file, sender, kind, body, rfl, onMessage_step P now file sender kind body⟩
  | tick now file => exact .inr (tick_steps P now file)
  | reload now file => exact .inr (.single (reload_quiet P now file))
  | promotePending peer => exact .inr (promotePending_steps P peer)
  | sealPairwise peer buf counter => exact .inr .refl
  | openPairwise peer d => exact .inr (openPairwise_steps P peer d)

theorem PeersSteps.holds (h : PeersSteps none P P') (hs : (P'.link peer).Holds s) :
    ∃ s₀, (P.link peer).Holds s₀ ∧ s.SameKeys s₀ := by
  induction h generalizing s with
  | refl => exact ⟨s, hs, .refl s⟩
  | tail _ hstep ih =>
    obtain ⟨t, ht, hst⟩ | ⟨hd, initiator, hinput, -⟩ := PeersStep.holds hstep hs
    · obtain ⟨s₀, hs₀, hts⟩ := ih ht
      exact ⟨s₀, hs₀, hst.trans hts⟩
    · cases hinput

theorem ownAttempts_exec (hown : P.OwnAttempts) (call : PeersCall) : (P.exec call).OwnAttempts := by
  obtain ⟨now, file, sender, kind, body, rfl, hstep⟩ | hsteps := exec_steps P call
  · exact PeersStep.ownAttempts hstep hown
  · generalize P.exec call = P' at hsteps
    induction hsteps with
    | refl => exact hown
    | tail _ hstep ih => exact PeersStep.ownAttempts hstep ih

theorem authenticated_exec (hown : P.OwnAttempts) (call : PeersCall)
    (hs : ((P.exec call).link peer).Holds s) :
    (∃ s₀, (P.link peer).Holds s₀ ∧ s.SameKeys s₀) ∨ P.Authenticated call peer s := by
  obtain ⟨now, file, sender, kind, body, rfl, hstep⟩ | hsteps := exec_steps P call
  · refine (PeersStep.holds hstep hs).imp id ?_
    rintro ⟨hd, initiator, hinput, hend, hallowed, hpayload, htrue, hfalse⟩
    obtain ⟨rfl, rfl⟩ := Prod.mk.inj (Option.some.inj hinput)
    refine ⟨now, file, kind, hd, initiator, rfl, hend, hallowed, hpayload, ?_⟩
    cases initiator with
    | true => exact hown _ _ (htrue rfl)
    | false => exact hfalse rfl
  · exact .inl (PeersSteps.holds hsteps hs)

/-! ## Bytes that fail authentication -/

theorem onMessage_refused {now : ℕ} {file : Option AllowlistFile} {sender : NodeId} {kind : ℕ}
    {body : HandshakeBody} (h : ¬ P.Authentic now file sender kind body) :
    (P.onMessage now file sender kind body).1.link = P.link := by
  unfold Authentic at h
  rw [not_or] at h
  obtain ⟨hinit, hresp⟩ := h
  unfold onMessage
  split_ifs with hself hki hkr
  · rfl
  · unfold onInit
    split
    · rename_i P₁ hauth
      exact (authorizedKey_spec hauth).2.2.1
    rename_i P₁ expected hauth
    obtain ⟨hsame, -, hlink, -⟩ := authorizedKey_spec hauth
    dsimp only
    split
    · exact hlink
    split
    · exact hlink
    rename_i m hread
    split
    · exact hlink
    rename_i claimed salt hpayload
    split
    · exact hlink
    rename_i hid
    split
    · exact hlink
    rename_i hstatic
    obtain rfl := not_not.mp hid
    obtain rfl := not_not.mp hstatic
    rw [hsame.identity] at hread
    exact absurd ⟨hki, m, salt, hread, hpayload, by rw [hauth]⟩ hinit
  · unfold onResp
    dsimp only
    split
    · rfl
    rename_i msg1 hhs
    split
    · rfl
    rename_i m hread
    exact absurd ⟨hkr, msg1, m, hhs, hread⟩ hresp
  · rfl

theorem openPairwise_refused {d : Datagram}
    (h : ∀ s, (P.link peer).Holds s → ∀ r, openWith d s.openKey ≠ .ok r) :
    (P.openPairwise peer d).1 = P := by
  have hopened := openPairwise_opened P peer d
  generalize P.openPairwise peer d = r at hopened
  cases hopened with
  | refused err => rfl
  | current s p slot opens => exact absurd opens (h s (.inl slot) _)
  | promoted s p slot opens fresh => exact absurd opens (h s (.inr slot) _)
  | replayed s p err slot opens => exact absurd opens (h s (.inr slot) _)

/-! ## Runs -/

theorem ownAttempts_run (identity : PublicKey) (allowlist : Allowlist) {selfId : NodeId}
    (hid : selfId < 2 ^ 32) (salt : BootSalt) (calls : List PeersCall) :
    ((new identity allowlist selfId hid salt).run calls).OwnAttempts := by
  induction calls using List.reverseRecOn with
  | nil => exact fun peer m hm => by cases hm
  | append_singleton calls call ih =>
    unfold run
    rw [List.foldl_append]
    exact ownAttempts_exec ih call

theorem authenticated_run (identity : PublicKey) (allowlist : Allowlist) {selfId : NodeId}
    (hid : selfId < 2 ^ 32) (salt : BootSalt) (calls : List PeersCall)
    (hs : (((new identity allowlist selfId hid salt).run calls).link peer).Holds s) :
    ∃ before call after s₀, calls = before ++ call :: after ∧ s.SameKeys s₀ ∧
      ((new identity allowlist selfId hid salt).run before).Authenticated call peer s₀ := by
  induction calls using List.reverseRecOn generalizing s with
  | nil => rcases hs with hs | hs <;> cases hs
  | append_singleton calls call ih =>
    unfold run at hs
    rw [List.foldl_append] at hs
    obtain ⟨t, ht, hst⟩ | hauth :=
      authenticated_exec (ownAttempts_run identity allowlist hid salt calls) call hs
    · obtain ⟨before, call', after, s₀, rfl, hts, hauth⟩ := ih ht
      exact ⟨before, call', after ++ [call], s₀, by simp, hst.trans hts, hauth⟩
    · exact ⟨calls, call, [], s, rfl, .refl s, hauth⟩

/-- **The handshake authenticates.**  Every session of a run comes from a
    handshake with the holder of the key that the allowlist gave for the id at
    that moment, who bound itself to the id; the two ends of a handshake have
    mirrored keys; and what fails authentication changes no link. -/
theorem handshake_authenticated (identity : PublicKey) (allowlist : Allowlist) (selfId : NodeId)
    (hid : selfId < 2 ^ 32) (salt : BootSalt) (calls : List PeersCall) :
    let P := (new identity allowlist selfId hid salt).run calls
    (∀ peer s, (P.link peer).Holds s → ∃ before call after s₀, calls = before ++ call :: after ∧
      s.SameKeys s₀ ∧
      ((new identity allowlist selfId hid salt).run before).Authenticated call peer s₀) ∧
    (∀ identity' allowlist' selfId' hid' salt' calls' peer peer' s t h initiator,
      (P.link peer).Holds s →
      (((new identity' allowlist' selfId' hid' salt').run calls').link peer').Holds t →
      s.sealKey = .transport h initiator → t.sealKey = .transport h (!initiator) →
      s.openKey = t.sealKey ∧ t.openKey = s.sealKey) ∧
    (∀ now file sender kind body, ¬ P.Authentic now file sender kind body →
      (P.onMessage now file sender kind body).1.link = P.link) ∧
    (∀ peer d, (∀ s, (P.link peer).Holds s → ∀ r, openWith d s.openKey ≠ .ok r) →
      (P.openPairwise peer d).1 = P) := by
  intro P
  refine ⟨fun peer s hs => authenticated_run identity allowlist hid salt calls hs, ?_,
    fun now file sender kind body h => onMessage_refused h, fun peer d h => openPairwise_refused h⟩
  -- a session opens with the other direction of the handshake it seals with
  have hopens : ∀ {identity : PublicKey} {allowlist : Allowlist} {selfId : NodeId}
      {hid : selfId < 2 ^ 32} {salt : BootSalt} {calls : List PeersCall} {peer : NodeId}
      {s : Session} {h : RespMessage} {initiator : Bool},
      (((new identity allowlist selfId hid salt).run calls).link peer).Holds s →
      s.sealKey = .transport h initiator → s.openKey = .transport h (!initiator) := by
    intro identity allowlist selfId hid salt calls peer s h initiator hs hkey
    obtain ⟨_, _, _, s₀, _, hsame, _, _, _, hd, role, _, hend, _⟩ :=
      authenticated_run identity allowlist hid salt calls hs
    have heq := hkey.symm.trans (hsame.sealKey.trans hend.sealKey)
    obtain ⟨rfl, rfl⟩ := AesKey.transport.inj heq
    exact hsame.openKey.trans hend.openKey
  intro identity' allowlist' selfId' hid' salt' calls' peer peer' s t h initiator hs ht hkey hkey'
  refine ⟨(hopens hs hkey).trans hkey'.symm, ?_⟩
  rw [hopens ht hkey', Bool.not_not, hkey]

theorem nodeOne_lt : (1 : NodeId) < 2 ^ 32 := by decide

def saltOne : BootSalt := ⟨List.replicate 16 1, rfl⟩

def saltTwo : BootSalt := ⟨List.replicate 16 2, rfl⟩

/-- Message 1 of node 1, with the key `[1]`, to a node with the key `[2]`. -/
def firstContact : InitMessage := ⟨[1], [2], ⟨saltOne, 0⟩, encodePayload 1 saltOne⟩

theorem handshake_authenticated_firstContact :
    ∃ s, (((new [2] ⟨[(1, [1])], 0, 0⟩ 2 (by decide) ⟨List.replicate 16 2, rfl⟩).run
        [.onMessage 0 none 1 18 (.init firstContact)]).link 1).current = some s ∧
      ∃ before call after s₀,
        [PeersCall.onMessage 0 none 1 18 (.init firstContact)] = before ++ call :: after ∧
        s.SameKeys s₀ ∧
        ((new [2] ⟨[(1, [1])], 0, 0⟩ 2 (by decide) ⟨List.replicate 16 2, rfl⟩).run
          before).Authenticated call 1 s₀ := by
  have hsome : (((new [2] ⟨[(1, [1])], 0, 0⟩ 2 (by decide) ⟨List.replicate 16 2, rfl⟩).run
      [.onMessage 0 none 1 18 (.init firstContact)]).link 1).current.isSome = true := by
    decide +kernel
  obtain ⟨s, hs⟩ := Option.isSome_iff_exists.mp hsome
  exact ⟨s, hs, (handshake_authenticated [2] ⟨[(1, [1])], 0, 0⟩ 2 (by decide)
    ⟨List.replicate 16 2, rfl⟩ [.onMessage 0 none 1 18 (.init firstContact)]).1 1 s (.inl hs)⟩

end Peers

end UltimaCluster
