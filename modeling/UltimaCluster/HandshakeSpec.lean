/-
  What a call of the handshake driver can do to the links of a process: the
  handshake in flight, the current and the pending session with each peer.

  Every call is a sequence of `PeersStep`s (`tick` restarts several handshakes).
-/
import UltimaCluster.Handshake

namespace UltimaCluster

open Function (update update_idem update_of_ne update_self)

/-- The part of an entry that a call changes. -/
structure Link where
  hs : Option InitMessage
  current : Option Session
  pending : Option Session

namespace Peers

variable {P P' : Peers} {now : ℕ} {file : Option AllowlistFile}

def link (P : Peers) (peer : NodeId) : Link :=
  ⟨(P.entry peer).hs, (P.entry peer).current, (P.entry peer).pending⟩

/-- The identity of the process stays, and it only draws key pairs. -/
structure Same (P P' : Peers) : Prop where
  identity : P'.identity = P.identity
  selfId : P'.selfId = P.selfId
  bootSalt : P'.bootSalt = P.bootSalt

theorem Same.refl (P : Peers) : Same P P := ⟨rfl, rfl, rfl⟩

theorem Same.trans {P'' : Peers} (h : Same P P') (h' : Same P' P'') : Same P P'' :=
  ⟨h'.identity.trans h.identity, h'.selfId.trans h.selfId, h'.bootSalt.trans h.bootSalt⟩

/-- Message 1 as this process writes it. -/
def ownInit (P : Peers) (key : PublicKey) : InitMessage :=
  ⟨P.identity, key, ⟨P.bootSalt, P.drawn⟩, encodePayload P.selfId P.bootSalt⟩

/-- Message 2 as this process writes it. -/
def ownResp (P : Peers) (m : InitMessage) : RespMessage :=
  ⟨m, ⟨P.bootSalt, P.drawn⟩, encodePayload P.selfId P.bootSalt⟩

@[simp] theorem link_setEntry (P : Peers) (peer : NodeId) (e : PeerEntry) :
    (P.setEntry peer e).link = update P.link peer ⟨e.hs, e.current, e.pending⟩ := by
  funext x
  unfold link setEntry
  by_cases hx : x = peer
  · subst hx
    simp
  · simp [update_of_ne hx]

theorem link_cases {x : NodeId} {l : Link} (h : P'.link = update P.link x l) (y : NodeId) :
    (y = x ∧ P'.link y = l) ∨ (y ≠ x ∧ P'.link y = P.link y) := by
  rw [h]
  by_cases hy : y = x
  · subst hy
    exact .inl ⟨rfl, update_self _ _ _⟩
  · exact .inr ⟨hy, update_of_ne hy _ _⟩

theorem authorizedKey_spec {id : NodeId} {key : Option PublicKey}
    (h : P.authorizedKey now file id = (P', key)) :
    P.Same P' ∧ P'.drawn = P.drawn ∧ P'.link = P.link ∧ P'.allowlist.lookup id = key := by
  unfold authorizedKey at h
  split at h
  · rename_i k hk
    cases h
    exact ⟨Same.refl P, rfl, rfl, hk⟩
  · cases h
    exact ⟨⟨rfl, rfl, rfl⟩, rfl, rfl, rfl⟩

end Peers

/-- A step of the links; `input` is the handshake message of the call. -/
inductive PeersStep (input : Option (NodeId × HandshakeBody)) (P P' : Peers) : Prop where
  /-- Only clocks, flags and the allowlist change. -/
  | quiet (same : P.Same P') (drawn : P'.drawn = P.drawn) (link : P'.link = P.link)
  | expire (same : P.Same P') (drawn : P'.drawn = P.drawn)
      (link : ∀ x, P'.link x = P.link x ∨ P'.link x = { P.link x with pending := none })
  | start (peer : NodeId) (key : PublicKey) (same : P.Same P') (drawn : P'.drawn = P.drawn + 1)
      (vacant : (P.link peer).current = none)
      (link : P'.link =
        Function.update P.link peer { P.link peer with hs := some (P.ownInit key) })
  /-- Message 1 of a peer is answered. -/
  | respond (peer : NodeId) (m : InitMessage) (salt : BootSalt) (now : ℕ) (same : P.Same P')
      (received : input = some (peer, .init m))
      (drawn : P'.drawn = P.drawn + 1) (remote : m.remote = P.identity)
      (payload : decodePayload m.payload = some (peer, salt))
      (allowed : P'.allowlist.lookup peer = some m.static)
      (link : P'.link = Function.update P.link peer
        (let s := Session.fromFinishedHandshake (P.ownResp m) false salt now
        match (P.link peer).current with
        | none => ⟨none, some s, (P.link peer).pending⟩
        | some c => ⟨none, some c, some s⟩))
  /-- An attempt is given up. -/
  | drop (peer : NodeId) (same : P.Same P') (drawn : P'.drawn = P.drawn)
      (link : P'.link = Function.update P.link peer { P.link peer with hs := none })
  /-- Message 2 of a peer completes the handshake. -/
  | complete (peer : NodeId) (m : RespMessage) (salt : BootSalt) (now : ℕ) (same : P.Same P')
      (received : input = some (peer, .resp m))
      (drawn : P'.drawn = P.drawn) (hs : (P.link peer).hs = some m.init)
      (payload : decodePayload m.payload = some (peer, salt))
      (allowed : P'.allowlist.lookup peer = some m.init.remote)
      (link : P'.link = Function.update P.link peer
        ⟨none, some (Session.fromFinishedHandshake m true salt now), none⟩)
  /-- A datagram moves a window. -/
  | touch (peer : NodeId) (s : Session) (replay : ReplayWindow) (same : P.Same P')
      (drawn : P'.drawn = P.drawn) (grows : ∀ c, s.replay.Seen c → replay.Seen c)
      (link : ((P.link peer).current = some s ∧ P'.link = Function.update P.link peer
          { P.link peer with current := some { s with replay } }) ∨
        ((P.link peer).pending = some s ∧ P'.link = Function.update P.link peer
          { P.link peer with pending := some { s with replay } }))
  /-- A datagram promotes; a handshake message never does. -/
  | promote (peer : NodeId) (s : Session) (datagram : input = none) (same : P.Same P')
      (drawn : P'.drawn = P.drawn) (pending : (P.link peer).pending = some s)
      (link : P'.link =
        Function.update P.link peer { P.link peer with current := some s, pending := none })

/-- Any number of steps of one call. -/
abbrev PeersSteps (input : Option (NodeId × HandshakeBody)) : Peers → Peers → Prop :=
  Relation.ReflTransGen (PeersStep input)

namespace Peers

variable {P P' : Peers} {now : ℕ} {file : Option AllowlistFile}
  {input : Option (NodeId × HandshakeBody)}

theorem PeersStep.same (h : PeersStep input P P') : P.Same P' := by
  cases h <;> assumption

theorem PeersSteps.same (h : PeersSteps input P P') : P.Same P' := by
  induction h with
  | refl => exact Same.refl P
  | tail _ hstep ih => exact ih.trans (PeersStep.same hstep)

theorem readInit_some {identity : PublicKey} {body : HandshakeBody} {m : InitMessage}
    (h : readInit identity body = some m) : m.remote = identity ∧ body = .init m := by
  unfold readInit at h
  split at h
  · split_ifs at h with hm
    cases h
    exact ⟨hm.1, rfl⟩
  · cases h

theorem readResp_some {msg1 : InitMessage} {body : HandshakeBody} {m : RespMessage}
    (h : readResp msg1 body = some m) : m.init = msg1 ∧ body = .resp m := by
  unfold readResp at h
  split at h
  · split_ifs at h with hm
    cases h
    exact ⟨hm.1, rfl⟩
  · cases h

theorem setEntry_quiet (P : Peers) (peer : NodeId) {e : PeerEntry}
    (h : (⟨e.hs, e.current, e.pending⟩ : Link) = P.link peer) : PeersStep input P (P.setEntry peer e) := by
  refine .quiet ⟨rfl, rfl, rfl⟩ rfl ?_
  rw [link_setEntry, h, Function.update_eq_self]

theorem reload_quiet (P : Peers) (now : ℕ) (file : Option AllowlistFile) :
    PeersStep input P (P.allowlistReloadIfStale now file) := .quiet ⟨rfl, rfl, rfl⟩ rfl rfl

theorem startInitiator_steps {peer : NodeId} (hvacant : (P.link peer).current = none) :
    PeersSteps input P (P.startInitiator now file peer).1 := by
  dsimp only [startInitiator]
  have hstamp : PeersStep input P (P.setEntry peer { P.entry peer with
      attempts := min ((P.entry peer).attempts + 1) (2 ^ 32 - 1), lastAttemptNs := now }) :=
    setEntry_quiet P peer rfl
  split
  · rename_i P₂ hauth
    obtain ⟨hsame, hdrawn, hlink, -⟩ := authorizedKey_spec hauth
    exact (Relation.ReflTransGen.single hstamp).tail (.quiet hsame hdrawn hlink)
  · rename_i P₂ key hauth
    obtain ⟨hsame, hdrawn, hlink, -⟩ := authorizedKey_spec hauth
    refine ((Relation.ReflTransGen.single hstamp).tail (.quiet hsame hdrawn hlink)).tail
      (.start peer key ⟨rfl, rfl, rfl⟩ rfl ?_ ?_)
    · rw [hlink, link_setEntry, update_self]
      exact hvacant
    · rw [link_setEntry]
      rfl

theorem initiate_steps (P : Peers) (now : ℕ) (file : Option AllowlistFile) (peer : NodeId) :
    PeersSteps input P (P.initiate now file peer).1 := by
  unfold initiate
  split
  · exact .refl
  · have hquiet : PeersStep input P (P.setEntry peer { P.entry peer with desired := true }) :=
      setEntry_quiet P peer rfl
    dsimp only
    split
    · exact .single hquiet
    · rename_i hbusy
      refine (Relation.ReflTransGen.single hquiet).trans (startInitiator_steps ?_)
      rw [not_or] at hbusy
      simpa [link] using hbusy.1

theorem onInit_step (P : Peers) (now : ℕ) (file : Option AllowlistFile) (sender : NodeId)
    (body : HandshakeBody) :
    PeersStep (some (sender, body)) P (P.onInit now file sender body).1 := by
  unfold onInit
  split
  · rename_i P₁ hauth
    obtain ⟨hsame, hdrawn, hlink, -⟩ := authorizedKey_spec hauth
    exact .quiet hsame hdrawn hlink
  · rename_i P₁ expected hauth
    obtain ⟨hsame, hdrawn, hlink, hlookup⟩ := authorizedKey_spec hauth
    have hquiet : PeersStep (some (sender, body)) P P₁ := .quiet hsame hdrawn hlink
    dsimp only
    split
    · exact hquiet
    split
    · exact hquiet
    rename_i m hread
    split
    · exact hquiet
    rename_i claimed salt hpayload
    split
    · exact hquiet
    rename_i hid
    split
    · exact hquiet
    rename_i hstatic
    obtain rfl := not_not.mp hid
    obtain rfl := not_not.mp hstatic
    obtain ⟨hremote, rfl⟩ := readInit_some hread
    refine .respond claimed m salt now ⟨hsame.identity, hsame.selfId, hsame.bootSalt⟩ rfl
      (by rw [← hdrawn]; rfl) (hremote.trans hsame.identity) hpayload hlookup ?_
    have hown : P.ownResp m = P₁.ownResp m := by
      unfold ownResp
      rw [hsame.selfId, hsame.bootSalt, hdrawn]
    rw [link_setEntry, ← hlink, hown]
    congr 1
    unfold PeerEntry.answered link
    cases (P₁.entry claimed).current <;> rfl

theorem onResp_step (P : Peers) (now : ℕ) (file : Option AllowlistFile) (sender : NodeId)
    (body : HandshakeBody) :
    PeersStep (some (sender, body)) P (P.onResp now file sender body).1 := by
  unfold onResp
  dsimp only
  split
  · exact .quiet (Same.refl P) rfl rfl
  rename_i msg1 hhs
  split
  · exact .quiet (Same.refl P) rfl rfl
  rename_i m hread
  obtain ⟨rfl, rfl⟩ := readResp_some hread
  have hdrop : PeersStep (some (sender, .resp m)) P
      (P.setEntry sender { P.entry sender with hs := none }) :=
    .drop sender ⟨rfl, rfl, rfl⟩ rfl (by rw [link_setEntry]; rfl)
  split
  · exact hdrop
  rename_i claimed salt hpayload
  split
  · exact hdrop
  rename_i hid
  obtain rfl := not_not.mp hid
  generalize hauth : (P.setEntry claimed _).authorizedKey now file claimed = r
  obtain ⟨P₁, key⟩ := r
  obtain ⟨hsame, hdrawn, hlink, hlookup⟩ := authorizedKey_spec hauth
  split
  · exact .drop claimed ⟨hsame.identity, hsame.selfId, hsame.bootSalt⟩ hdrawn
      (by rw [hlink, link_setEntry]; rfl)
  rename_i hkey
  obtain rfl := not_not.mp hkey
  refine .complete claimed m salt now ⟨hsame.identity, hsame.selfId, hsame.bootSalt⟩ rfl hdrawn
    hhs hpayload hlookup ?_
  rw [link_setEntry, hlink, link_setEntry, update_idem]
  congr 1
  have hentry : P₁.link claimed = ⟨none, (P.entry claimed).current, (P.entry claimed).pending⟩ := by
    rw [hlink, link_setEntry, update_self]
  have hhs' : (P₁.entry claimed).hs = none := congrArg Link.hs hentry
  rw [hhs']

theorem onMessage_step (P : Peers) (now : ℕ) (file : Option AllowlistFile) (sender : NodeId)
    (kind : ℕ) (body : HandshakeBody) :
    PeersStep (some (sender, body)) P (P.onMessage now file sender kind body).1 := by
  unfold onMessage
  split_ifs
  · exact .quiet (Same.refl P) rfl rfl
  · exact onInit_step P now file sender body
  · exact onResp_step P now file sender body
  · exact .quiet (Same.refl P) rfl rfl

/-! ## The tick and the datagrams -/

theorem tickEntry_link (now : ℕ) (peer : NodeId) (e : PeerEntry) :
    (tickEntry now peer e).1.hs = e.hs ∧ (tickEntry now peer e).1.current = e.current ∧
      ((tickEntry now peer e).1.pending = e.pending ∨ (tickEntry now peer e).1.pending = none) := by
  unfold tickEntry
  dsimp only
  split_ifs <;> split <;> simp_all

theorem tickEntry_restart {now : ℕ} {peer : NodeId} {e : PeerEntry}
    (h : (tickEntry now peer e).2.2 = true) : e.current = none := by
  unfold tickEntry at h
  dsimp only at h
  split_ifs at h <;> split at h <;> simp_all

theorem startInitiator_current (P : Peers) (now : ℕ) (file : Option AllowlistFile) (peer x : NodeId) :
    ((P.startInitiator now file peer).1.link x).current = (P.link x).current := by
  have hset : ∀ (Q : Peers) (e : PeerEntry), e.current = (Q.entry peer).current →
      ((Q.setEntry peer e).link x).current = (Q.link x).current := by
    intro Q e he
    rw [link_setEntry]
    by_cases hx : x = peer
    · subst hx
      rw [update_self]
      exact he
    · rw [update_of_ne hx]
  dsimp only [startInitiator]
  split
  · rename_i P₁ hauth
    obtain ⟨-, -, hlink, -⟩ := authorizedKey_spec hauth
    rw [hlink]
    exact hset P _ rfl
  · rename_i P₁ key hauth
    obtain ⟨-, -, hlink, -⟩ := authorizedKey_spec hauth
    refine (hset { P₁ with drawn := P₁.drawn + 1 } _ ?_).trans ?_
    · rfl
    · change (P₁.link x).current = _
      rw [hlink]
      exact hset P _ rfl

theorem restart_steps (now : ℕ) (file : Option AllowlistFile) (peers : List NodeId)
    (r : Peers × List HandshakeAction) (hvacant : ∀ x ∈ peers, (r.1.link x).current = none) :
    PeersSteps input r.1 (peers.foldl (fun r peer =>
      let (P, more) := r.1.startInitiator now file peer
      (P, r.2 ++ more)) r).1 := by
  induction peers generalizing r with
  | nil => exact .refl
  | cons peer peers ih =>
    rw [List.foldl_cons]
    refine (startInitiator_steps (hvacant peer List.mem_cons_self)).trans
      (ih ((r.1.startInitiator now file peer).1, r.2 ++ (r.1.startInitiator now file peer).2)
        fun x hx => ?_)
    exact (startInitiator_current r.1 now file peer x).trans (hvacant x (List.mem_cons_of_mem _ hx))

theorem tick_steps (P : Peers) (now : ℕ) (file : Option AllowlistFile) :
    PeersSteps input P (P.tick now file).1 := by
  unfold tick
  refine (Relation.ReflTransGen.single (reload_quiet P now file)).trans ?_
  generalize P.allowlistReloadIfStale now file = P₁
  have hexpire : PeersStep input P₁ { P₁ with entry := fun x => (tickEntry now x (P₁.entry x)).1 } := by
    refine .expire ⟨rfl, rfl, rfl⟩ rfl fun x => ?_
    obtain ⟨hhs, hcur, hpend⟩ := tickEntry_link now x (P₁.entry x)
    unfold link
    rw [hhs, hcur]
    refine hpend.imp (fun h => ?_) fun h => ?_
    · rw [h]
    · rw [h]
  refine (Relation.ReflTransGen.single hexpire).trans (restart_steps now file _ (_, _) fun x hx => ?_)
  have hcur : (tickEntry now x (P₁.entry x)).1.current = (P₁.entry x).current :=
    (tickEntry_link now x (P₁.entry x)).2.1
  exact hcur.trans (tickEntry_restart (List.mem_filter.mp hx).2)

/-- What a pairwise open does: nothing, or a check in the window of the session
    that opens the datagram; a new counter under `pending` promotes it. -/
inductive Opened (P : Peers) (peer : NodeId) (d : Datagram) : Peers × Except CryptoError ℕ → Prop where
  | refused (err : CryptoError) : Opened P peer d (P, .error err)
  | current (s : Session) (p : Bytes) (slot : (P.link peer).current = some s)
      (opens : openWith d s.openKey = .ok (d.counter, p)) :
      Opened P peer d (P.setEntry peer { P.entry peer with
        current := some (s.replayCheck d.counter).1 }, (s.replayCheck d.counter).2)
  | promoted (s : Session) (p : Bytes) (slot : (P.link peer).pending = some s)
      (opens : openWith d s.openKey = .ok (d.counter, p))
      (fresh : (s.replay.checkAndSet d.counter).2 = true) :
      Opened P peer d (P.setEntry peer { P.entry peer with
        current := some (s.replayCheck d.counter).1, pending := none, promoted := true },
        .ok d.counter)
  | replayed (s : Session) (p : Bytes) (err : CryptoError) (slot : (P.link peer).pending = some s)
      (opens : openWith d s.openKey = .ok (d.counter, p)) :
      Opened P peer d (P.setEntry peer { P.entry peer with
        pending := some (s.replayCheck d.counter).1 }, .error err)

theorem replayCheck_eq (s : Session) (counter : ℕ) :
    s.replayCheck counter = ({ s with replay := (s.replay.checkAndSet counter).1 },
      if (s.replay.checkAndSet counter).2 then .ok counter else .error (.replayed counter)) := by
  unfold Session.replayCheck
  split <;> simp_all

theorem openPairwise_opened (P : Peers) (peer : NodeId) (d : Datagram) :
    Opened P peer d (P.openPairwise peer d) := by
  unfold openPairwise
  dsimp only
  split
  case' h_2 s hs =>
    split
    case' h_2 counter p hopen =>
      obtain rfl := (openWith_ok hopen).1
      exact .current s p hs hopen
  -- without a current session, or with one that does not open the datagram
  all_goals
    split
    · exact .refused _
    rename_i s hs
    split
    · exact .refused _
    rename_i counter p hopen
    obtain rfl := (openWith_ok hopen).1
    cases hfresh : (s.replay.checkAndSet d.counter).2 with
    | true =>
      have := Opened.promoted s p hs hopen hfresh
      rw [replayCheck_eq, hfresh] at this ⊢
      exact this
    | false =>
      have := Opened.replayed s p (.replayed d.counter) hs hopen
      rw [replayCheck_eq, hfresh] at this ⊢
      exact this

theorem openPairwise_steps (P : Peers) (peer : NodeId) (d : Datagram) :
    PeersSteps none P (P.openPairwise peer d).1 := by
  have h := openPairwise_opened P peer d
  generalize P.openPairwise peer d = r at h
  cases h with
  | refused err => exact .refl
  | current s p slot opens =>
    refine .single (.touch peer s (s.replay.checkAndSet d.counter).1 ⟨rfl, rfl, rfl⟩ rfl
      (fun _ h => h.checkAndSet d.counter) (.inl ⟨slot, ?_⟩))
    rw [link_setEntry, replayCheck_eq]
    rfl
  | promoted s p slot opens fresh =>
    have htouch : PeersStep none P (P.setEntry peer { P.entry peer with
        pending := some (s.replayCheck d.counter).1 }) := by
      refine .touch peer s (s.replay.checkAndSet d.counter).1 ⟨rfl, rfl, rfl⟩ rfl
        (fun _ h => h.checkAndSet d.counter) (.inr ⟨slot, ?_⟩)
      rw [link_setEntry, replayCheck_eq]
      rfl
    refine (Relation.ReflTransGen.single htouch).tail
      (.promote peer (s.replayCheck d.counter).1 rfl ⟨rfl, rfl, rfl⟩ rfl ?_ ?_)
    · rw [link_setEntry, update_self]
    · rw [link_setEntry, link_setEntry, update_self, update_idem]
  | replayed s p err slot opens =>
    refine .single (.touch peer s (s.replay.checkAndSet d.counter).1 ⟨rfl, rfl, rfl⟩ rfl
      (fun _ h => h.checkAndSet d.counter) (.inr ⟨slot, ?_⟩))
    rw [link_setEntry, replayCheck_eq]
    rfl

theorem promotePending_steps (P : Peers) (peer : NodeId) :
    PeersSteps none P (P.promotePending peer).1 := by
  unfold promotePending
  dsimp only
  split
  · rename_i s hs
    exact .single (.promote peer s rfl ⟨rfl, rfl, rfl⟩ rfl hs (by rw [link_setEntry]; rfl))
  · exact .refl

end Peers

end UltimaCluster
