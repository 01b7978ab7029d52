/-
  The handshake driver and the sessions of a process with its peers
  (`uc_crypto/src/handshake.rs`, the allowlist of `uc_crypto/src/identity.rs`).

  A call takes the time and the state of the allowlist file.  The calls into
  Noise that do not read a message cannot fail on keys and buffers of the right
  length, and their error paths are left out.
-/
import UltimaCluster.Replay
import UltimaCluster.Seal

namespace UltimaCluster

/-! ## The allowlist -/

/-- The file: `entries` is `none` where a line is malformed or an id is twice. -/
structure AllowlistFile where
  mtime : ℕ
  entries : Option (List (NodeId × PublicKey))
deriving DecidableEq

/-- The keys that may connect. -/
structure Allowlist where
  entries : List (NodeId × PublicKey)
  mtime : ℕ
  lastReloadAttemptNs : ℕ
deriving DecidableEq

/-- `RELOAD_MIN_INTERVAL_NS`. -/
def reloadMinIntervalNs : ℕ := 1_000_000_000

namespace Allowlist

/-- The key of a peer. -/
def lookup (a : Allowlist) (id : NodeId) : Option PublicKey :=
  (a.entries.find? (·.1 = id)).map (·.2)

/-- `file` is `none` where it cannot be read; an error leaves the entries. -/
def reloadIfStale (a : Allowlist) (now : ℕ) (file : Option AllowlistFile) : Allowlist :=
  if now - a.lastReloadAttemptNs < reloadMinIntervalNs then a
  else
    let a := { a with lastReloadAttemptNs := now }
    match file with
    | none => a
    | some f =>
      if f.mtime = a.mtime then a
      else
        match f.entries with
        | some entries => { a with entries, mtime := f.mtime }
        | none => a

end Allowlist

/-! ## Sessions -/

/-- What a handshake asks of its caller. -/
inductive HandshakeAction where
  | send (dest : NodeId) (kind : ℕ) (body : HandshakeBody)
  | established (peer : NodeId) (bootSalt : BootSalt) (confirmed : Bool)
  | failed (peer : NodeId) (reason : String)
deriving DecidableEq

/-- `DGRAM_KIND_HS_INIT`. -/
def dgramKindHsInit : ℕ := 18

/-- `DGRAM_KIND_HS_RESP`. -/
def dgramKindHsResp : ℕ := 19

/-- `HS_PAYLOAD_LEN`. -/
def hsPayloadLen : ℕ := 4 + 16

/-- `HS_BUF_LEN`: a longer payload is not decrypted. -/
def hsBufLen : ℕ := 512

def encodePayload (id : NodeId) (salt : BootSalt) : Bytes := Bytes.le 4 id ++ salt.bytes

def decodePayload (b : Bytes) : Option (NodeId × BootSalt) :=
  if h : b.length = hsPayloadLen then
    some (Bytes.val (b.take 4), ⟨b.drop 4, by rw [List.length_drop, h]; rfl⟩)
  else none

theorem decodePayload_encodePayload {id : NodeId} (h : id < 2 ^ 32) (salt : BootSalt) :
    decodePayload (encodePayload id salt) = some (id, salt) := by
  have hlen : (encodePayload id salt).length = hsPayloadLen := by
    simp [encodePayload, salt.length_eq, hsPayloadLen]
  have hid : Bytes.val (Bytes.le 4 id) = id := Bytes.val_le (by simpa using h)
  unfold decodePayload
  rw [dif_pos hlen]
  simp [encodePayload, hid]

/-- `read_message` of a responder: its static key is in the message. -/
def readInit (identity : PublicKey) : HandshakeBody → Option InitMessage
  | .init m => if m.remote = identity ∧ m.payload.length ≤ hsBufLen then some m else none
  | _ => none

/-- `read_message` of the initiator that wrote `msg1`; a failed read restores
    its state. -/
def readResp (msg1 : InitMessage) : HandshakeBody → Option RespMessage
  | .resp m => if m.init = msg1 ∧ m.payload.length ≤ hsBufLen then some m else none
  | _ => none

/-- The keys shared with a peer. -/
structure Session where
  sealKey : AesKey
  openKey : AesKey
  bootSalt : BootSalt
  replay : ReplayWindow
  installedNs : ℕ
deriving DecidableEq

namespace Session

/-- The raw split is (initiator to responder, responder to initiator). -/
def fromFinishedHandshake (handshake : RespMessage) (initiator : Bool) (bootSalt : BootSalt)
    (now : ℕ) : Session where
  sealKey := .transport handshake initiator
  openKey := .transport handshake (!initiator)
  bootSalt := bootSalt
  replay := .new
  installedNs := now

/-- `replay_check`. -/
def replayCheck (s : Session) (counter : ℕ) : Session × Except CryptoError ℕ :=
  match s.replay.checkAndSet counter with
  | (replay, true) => ({ s with replay }, .ok counter)
  | (replay, false) => ({ s with replay }, .error (.replayed counter))

end Session

/-- What is known of one peer. -/
structure PeerEntry where
  desired : Bool
  /-- Message 1 of the handshake in flight. -/
  hs : Option InitMessage
  attempts : ℕ
  lastAttemptNs : ℕ
  promoted : Bool
  current : Option Session
  pending : Option Session
deriving DecidableEq

namespace PeerEntry

def default : PeerEntry := ⟨false, none, 0, 0, false, none, none⟩

/-- The session of a responder: the loser of the race gives up its own attempt,
    and next to a live session the new one is parked. -/
def answered (e : PeerEntry) (s : Session) : PeerEntry :=
  match e.current with
  | none => { e with hs := none, current := some s }
  | some _ => { e with hs := none, pending := some s }

end PeerEntry

/-- The handshake state of one process. -/
structure Peers where
  /-- The public half of the static key. -/
  identity : PublicKey
  allowlist : Allowlist
  selfId : NodeId
  selfId_lt : selfId < 2 ^ 32
  bootSalt : BootSalt
  /-- How many key pairs were drawn. -/
  drawn : ℕ
  /-- The keys of the map, in the order of its iteration. -/
  known : List NodeId
  /-- The entry of a peer; the default one where the map has none. -/
  entry : NodeId → PeerEntry

/-- `PENDING_TTL_NS`. -/
def pendingTtlNs : ℕ := 30_000_000_000

/-- `HS_RETRY_BASE_NS` doubled up to `HS_RETRY_MAX_SHIFT` times, up to
    `HS_RETRY_MAX_NS`. -/
def retryDelayNs (attempts : ℕ) : ℕ :=
  min (200_000_000 * 2 ^ min (attempts - 1) 4) 2_000_000_000

namespace Peers

def new (identity : PublicKey) (allowlist : Allowlist) (selfId : NodeId) (h : selfId < 2 ^ 32)
    (bootSalt : BootSalt) : Peers :=
  ⟨identity, allowlist, selfId, h, bootSalt, 0, [], fun _ => .default⟩

def setEntry (P : Peers) (peer : NodeId) (e : PeerEntry) : Peers :=
  { P with
    known := if peer ∈ P.known then P.known else P.known ++ [peer]
    entry := Function.update P.entry peer e }

def isEstablished (P : Peers) (peer : NodeId) : Bool := (P.entry peer).current.isSome

def peerBootSalt (P : Peers) (peer : NodeId) : Option BootSalt :=
  (P.entry peer).current.map (·.bootSalt)

def peerPendingBootSalt (P : Peers) (peer : NodeId) : Option BootSalt :=
  (P.entry peer).pending.map (·.bootSalt)

def allowlistReloadIfStale (P : Peers) (now : ℕ) (file : Option AllowlistFile) : Peers :=
  { P with allowlist := P.allowlist.reloadIfStale now file }

/-- An unknown id gives the file one chance. -/
def authorizedKey (P : Peers) (now : ℕ) (file : Option AllowlistFile) (id : NodeId) :
    Peers × Option PublicKey :=
  match P.allowlist.lookup id with
  | some key => (P, some key)
  | none =>
    let P := P.allowlistReloadIfStale now file
    (P, P.allowlist.lookup id)

/-- The parked session takes over. -/
def promotePending (P : Peers) (peer : NodeId) : Peers × Bool :=
  let e := P.entry peer
  match e.pending with
  | some s => (P.setEntry peer { e with current := some s, pending := none, promoted := true }, true)
  | none => (P, false)

/-! ## The driver -/

/-- A new attempt. -/
def startInitiator (P : Peers) (now : ℕ) (file : Option AllowlistFile) (peer : NodeId) :
    Peers × List HandshakeAction :=
  let e := P.entry peer
  -- the attempt is stamped before anything that can fail
  let P := P.setEntry peer
    { e with attempts := min (e.attempts + 1) (2 ^ 32 - 1), lastAttemptNs := now }
  match P.authorizedKey now file peer with
  | (P, none) => (P, [.failed peer "peer is not in the allowlist"])
  | (P, some key) =>
    let msg1 : InitMessage :=
      ⟨P.identity, key, ⟨P.bootSalt, P.drawn⟩, encodePayload P.selfId P.bootSalt⟩
    let P := { P with drawn := P.drawn + 1 }
    (P.setEntry peer { P.entry peer with hs := some msg1 },
      [.send peer dgramKindHsInit (.init msg1)])

/-- The caller wants a session. -/
def initiate (P : Peers) (now : ℕ) (file : Option AllowlistFile) (peer : NodeId) :
    Peers × List HandshakeAction :=
  if peer = P.selfId then (P, [.failed peer "cannot handshake with ourselves"])
  else
    let P := P.setEntry peer { P.entry peer with desired := true }
    if (P.entry peer).current.isSome ∨ (P.entry peer).hs.isSome then (P, [])
    else P.startInitiator now file peer

/-- A peer's first message. -/
def onInit (P : Peers) (now : ℕ) (file : Option AllowlistFile) (sender : NodeId)
    (body : HandshakeBody) : Peers × List HandshakeAction :=
  match P.authorizedKey now file sender with
  | (P, none) => (P, [.failed sender "peer is not in the allowlist"])
  | (P, some expected) =>
    let e := P.entry sender
    -- simultaneous open: the lower id keeps its own attempt
    if e.hs.isSome ∧ P.selfId < sender then (P, [])
    else
      match readInit P.identity body with
      | none => (P, [.failed sender "handshake message 1 rejected"])
      | some m =>
        match decodePayload m.payload with
        | none => (P, [.failed sender "malformed handshake payload"])
        | some (claimed, salt) =>
          if claimed ≠ sender then
            (P, [.failed sender "handshake payload claims a different node id"])
          else if m.static ≠ expected then
            (P, [.failed sender "static key does not match the allowlist"])
          else
            let msg2 : RespMessage :=
              ⟨m, ⟨P.bootSalt, P.drawn⟩, encodePayload P.selfId P.bootSalt⟩
            let P := { P with drawn := P.drawn + 1 }
            let s := Session.fromFinishedHandshake msg2 false salt now
            (P.setEntry sender (e.answered s),
              [.send sender dgramKindHsResp (.resp msg2), .established sender salt e.current.isNone])

/-- The answer to our own. -/
def onResp (P : Peers) (now : ℕ) (file : Option AllowlistFile) (sender : NodeId)
    (body : HandshakeBody) : Peers × List HandshakeAction :=
  let e := P.entry sender
  match e.hs with
  | none => (P, [])
  | some msg1 =>
    match readResp msg1 body with
    | none => (P, [.failed sender "handshake message 2 rejected"])
    | some m =>
      -- the sender is authenticated: a failure from here on drops the attempt
      let P := P.setEntry sender { e with hs := none }
      match decodePayload m.payload with
      | none => (P, [.failed sender "malformed handshake payload"])
      | some (claimed, salt) =>
        if claimed ≠ sender then
          (P, [.failed sender "handshake payload claims a different node id"])
        else
          match P.authorizedKey now file sender with
          | (P, key) =>
            if key ≠ some msg1.remote then
              (P, [.failed sender "static key does not match the allowlist"])
            else
              let s := Session.fromFinishedHandshake m true salt now
              (P.setEntry sender { P.entry sender with current := some s, pending := none },
                [.established sender salt true])

/-- Either of the two. -/
def onMessage (P : Peers) (now : ℕ) (file : Option AllowlistFile) (sender : NodeId) (kind : ℕ)
    (body : HandshakeBody) : Peers × List HandshakeAction :=
  if sender = P.selfId then (P, [.failed sender "datagram claims our own node id"])
  else if kind = dgramKindHsInit then P.onInit now file sender body
  else if kind = dgramKindHsResp then P.onResp now file sender body
  else (P, [])

/-- One entry in the loop of `tick`: the entry, its actions, and whether the
    handshake is to be restarted. -/
def tickEntry (now : ℕ) (peer : NodeId) (e : PeerEntry) :
    PeerEntry × List HandshakeAction × Bool :=
  let e := if e.pending.any fun s => pendingTtlNs ≤ now - s.installedNs then
      { e with pending := none }
    else e
  let announced : List HandshakeAction := match e.promoted, e.current with
    | true, some s => [.established peer s.bootSalt true]
    | _, _ => []
  let e := { e with promoted := false }
  if now - e.lastAttemptNs < retryDelayNs e.attempts then (e, announced, false)
  else
    match e.hs with
    | some msg1 =>
      ({ e with attempts := min (e.attempts + 1) (2 ^ 32 - 1), lastAttemptNs := now },
        announced ++ [.send peer dgramKindHsInit (.init msg1)], false)
    | none => (e, announced, e.desired && e.current.isNone)

/-- Retries that are due. -/
def tick (P : Peers) (now : ℕ) (file : Option AllowlistFile) : Peers × List HandshakeAction :=
  let P := P.allowlistReloadIfStale now file
  let visit := fun peer => tickEntry now peer (P.entry peer)
  -- a peer that is not in the map has the default entry, which stays as it is
  let visited := { P with entry := fun peer => (visit peer).1 }
  (P.known.filter fun peer => (visit peer).2.2).foldl
    (fun r peer =>
      let (P, more) := r.1.startInitiator now file peer
      (P, r.2 ++ more))
    (visited, P.known.flatMap fun peer => (visit peer).2.1)

/-! ## Datagrams under a session -/

/-- Seal under the current session. -/
def sealPairwise (P : Peers) (peer : NodeId) (buf : Bytes) (counter : ℕ) :
    Buffer × Except CryptoError Unit :=
  match (P.entry peer).current with
  | none => (.clear buf, .error (.noSession peer))
  | some s => sealWith buf s.sealKey counter

/-- `current` first, then `pending`; a datagram that opens under `pending` is
    the proof that the peer uses it. -/
def openPairwise (P : Peers) (peer : NodeId) (d : Datagram) :
    Peers × Except CryptoError ℕ :=
  let e := P.entry peer
  let tryPending (lastErr : CryptoError) : Peers × Except CryptoError ℕ :=
    match e.pending with
    | none => (P, .error lastErr)
    | some s =>
      match openWith d s.openKey with
      | .error err => (P, .error err)
      | .ok (counter, _) =>
        match s.replayCheck counter with
        | (s, .ok counter) =>
          (P.setEntry peer { e with current := some s, pending := none, promoted := true },
            .ok counter)
        | (s, .error err) => (P.setEntry peer { e with pending := some s }, .error err)
  match e.current with
  | none => tryPending (.noSession peer)
  | some s =>
    match openWith d s.openKey with
    | .error err => tryPending err
    | .ok (counter, _) =>
      let (s, r) := s.replayCheck counter
      (P.setEntry peer { e with current := some s }, r)

end Peers

end UltimaCluster
