/-
  The transport of a process: the group keys, the seals and the opens
  (`uc_crypto/src/transport.rs`, `uc_crypto/src/group.rs`,
  `uc_crypto/src/schedule.rs`).

  `SharedTransport` with its one send half and its one receive half is one state
  here: a second half of either kind panics.  The rotation triggers are left
  out, so a mint may come at any time.
-/
import UltimaCluster.HandshakeSpec

namespace UltimaCluster

/-! ## The group keys -/

/-- The last two keys. -/
structure KeySchedule where
  current : Option (ℕ × GroupKey)
  previous : Option (ℕ × GroupKey)
deriving DecidableEq

namespace KeySchedule

/-- A new key; the last one stays. -/
def install (k : KeySchedule) (epoch : ℕ) (key : GroupKey) : KeySchedule :=
  ⟨some (epoch, key), k.current⟩

def get (k : KeySchedule) (epoch : ℕ) : Option GroupKey :=
  ((k.current.filter (·.1 = epoch)).or (k.previous.filter (·.1 = epoch))).map (·.2)

end KeySchedule

/-- An epoch that waits for acks. -/
structure PendingEpoch where
  epoch : ℕ
  mintedAt : ℕ
  peers : List NodeId
  acked : List NodeId
deriving DecidableEq

/-- The group keys of one process. -/
structure GroupPlane where
  schedule : KeySchedule
  nextEpoch : ℕ
  activeEpoch : Option ℕ
  pending : Option PendingEpoch
deriving DecidableEq

/-- `ACTIVATION_TIMEOUT_NS`. -/
def activationTimeoutNs : ℕ := 2_000_000_000

/-- `KEY_MSG_LEN`. -/
def keyMsgLen : ℕ := 1 + 2 + 32

/-- `ACK_MSG_LEN`. -/
def ackMsgLen : ℕ := 1 + 2

/-- `DGRAM_KIND_HS_KEY`. -/
def dgramKindHsKey : ℕ := 20

def encodeKeyDelivery (epoch : ℕ) (key : GroupKey) : Bytes := 0 :: Bytes.le 2 epoch ++ key

def encodeAck (epoch : ℕ) : Bytes := 1 :: Bytes.le 2 epoch

namespace GroupPlane

def new : GroupPlane := ⟨⟨none, none⟩, 1, none, none⟩

/-- Acked by all, or timed out. -/
def isActivated (p : PendingEpoch) (now : ℕ) : Bool :=
  p.peers.all (· ∈ p.acked) || activationTimeoutNs < now - p.mintedAt

/-- The epoch to seal under. -/
def sealingEpoch (g : GroupPlane) (now : ℕ) : Option ℕ :=
  match g.pending with
  | some p => if isActivated p now then some p.epoch else g.activeEpoch
  | none => g.activeEpoch

/-- The pending epoch takes over. -/
def foldPendingIfActivated (g : GroupPlane) (now : ℕ) : GroupPlane :=
  match g.pending with
  | some p =>
    if isActivated p now then { g with activeEpoch := some p.epoch, pending := none }
    else { g with pending := none }
  | none => g

/-- The key is what the random source gives. -/
def mint (g : GroupPlane) (peers : List NodeId) (now : ℕ) (key : GroupKey) :
    GroupPlane × List HandshakeAction :=
  let clock := (g.pending.filter fun p => ¬ isActivated p now).map (·.mintedAt)
  let g := g.foldPendingIfActivated now
  let epoch := g.nextEpoch
  let next := (epoch + 1) % 2 ^ 16
  ({ g with
      schedule := g.schedule.install epoch key
      nextEpoch := if next = 0 then 1 else next
      pending := some ⟨epoch, clock.getD now, peers, []⟩ },
    peers.map fun p => .send p dgramKindHsKey (.other (encodeKeyDelivery epoch key)))

/-- Only the peers of `gateOn` hold up the activation. -/
def mintGated (g : GroupPlane) (peers gateOn : List NodeId) (now : ℕ) (key : GroupKey) :
    GroupPlane × List HandshakeAction :=
  let (g, acts) := g.mint peers now key
  ({ g with pending := g.pending.map fun p => { p with peers := p.peers.filter (· ∈ gateOn) } }, acts)

/-- A peer has the key. -/
def onAck (g : GroupPlane) (sender : NodeId) (epoch : ℕ) : GroupPlane :=
  match g.pending with
  | some p =>
    if p.epoch = epoch ∧ sender ∈ p.peers then
      { g with pending := some { p with acked := p.acked ++ [sender] } }
    else g
  | none => g

/-- A key, or an ack of one. -/
def onKeyMessage (g : GroupPlane) (sender : NodeId) (body : Bytes) :
    GroupPlane × List HandshakeAction :=
  if body.head? = some 0 ∧ body.length = keyMsgLen then
    let epoch := Bytes.num body 1 3
    ({ g with schedule := g.schedule.install epoch (body.drop 3) },
      [.send sender dgramKindHsKey (.other (encodeAck epoch))])
  else if body.head? = some 1 ∧ body.length = ackMsgLen then (g.onAck sender (Bytes.num body 1 3), [])
  else (g, [.failed sender "malformed group-key message"])

end GroupPlane

/-! ## Scopes -/

/-- How a kind of message is sealed. -/
inductive Scope where
  | group
  | pairwise
  | unsealed
deriving DecidableEq

/-- By the kind, never by the destination: `DATA`, `HEARTBEAT`,
    `COMMIT_POSITION` and `READ_PROBE` fan out; a kind that is not listed is
    pairwise. -/
def scopeOf (kind : ℕ) : Scope :=
  if kind ∈ [1, 2, 6, 10] then .group
  else if kind ∈ [dgramKindHsInit, dgramKindHsResp] then .unsealed
  else .pairwise

/-- `OFF_DGRAM_KEY_EPOCH`. -/
def offDgramKeyEpoch : ℕ := 14

def stampEpoch (buf : Bytes) (epoch : ℕ) : Bytes :=
  buf.take offDgramKeyEpoch ++ Bytes.le 2 epoch ++ buf.drop (offDgramKeyEpoch + 2)

/-! ## A process -/

/-- A pairwise seal between its counter and the lock. -/
structure SealJob where
  peer : NodeId
  buf : Bytes
  counter : ℕ
deriving DecidableEq

/-- The transport of one process. -/
structure SharedTransport where
  peers : Peers
  group : GroupPlane
  counter : ℕ
  /-- The key of the cached cipher of the send half, by its epoch. -/
  sealCache : Option (ℕ × AesKey)
  groupReplay : NodeId × ℕ × BootSalt → ReplayWindow
  jobs : List SealJob

namespace SharedTransport

def new (peers : Peers) : SharedTransport := ⟨peers, .new, 0, none, fun _ => .new, []⟩

/-- The `fetch_add` wraps. -/
def nextCounter (t : SharedTransport) : SharedTransport × ℕ :=
  ({ t with counter := (t.counter + 1) % 2 ^ 64 }, (t.counter + 1) % 2 ^ 64)

/-- A new key for the group. -/
def mintGroupKey (t : SharedTransport) (peers : List NodeId) (now : ℕ) (key : GroupKey) :
    SharedTransport × List HandshakeAction :=
  let (group, acts) := t.group.mintGated peers (peers.filter t.peers.isEstablished) now key
  ({ t with group }, acts)

/-! ### Seals -/

/-- A cached cipher is taken by its epoch alone. -/
def groupSealCipher (t : SharedTransport) (epoch : ℕ) : SharedTransport × Except CryptoError AesKey :=
  match t.sealCache.filter (·.1 = epoch) with
  | some (_, key) => (t, .ok key)
  | none =>
    match t.group.schedule.get epoch with
    | none => (t, .error .noGroupKey)
    | some groupKey =>
      let key := deriveSendKey groupKey t.peers.selfId t.peers.bootSalt
      ({ t with sealCache := some (epoch, key) }, .ok key)

/-- `SendHalf::seal_group`. -/
def sealGroup (t : SharedTransport) (buf : Bytes) (now : ℕ) :
    SharedTransport × Buffer × Except CryptoError Unit :=
  if buf.length < datagramHeaderLen then (t, .clear buf, .error .tooShort)
  else
    match t.group.sealingEpoch now with
    | none => (t, .clear buf, .error .noGroupKey)
    | some epoch =>
      let (t, counter) := t.nextCounter
      match t.groupSealCipher epoch with
      | (t, .error e) => (t, .clear buf, .error e)
      | (t, .ok key) => (t, sealWith (stampEpoch buf epoch) key counter)

/-- Seal for the group. -/
def sealGroupControl (t : SharedTransport) (buf : Bytes) (now : ℕ) :
    SharedTransport × Buffer × Except CryptoError Unit :=
  if buf.length < datagramHeaderLen then (t, .clear buf, .error .tooShort)
  else
    match t.group.sealingEpoch now with
    | none => (t, .clear buf, .error .noGroupKey)
    | some epoch =>
      match t.group.schedule.get epoch with
      | none => (t, .clear buf, .error .noGroupKey)
      | some groupKey =>
        let key := deriveSendKey groupKey t.peers.selfId t.peers.bootSalt
        let (t, counter) := t.nextCounter
        (t, sealWith (stampEpoch buf epoch) key counter)

/-- A seal up to the lock.  The group seals hold the lock throughout; the
    others end here, with an error or as a job. -/
def beginSeal (t : SharedTransport) (control : Bool) (kind : ℕ) (peer : Option NodeId) (buf : Bytes)
    (now : ℕ) : SharedTransport × Option (Buffer × Except CryptoError Unit) :=
  match scopeOf kind with
  | .group =>
    let (t, r) := if control then t.sealGroupControl buf now else t.sealGroup buf now
    (t, some r)
  | .pairwise =>
    match peer with
    | none => (t, some (.clear buf, .error (.missingPeer kind)))
    | some peer =>
      let (t, counter) := t.nextCounter
      ({ t with jobs := t.jobs ++ [⟨peer, buf, counter⟩] }, none)
  | .unsealed => (t, some (.clear buf, .error (.unsealedKind kind)))

/-- The rest of a pairwise seal, under the lock. -/
def finishSeal (t : SharedTransport) (job : SealJob) :
    SharedTransport × Buffer × Except CryptoError Unit :=
  ({ t with jobs := t.jobs.erase job }, t.peers.sealPairwise job.peer job.buf job.counter)

/-! ### Opens -/

/-- The replay check of a sender. -/
def finishGroupOpen (t : SharedTransport) (sender : NodeId) (epoch : ℕ) (salt : BootSalt)
    (counter : ℕ) : SharedTransport × Except CryptoError Unit :=
  let (window, fresh) := (t.groupReplay (sender, epoch, salt)).checkAndSet counter
  ({ t with groupReplay := Function.update t.groupReplay (sender, epoch, salt) window },
    if fresh then .ok () else .error (.replayed counter))

/-- `open_group` and `open_group_detached`: the salt of the current session, then
    that of the pending one, which an open promotes before the window is asked. -/
def openGroup (t : SharedTransport) (sender : NodeId) (epoch : ℕ) (d : Datagram) :
    SharedTransport × Except CryptoError Unit :=
  match t.group.schedule.get epoch with
  | none => (t, .error .noGroupKey)
  | some groupKey =>
    let trial (salt : Option BootSalt) (lastErr : CryptoError) : Except CryptoError (BootSalt × ℕ) :=
      match salt with
      | none => .error lastErr
      | some salt => (openWith d (deriveSendKey groupKey sender salt)).map fun r => (salt, r.1)
    match trial (t.peers.peerBootSalt sender) (.noSession sender) with
    | .ok (salt, counter) => t.finishGroupOpen sender epoch salt counter
    | .error e =>
      match trial (t.peers.peerPendingBootSalt sender) e with
      | .ok (salt, counter) =>
        let t := { t with peers := (t.peers.promotePending sender).1 }
        t.finishGroupOpen sender epoch salt counter
      | .error e => (t, .error e)

/-- `open` and `open_slice`. -/
def openDatagram (t : SharedTransport) (sender : NodeId) (d : Datagram) :
    SharedTransport × Except CryptoError Unit :=
  if d.header.length < datagramHeaderLen then (t, .error .tooShort)
  else
    match scopeOf (Bytes.at_ d.header 12) with
    | .group => t.openGroup sender (Bytes.num d.header 14 16) d
    | .pairwise =>
      let (peers, r) := t.peers.openPairwise sender d
      ({ t with peers }, r.map fun _ => ())
    | .unsealed => (t, .error (.unsealedKind (Bytes.at_ d.header 12)))

end SharedTransport

end UltimaCluster
