/-
  Any number of processes with their transports, and the log of what they sent,
  sealed and opened.

  A restart is a new process with a new salt; a process that has ended is one
  that takes no more steps.  The network is not there: a call may take any body
  and any datagram.
-/
import UltimaCluster.SessionKeys

namespace UltimaCluster

/-- A call on the transport. -/
inductive TransportCall where
  | initiate (now : ℕ) (file : Option AllowlistFile) (peer : NodeId)
  | onHandshakeMessage (now : ℕ) (file : Option AllowlistFile) (sender : NodeId) (kind : ℕ)
      (body : HandshakeBody)
  | tick (now : ℕ) (file : Option AllowlistFile)
  | reload (now : ℕ) (file : Option AllowlistFile)
  | mint (peers : List NodeId) (now : ℕ) (key : GroupKey)
  | onGroupKeyMessage (sender : NodeId) (body : Bytes)
  /-- `SendHalf::seal`, or `seal_control`. -/
  | sealDatagram (control : Bool) (kind : ℕ) (peer : Option NodeId) (buf : Bytes) (now : ℕ)
  | finishSeal (job : SealJob)
  /-- `open`, or `open_slice`. -/
  | openDatagram (slice : Bool) (sender : NodeId) (d : Datagram)

/-- The handshake message of a call. -/
def TransportCall.input : TransportCall → Option (NodeId × HandshakeBody)
  | .onHandshakeMessage _ _ sender _ body => some (sender, body)
  | _ => none

/-- What a call leaves on record. -/
inductive TransportEvent where
  | acted (a : HandshakeAction)
  | sealed (d : Datagram)
  | opened (d : Datagram)
deriving DecidableEq

/-- The longest datagram of UDP. -/
def maxDatagram : ℕ := 65_535

namespace SharedTransport

def sealEvents : Buffer × Except CryptoError Unit → List TransportEvent
  | (.sealed d, .ok ()) => [.sealed d]
  | _ => []

/-- The staged datagram of a call that ends a seal, and its result. -/
def sealResult (t : SharedTransport) : TransportCall → Option (Bytes × Buffer × Except CryptoError Unit)
  | .sealDatagram control kind peer buf now => (t.beginSeal control kind peer buf now).2.map (buf, ·)
  | .finishSeal job => some (job.buf, (t.finishSeal job).2)
  | _ => none

/-- One call, and what it leaves. -/
def exec (t : SharedTransport) : TransportCall → SharedTransport × List TransportEvent
  | .initiate now file peer =>
    let (peers, acts) := t.peers.initiate now file peer
    ({ t with peers }, acts.map .acted)
  | .onHandshakeMessage now file sender kind body =>
    let (peers, acts) := t.peers.onMessage now file sender kind body
    ({ t with peers }, acts.map .acted)
  | .tick now file =>
    let (peers, acts) := t.peers.tick now file
    ({ t with peers }, acts.map .acted)
  | .reload now file => ({ t with peers := t.peers.allowlistReloadIfStale now file }, [])
  | .mint peers now key =>
    let (t, acts) := t.mintGroupKey peers now key
    (t, acts.map .acted)
  | .onGroupKeyMessage sender body =>
    let (group, acts) := t.group.onKeyMessage sender body
    ({ t with group }, acts.map .acted)
  | .sealDatagram control kind peer buf now =>
    let (t, r) := t.beginSeal control kind peer buf now
    (t, r.elim [] sealEvents)
  | .finishSeal job =>
    let (t, r) := t.finishSeal job
    (t, sealEvents r)
  | .openDatagram _ sender d =>
    match t.openDatagram sender d with
    | (t, .ok ()) => (t, [.opened d])
    | (t, .error _) => (t, [])

/-- A seal stages a datagram, and is not the last of 2^64. -/
def Possible (t : SharedTransport) : TransportCall → Prop
  | .sealDatagram _ _ _ buf _ => buf.length ≤ maxDatagram ∧ t.counter + 1 < 2 ^ 64
  | .finishSeal job => job ∈ t.jobs
  | _ => True

instance (t : SharedTransport) : (c : TransportCall) → Decidable (t.Possible c)
  | .sealDatagram _ _ _ _ _ => inferInstanceAs (Decidable (_ ∧ _))
  | .finishSeal job => inferInstanceAs (Decidable (job ∈ t.jobs))
  | .initiate .. | .onHandshakeMessage .. | .tick .. | .reload .. | .mint .. | .onGroupKeyMessage ..
  | .openDatagram .. => .isTrue trivial

end SharedTransport

/-- Every process that ever ran. -/
structure CryptoWorld where
  processes : List SharedTransport
  log : List (ℕ × TransportEvent)

/-- A boot, or a call of one process. -/
inductive CryptoStep where
  | boot (identity : PublicKey) (allowlist : Allowlist) (selfId : NodeId) (hid : selfId < 2 ^ 32)
      (salt : BootSalt)
  | call (i : ℕ) (c : TransportCall)

namespace CryptoWorld

def start : CryptoWorld := ⟨[], []⟩

/-- A salt is drawn once. -/
def Possible (w : CryptoWorld) : CryptoStep → Prop
  | .boot _ _ _ _ salt => ∀ t ∈ w.processes, t.peers.bootSalt ≠ salt
  | .call i c => ∃ t, w.processes[i]? = some t ∧ t.Possible c

instance (w : CryptoWorld) : (step : CryptoStep) → Decidable (w.Possible step)
  | .boot _ _ _ _ salt =>
    inferInstanceAs (Decidable (∀ t ∈ w.processes, t.peers.bootSalt ≠ salt))
  | .call i c =>
    match h : w.processes[i]? with
    | none => .isFalse fun ⟨_, ht, _⟩ => nomatch h.symm.trans ht
    | some t =>
      decidable_of_iff (t.Possible c)
        ⟨fun hp => ⟨t, h, hp⟩, fun ⟨_, ht, hp⟩ => Option.some.inj (h.symm.trans ht) ▸ hp⟩

def exec (w : CryptoWorld) : CryptoStep → CryptoWorld
  | .boot identity allowlist selfId hid salt =>
    { w with processes := w.processes ++ [.new (.new identity allowlist selfId hid salt)] }
  | .call i c =>
    match w.processes[i]? with
    | none => w
    | some t =>
      let (t, events) := t.exec c
      ⟨w.processes.set i t, w.log ++ events.map fun e => (i, e)⟩

def run (w : CryptoWorld) (steps : List CryptoStep) : CryptoWorld := steps.foldl exec w

def Runs (w : CryptoWorld) (steps : List CryptoStep) : Prop :=
  Trace.Admits exec Possible w steps

instance (w : CryptoWorld) (steps : List CryptoStep) : Decidable (Runs w steps) :=
  inferInstanceAs (Decidable (Trace.Admits exec Possible w steps))

end CryptoWorld

end UltimaCluster
