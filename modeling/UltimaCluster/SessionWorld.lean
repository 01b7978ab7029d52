/-
  Honest nodes over a network that delivers nothing but what some boot of some
  node sent: it may drop, repeat, reorder and replay.

  A node runs its last boot.  Two running processes share a session when it is
  current at both.
-/
import UltimaCluster.Nonces
import UltimaCluster.SessionLinks

namespace UltimaCluster

namespace TransportEvent

def sentBody : TransportEvent → Option HandshakeBody
  | .acted (.send _ _ body) => some body
  | _ => none

def openedPlaintext : TransportEvent → Option Bytes
  | .opened d => d.box.map (·.plaintext)
  | _ => none

end TransportEvent

/-- The two ends of one handshake. -/
structure Session.Mirrors (s s' : Session) : Prop where
  sealKey : s.sealKey = s'.openKey
  openKey : s.openKey = s'.sealKey

namespace SharedTransport

variable {t t' : SharedTransport}

/-- The session with the other process is current at both. -/
def Shares (t u : SharedTransport) : Prop :=
  ∃ s s', (t.peers.link u.peers.selfId).current = some s ∧
    (u.peers.link t.peers.selfId).current = some s' ∧ s.Mirrors s'

/-- A datagram of group scope that does not open under the salt of the current
    session opens under the salt of the pending one. -/
def GroupPromotes (t : SharedTransport) (sender : NodeId) (d : Datagram) : Prop :=
  scopeOf (Bytes.at_ d.header 12) = .group ∧ ∃ groupKey s r,
    t.group.schedule.get (Bytes.num d.header 14 16) = some groupKey ∧
    (t.peers.link sender).pending = some s ∧
    openWith d (deriveSendKey groupKey sender s.bootSalt) = .ok r ∧
    ∀ c r', (t.peers.link sender).current = some c →
      openWith d (deriveSendKey groupKey sender c.bootSalt) ≠ .ok r'

end SharedTransport

namespace CryptoWorld

/-- The last boot of its node. -/
def Running (w : CryptoWorld) (i : ℕ) : Prop :=
  ∃ t, w.processes[i]? = some t ∧ ∀ u ∈ w.processes.drop (i + 1), u.peers.selfId ≠ t.peers.selfId

instance (w : CryptoWorld) (i : ℕ) : Decidable (w.Running i) :=
  match h : w.processes[i]? with
  | none => .isFalse fun ⟨_, ht, _⟩ => nomatch h.symm.trans ht
  | some t =>
    decidable_of_iff (∀ u ∈ w.processes.drop (i + 1), u.peers.selfId ≠ t.peers.selfId)
      ⟨fun hp => ⟨t, h, hp⟩, fun ⟨_, ht, hp⟩ => Option.some.inj (h.symm.trans ht) ▸ hp⟩

/-- Nothing is forged; a group key is taken from a datagram that was opened. -/
def Delivered (w : CryptoWorld) (i : ℕ) : TransportCall → Prop
  | .onHandshakeMessage _ _ _ _ body => ∃ e ∈ w.log, e.2.sentBody = some body
  | .onGroupKeyMessage _ body => ∃ e ∈ w.log, e.1 = i ∧ e.2.openedPlaintext = some body
  | .openDatagram _ _ d => ∃ e ∈ w.log, e.2 = .sealed d
  | _ => True

instance (w : CryptoWorld) (i : ℕ) : (c : TransportCall) → Decidable (w.Delivered i c)
  | .onHandshakeMessage _ _ _ _ body =>
    inferInstanceAs (Decidable (∃ e ∈ w.log, e.2.sentBody = some body))
  | .onGroupKeyMessage _ body =>
    inferInstanceAs (Decidable (∃ e ∈ w.log, e.1 = i ∧ e.2.openedPlaintext = some body))
  | .openDatagram _ _ d => inferInstanceAs (Decidable (∃ e ∈ w.log, e.2 = .sealed d))
  | .initiate .. | .tick .. | .reload .. | .mint .. | .sealDatagram .. | .finishSeal .. =>
    .isTrue trivial

/-- A step of honest nodes over that network. -/
def Honest (w : CryptoWorld) : CryptoStep → Prop
  | .boot identity allowlist selfId hid salt => w.Possible (.boot identity allowlist selfId hid salt)
  | .call i c => w.Possible (.call i c) ∧ w.Running i ∧ w.Delivered i c

instance (w : CryptoWorld) : (step : CryptoStep) → Decidable (w.Honest step)
  | .boot identity allowlist selfId hid salt =>
    inferInstanceAs (Decidable (w.Possible (.boot identity allowlist selfId hid salt)))
  | .call i c => inferInstanceAs (Decidable (w.Possible (.call i c) ∧ w.Running i ∧ w.Delivered i c))

/-- While two running processes share a session, neither comes to seal under one
    that the other does not hold. -/
def Survives (w : CryptoWorld) (step : CryptoStep) : Prop :=
  ∀ i j t u, w.processes[i]? = some t → w.processes[j]? = some u → w.Running i → w.Running j →
    t.peers.selfId ≠ u.peers.selfId → t.Shares u →
    ∀ t' u', (w.exec step).processes[i]? = some t' → (w.exec step).processes[j]? = some u' →
      ∀ s, (t'.peers.link u.peers.selfId).current = some s →
        ∃ s', (u'.peers.link t.peers.selfId).Holds s' ∧ s.Mirrors s'

/-- No datagram of group scope promotes where a session is shared. -/
def Settled (w : CryptoWorld) : CryptoStep → Prop
  | .call i (.openDatagram _ sender d) =>
    ∀ t j u, w.processes[i]? = some t → w.processes[j]? = some u → w.Running j →
      u.peers.selfId = sender → t.Shares u → ¬ t.GroupPromotes sender d
  | _ => True

end CryptoWorld

end UltimaCluster
