/-
  The ideal primitives of the node-to-node transport, and the envelope of a
  sealed datagram (`uc_crypto/src/seal.rs`, `uc_crypto/src/schedule.rs`).

  Noise `IK`, HKDF and AES-256-GCM are not of this repository and are taken as
  ideal.  A handshake message is the term that its writer put in: only the
  holder of the static key `static` writes an `InitMessage`, and only the holder
  of `init.remote` answers it.  A key is the term that it is derived from, so
  distinct inputs give distinct keys.  A box opens under the key, the nonce and
  the associated data that it was made with, and under no others.
-/
import UltimaCluster.Config
import UltimaCluster.Lib.Bytes

namespace UltimaCluster

/-! ## Keys -/

/-- A node's static key. -/
abbrev PublicKey := Bytes

/-- A key of the group plane. -/
abbrev GroupKey := Bytes

/-- 16 random bytes, drawn once in a process. -/
structure BootSalt where
  bytes : Bytes
  length_eq : bytes.length = 16
deriving DecidableEq

/-- A key pair that a process draws for one handshake message.  The process is
    the one that drew this salt. -/
structure Ephemeral where
  process : BootSalt
  index : ℕ
deriving DecidableEq

/-- Message 1 of `IK`. -/
structure InitMessage where
  static : PublicKey
  remote : PublicKey
  ephemeral : Ephemeral
  payload : Bytes
deriving DecidableEq

/-- Message 2 of `IK`: with it the handshake is complete. -/
structure RespMessage where
  init : InitMessage
  ephemeral : Ephemeral
  payload : Bytes
deriving DecidableEq

/-- The bytes of a handshake datagram. -/
inductive HandshakeBody where
  | init (m : InitMessage)
  | resp (m : RespMessage)
  | other (bytes : Bytes)
deriving DecidableEq

/-- A cipher key, by what it came from. -/
inductive AesKey where
  /-- One direction of a session. -/
  | transport (handshake : RespMessage) (toResponder : Bool)
  /-- `derive_send_key`. -/
  | send (group : GroupKey) (sender : NodeId) (salt : BootSalt)
deriving DecidableEq

def deriveSendKey (group : GroupKey) (sender : NodeId) (salt : BootSalt) : AesKey :=
  .send group sender salt

/-! ## The envelope -/

/-- Why nothing is sealed or opened. -/
inductive CryptoError where
  | tooShort
  | authFailed
  | noGroupKey
  | noSession (peer : NodeId)
  | replayed (counter : ℕ)
  | missingPeer (kind : ℕ)
  | unsealedKind (kind : ℕ)
  | notPairwiseKind (kind : ℕ)
deriving DecidableEq

/-- What AES-256-GCM makes of a payload. -/
structure Box where
  key : AesKey
  nonce : ℕ
  associated : Bytes
  plaintext : Bytes
deriving DecidableEq

/-- A datagram as it is received.  Bytes that are no box have none. -/
structure Datagram where
  header : Bytes
  counter : ℕ
  box : Option Box
deriving DecidableEq

/-- What the buffer of the caller holds. -/
inductive Buffer where
  | clear (bytes : Bytes)
  | sealed (d : Datagram)
deriving DecidableEq

/-- `DATAGRAM_HEADER_LEN`. -/
def datagramHeaderLen : ℕ := 16

/-- The longest payload that AES-256-GCM takes. -/
def maxPlaintext : ℕ := 2 ^ 36

/-- Seal under a key and counter. -/
def sealWith (buf : Bytes) (key : AesKey) (counter : ℕ) : Buffer × Except CryptoError Unit :=
  if buf.length < datagramHeaderLen then (.clear buf, .error .tooShort)
  else
    let header := buf.take datagramHeaderLen
    let payload := buf.drop datagramHeaderLen
    if maxPlaintext < payload.length then
      (.clear (header ++ Bytes.le 8 counter ++ payload), .error .authFailed)
    else (.sealed ⟨header, counter, some ⟨key, counter, header, payload⟩⟩, .ok ())

/-- The counter and the plaintext. -/
def openWith (d : Datagram) (key : AesKey) : Except CryptoError (ℕ × Bytes) :=
  if d.header.length < datagramHeaderLen then .error .tooShort
  else
    match d.box with
    | some b =>
      if b.key = key ∧ b.nonce = d.counter ∧ b.associated = d.header then
        .ok (d.counter, b.plaintext)
      else .error .authFailed
    | none => .error .authFailed

theorem openWith_ok {d : Datagram} {key : AesKey} {counter : ℕ} {p : Bytes}
    (h : openWith d key = .ok (counter, p)) :
    counter = d.counter ∧ ∃ b ∈ d.box, b.key = key := by
  unfold openWith at h
  split_ifs at h
  split at h
  · rename_i b hb
    split_ifs at h with hkey
    cases h
    exact ⟨rfl, b, hb, hkey.1⟩
  · cases h

end UltimaCluster
