/-
  `Sessioned<S>`: exactly-once over a remote hop (`uc_service/src/session.rs`).

  Each command carries an envelope `client_id ++ seq`; a retry inside the window of
  its client is answered from the table. The fields of the wrapper that hold the
  table are a structure of their own (`SessionTable`), so that what is done to them
  is seen not to depend on the inner machine.
-/
import UltimaCluster.Lib.MapSum
import UltimaCluster.Machine
import Mathlib.Data.List.MinMax
import Mathlib.Data.Prod.Lex

namespace UltimaCluster

open Std

/-- Sizes are `usize` of a 64-bit target. -/
structure SessionConfig where
  window : UInt64
  maxClients : UInt64
  maxBytes : UInt64
  deriving DecidableEq

/-- What is kept of one client. -/
structure ClientState where
  highestSeq : Option UInt64 := none
  lastSeenPos : UInt64 := 0
  /-- The responses, oldest first. -/
  window : List (UInt64 × Bytes) := []
  deriving DecidableEq

namespace ClientState

def windowBytes (st : ClientState) : ℕ := (st.window.map fun e => e.2.length).sum

end ClientState

def tagFresh : UInt8 := 0
def tagReplayed : UInt8 := 1
def tagExpired : UInt8 := 2

/-- The answer to a sequence number at or below the highest one seen. -/
def ClientState.retry (st : ClientState) (seq : UInt64) : Option Bytes :=
  match st.highestSeq with
  | none => none
  | some highest =>
    if seq ≤ highest then
      match st.window.find? (·.1 = seq) with
      | some e => some (tagReplayed :: e.2)
      | none => some [tagExpired]
    else none

/-- The dedup table. -/
structure SessionTable where
  cfg : SessionConfig
  clients : ExtTreeMap UInt64 ClientState
  totalBytes : ℕ

namespace SessionTable

variable (t : SessionTable)

def new (cfg : SessionConfig) : SessionTable := ⟨cfg, ∅, 0⟩

/-- The client seen longest ago, the smallest id among equals. -/
def oldestClientExcluding (excl : Option UInt64) : Option UInt64 :=
  ((t.clients.toList.filter fun e => some e.1 ≠ excl).argmin
    fun e => toLex (e.2.lastSeenPos.toNat, e.1.toNat)).map Prod.fst

/-- Drop a client and its bytes. -/
def removeClient (id : UInt64) : SessionTable :=
  match t.clients[id]? with
  | some st => { t with clients := t.clients.erase id, totalBytes := t.totalBytes - st.windowBytes }
  | none => t

/-- The loop; a round removes a client, so as many rounds as clients are enough. -/
def evictClients : ℕ → SessionTable → SessionTable
  | 0, t => t
  | n + 1, t =>
    if t.cfg.maxClients.toNat < t.clients.size then
      match t.oldestClientExcluding none with
      | some id => evictClients n (t.removeClient id)
      | none => t
    else t

/-- Drop the stalest clients. -/
def evictClientsOverCapacity : SessionTable := evictClients t.clients.size t

/-- Drops the oldest response of a client. -/
def popFront (id : UInt64) (st : ClientState) (e : UInt64 × Bytes) (rest : List (UInt64 × Bytes)) :
    SessionTable :=
  { t with
    clients := t.clients.insert id { st with window := rest }
    totalBytes := t.totalBytes - e.2.length }

/-- The loop; a round removes a client, or a response of the one just written. -/
def evictBytes (justWritten : UInt64) : ℕ → SessionTable → SessionTable
  | 0, t => t
  | n + 1, t =>
    if t.cfg.maxBytes.toNat < t.totalBytes then
      match t.oldestClientExcluding (some justWritten) with
      | some id => evictBytes justWritten n (t.removeClient id)
      | none =>
        match t.clients[justWritten]? with
        | none => t
        | some st =>
          match st.window with
          | e :: rest => evictBytes justWritten n (t.popFront justWritten st e rest)
          | [] => t
    else t

/-- The responses held by the client just written. -/
def held (id : UInt64) : ℕ := (t.clients[id]?.map fun st => st.window.length).getD 0

/-- Drop until the bytes fit. -/
def evictBytesOverBudget (justWritten : UInt64) : SessionTable :=
  evictBytes justWritten (t.clients.size + t.held justWritten) t

/-- The entry of a client, with the position at which it is seen now. -/
def see (client position : UInt64) : ClientState :=
  { t.clients[client]?.getD {} with lastSeenPos := position }

/-- Takes the front off until at most `n` responses are left: the rest, and the bytes
    that left. -/
def trim (n : ℕ) : List (UInt64 × Bytes) → List (UInt64 × Bytes) × ℕ
  | [] => ([], 0)
  | e :: rest =>
    if n < (e :: rest).length then ((trim n rest).1, e.2.length + (trim n rest).2)
    else (e :: rest, 0)

/-- A fresh response, before anything is evicted for it. -/
def write (client seq : UInt64) (st : ClientState) (resp : Bytes) : SessionTable :=
  let cut := trim t.cfg.window.toNat (st.window ++ [(seq, resp)])
  { t with
    clients := t.clients.insert client { st with highestSeq := some seq, window := cut.1 }
    totalBytes := t.totalBytes + resp.length - cut.2 }

/-- Keep a response. -/
def record (client seq : UInt64) (st : ClientState) (resp : Bytes) : SessionTable :=
  ((t.write client seq st resp).evictClientsOverCapacity).evictBytesOverBudget client

end SessionTable

/-- The wrapper around a machine. -/
structure Sessioned (σ : Type) where
  inner : σ
  table : SessionTable
  maxPosSeen : Option UInt64

/-- The envelope of a command. -/
structure Envelope where
  clientId : UInt64
  seq : UInt64
  body : Bytes
  deriving DecidableEq

def sessionHeaderLen : ℕ := 16

/-- The header of a command. -/
def Envelope.read (cmd : Bytes) : Option Envelope :=
  if cmd.length < sessionHeaderLen then none
  else some ⟨.ofNat (cmd.num 0 8), .ofNat (cmd.num 8 16), cmd.drop sessionHeaderLen⟩

/-- `Option<u64>` orders `None` first. -/
def maxPos : Option UInt64 → Option UInt64 → Option UInt64
  | none, b => b
  | a, none => a
  | some a, some b => some (if a ≤ b then b else a)

theorem mem_maxPos {p : UInt64} {a b : Option UInt64} (h : p ∈ maxPos a b) : p ∈ a ∨ p ∈ b := by
  unfold maxPos at h
  split at h
  · exact .inr h
  · exact .inl h
  · split_ifs at h
    · exact .inr h
    · exact .inl h

theorem le_maxPos {p : UInt64} {a b : Option UInt64} (h : p ∈ a ∨ p ∈ b) :
    ∃ q ∈ maxPos a b, p ≤ q := by
  unfold maxPos
  split
  · rcases h with h | h
    · cases h
    · exact ⟨p, h, by grind⟩
  · rcases h with h | h
    · exact ⟨p, h, by grind⟩
    · cases h
  · refine ⟨_, rfl, ?_⟩
    simp only [Option.mem_def, Option.some.injEq] at h
    rcases h with rfl | rfl <;> grind

theorem maxPos_self (a : Option UInt64) : maxPos a a = a := by
  cases a <;> simp [maxPos]

namespace Sessioned

variable {σ : Type}

def new (inner : σ) (cfg : SessionConfig) : Sessioned σ := ⟨inner, .new cfg, none⟩

/-- Apply once, or answer again. -/
def apply (S : RawStateMachine σ) (s : Sessioned σ) (ctx : ApplyCtx) (cmd : Bytes) :
    Sessioned σ × Sched × Bytes :=
  match Envelope.read cmd with
  | none => ({ s with maxPosSeen := some ctx.position }, {}, [tagExpired])
  | some e =>
    let st := s.table.see e.clientId ctx.position
    match st.retry e.seq with
    | some out =>
      -- the inner machine did not apply anything for this frame
      ({ s with
          table := { s.table with clients := s.table.clients.insert e.clientId st }
          maxPosSeen := some ctx.position }, {}, out)
    | none =>
      let r := S.apply s.inner ctx e.body
      ({ inner := r.1
         table := s.table.record e.clientId e.seq st r.2.2
         maxPosSeen := some ctx.position }, r.2.1, tagFresh :: r.2.2)

/-- Timers pass through. -/
def onTimer (S : RawStateMachine σ) (s : Sessioned σ) (ctx : ApplyCtx) (ev : TimerEvent) :
    Sessioned σ × Sched :=
  let r := S.onTimer s.inner ctx ev
  ({ s with inner := r.1, maxPosSeen := maxPos (some ctx.position) s.maxPosSeen }, r.2)

/-- The later of the two cursors. -/
def lastApplied (S : RawStateMachine σ) (s : Sessioned σ) : Option UInt64 :=
  maxPos s.maxPosSeen (S.lastApplied s.inner)

/-! ## The image of the table -/

/-- The fields of the image that `freeze` encodes. -/
structure TableImage where
  cfg : SessionConfig
  clients : ExtTreeMap UInt64 ClientState

/-- The image of the table as it stands. -/
def image (s : Sessioned σ) : TableImage := ⟨s.table.cfg, s.table.clients⟩

/-- `MAX_TABLE_BLOB_LEN`. -/
def maxTableBlobLen : ℕ := 2 ^ 30

variable (codec : ImageCodec TableImage)

/-- `freeze`, and what `stream_snapshot` writes of its handle. -/
def freeze (S : SnapshotStateMachine σ) (s : Sessioned σ) : Except SmSnapshotError (Bytes × UInt64) := do
  let (img, pos) ← S.freeze s.inner
  let blob ← (codec.encodeToVec s.image).mapError fun e => .codec ("session table encode: " ++ e)
  return (Bytes.le 8 blob.length ++ blob ++ img, pos)

def showCfg (cfg : SessionConfig) : String :=
  "\x7bwindow=" ++ toString cfg.window ++ ", max_clients=" ++ toString cfg.maxClients ++
    ", max_bytes=" ++ toString cfg.maxBytes ++ "\x7d"

/-- The table, then the machine. -/
def installSnapshot (S : SnapshotStateMachine σ) (s : Sessioned σ) (position : UInt64)
    (src : Bytes) : Except SmSnapshotError (Sessioned σ × UInt64) := do
  let (len, src) ← match Bytes.readNum 8 src with
    | none => .error (.io "failed to fill whole buffer")
    | some r => .ok r
  if maxTableBlobLen < len then
    throw (.codec ("session table blob length " ++ toString len ++ " exceeds the " ++
      toString maxTableBlobLen ++ "-byte sanity bound"))
  let blob := src.take len
  if blob.length ≠ len then
    throw (.codec ("session table blob truncated: header claims " ++ toString len ++
      " bytes, stream supplied " ++ toString blob.length))
  let img ← (codec.decodeFromSlice blob).mapError fun e => .codec ("session table decode: " ++ e)
  if img.cfg ≠ s.table.cfg then
    throw (.codec ("session config mismatch: snapshot " ++ showCfg img.cfg ++ " vs live " ++
      showCfg s.table.cfg))
  let (inner, got) ← S.installSnapshot s.inner position (src.drop len)
  return ({ inner
            table := { s.table with
              clients := img.clients
              totalBytes := MapSum.total ClientState.windowBytes img.clients }
            maxPosSeen := S.lastApplied inner }, got)

def raw (S : RawStateMachine σ) : RawStateMachine (Sessioned σ) where
  apply := apply S
  onTimer := onTimer S
  lastApplied := lastApplied S
  pendingTimers s := S.pendingTimers s.inner
  tableDelivered s := S.tableDelivered s.inner

def machine (S : SnapshotStateMachine σ) : SnapshotStateMachine (Sessioned σ) where
  toRawStateMachine := raw S.toRawStateMachine
  freeze := freeze codec S
  installSnapshot := installSnapshot codec S

end Sessioned

end UltimaCluster
