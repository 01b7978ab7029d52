/-
  `Timed<S>`: exactly-once timer delivery (`uc_service/src/timed.rs`).

  The node fires a timer at least once. The wrapper keeps the set that the inner
  machine asked for and delivers a `TIMER` frame only if its instance is still in
  it; a tick of the replicated table is delivered if it is above the last one of its
  id.
-/
import UltimaCluster.Sessioned

namespace UltimaCluster

open Std

/-- The wrapper around a machine. -/
structure Timed (σ : Type) where
  inner : σ
  pending : ExtTreeMap UInt64 UInt64
  tableLast : ExtTreeMap UInt64 UInt64
  maxPosSeen : Option UInt64

namespace Timed

variable {σ : Type}

def new (inner : σ) : Timed σ := ⟨inner, ∅, ∅, none⟩

def absorbOne (pending : ExtTreeMap UInt64 UInt64) : TimerReq → ExtTreeMap UInt64 UInt64
  | .schedule id atNs => pending.insert id atNs
  | .cancel id => pending.erase id

/-- The requests of one call. -/
def absorb (pending : ExtTreeMap UInt64 UInt64) (reqs : List TimerReq) : ExtTreeMap UInt64 UInt64 :=
  reqs.foldl absorbOne pending

/-- Apply, and take its requests. -/
def apply (S : RawStateMachine σ) (t : Timed σ) (ctx : ApplyCtx) (cmd : Bytes) :
    Timed σ × Sched × Bytes :=
  let r := S.apply t.inner ctx cmd
  ({ t with
      inner := r.1
      pending := absorb t.pending r.2.1.timers
      maxPosSeen := maxPos (some ctx.position) t.maxPosSeen }, r.2)

/-- Whether the instance is delivered. -/
def deliver (t : Timed σ) (ev : TimerEvent) : Bool :=
  if ev.table then t.tableLast[ev.id]?.all (· < ev.deadlineNs)
  else t.pending[ev.id]? = some ev.deadlineNs

/-- The instance is taken before the inner machine sees it, so that its handler can
    ask for it anew. -/
def take (t : Timed σ) (ev : TimerEvent) : Timed σ :=
  if ev.table then { t with tableLast := t.tableLast.insert ev.id ev.deadlineNs }
  else { t with pending := t.pending.erase ev.id }

/-- Delivered or dropped, the node may clear the instance. -/
def report (ev : TimerEvent) (r : Sched) : Sched :=
  if ev.table then { r with consumedTable := r.consumedTable ++ [(ev.id, ev.deadlineNs)] }
  else { r with consumed := r.consumed ++ [(ev.id, ev.deadlineNs)] }

/-- Deliver what is due. -/
def onTimer (S : RawStateMachine σ) (t : Timed σ) (ctx : ApplyCtx) (ev : TimerEvent) :
    Timed σ × Sched :=
  let t := { t with maxPosSeen := maxPos (some ctx.position) t.maxPosSeen }
  if t.deliver ev then
    let r := S.onTimer t.inner ctx ev
    ({ t.take ev with
        inner := r.1
        pending := absorb (t.take ev).pending r.2.timers }, report ev r.2)
  else (t, report ev {})

/-- The later of the two cursors. -/
def lastApplied (S : RawStateMachine σ) (t : Timed σ) : Option UInt64 :=
  maxPos (S.lastApplied t.inner) t.maxPosSeen

/-! ## The image -/

/-- The fields of the image that `freeze` encodes. -/
structure TimedImage where
  pending : ExtTreeMap UInt64 UInt64
  tableLast : ExtTreeMap UInt64 UInt64

/-- The image of the timers as they stand. -/
def image (t : Timed σ) : TimedImage := ⟨t.pending, t.tableLast⟩

/-- `MAX_IMAGE_LEN`. -/
def maxImageLen : ℕ := 2 ^ 26

variable (codec : ImageCodec TimedImage)

/-- `freeze`, and what `stream_snapshot` writes of its handle. -/
def freeze (S : SnapshotStateMachine σ) (t : Timed σ) : Except SmSnapshotError (Bytes × UInt64) := do
  let (img, pos) ← S.freeze t.inner
  let blob ← (codec.encodeToVec t.image).mapError fun e => .codec ("timed image encode: " ++ e)
  return (Bytes.le 8 blob.length ++ blob ++ img, pos)

/-- The timers, then the machine. -/
def installSnapshot (S : SnapshotStateMachine σ) (t : Timed σ) (position : UInt64)
    (src : Bytes) : Except SmSnapshotError (Timed σ × UInt64) := do
  let (len, src) ← match Bytes.readNum 8 src with
    | none => .error (.io "failed to fill whole buffer")
    | some r => .ok r
  if maxImageLen < len then
    throw (.codec ("timed image blob length " ++ toString len ++ " exceeds the " ++
      toString maxImageLen ++ "-byte sanity bound"))
  let blob := src.take len
  if blob.length ≠ len then
    throw (.codec ("timed image blob truncated: header claims " ++ toString len ++
      " bytes, stream supplied " ++ toString blob.length))
  let img ← (codec.decodeFromSlice blob).mapError fun e => .codec ("timed image decode: " ++ e)
  let (inner, got) ← S.installSnapshot t.inner position (src.drop len)
  return (⟨inner, img.pending, img.tableLast, S.lastApplied inner⟩, got)

def raw (S : RawStateMachine σ) : RawStateMachine (Timed σ) where
  apply := apply S
  onTimer := onTimer S
  lastApplied := lastApplied S
  pendingTimers t := t.pending.toList
  tableDelivered t := t.tableLast.toList

def machine (S : SnapshotStateMachine σ) : SnapshotStateMachine (Timed σ) where
  toRawStateMachine := raw S.toRawStateMachine
  freeze := freeze codec S
  installSnapshot := installSnapshot codec S

/-! ## One frame -/

section Step

variable {S : RawStateMachine σ} {t : Timed σ} {f : AppFrame}

theorem step_message (hf : f.isMessage = true) :
    (raw S).step t f =
      ({ t with
          inner := (S.step t.inner f).1
          pending := absorb t.pending (S.step t.inner f).2.1.timers
          maxPosSeen := maxPos (some f.ctx.position) t.maxPosSeen }, (S.step t.inner f).2) := by
  cases hb : f.body with
  | message cmd => simp [RawStateMachine.step, hb, raw, apply]
  | timer ev => simp [AppFrame.isMessage, hb] at hf

theorem step_delivered {ev : TimerEvent} (hb : f.body = .timer ev) (hd : t.deliver ev = true) :
    (raw S).step t f =
      ({ t.take ev with
          inner := (S.step t.inner f).1
          pending := absorb (t.take ev).pending (S.step t.inner f).2.1.timers
          maxPosSeen := maxPos (some f.ctx.position) t.maxPosSeen },
        report ev (S.step t.inner f).2.1, []) := by
  have hd' : deliver { t with maxPosSeen := maxPos (some f.ctx.position) t.maxPosSeen } ev = true := hd
  simp only [RawStateMachine.step, hb, raw, onTimer, hd', if_true]
  unfold take
  split <;> rfl

theorem step_dropped {ev : TimerEvent} (hb : f.body = .timer ev) (hd : t.deliver ev = false) :
    (raw S).step t f =
      ({ t with maxPosSeen := maxPos (some f.ctx.position) t.maxPosSeen }, report ev {}, []) := by
  have hd' : deliver { t with maxPosSeen := maxPos (some f.ctx.position) t.maxPosSeen } ev = false := hd
  simp only [RawStateMachine.step, hb, raw, onTimer, hd']
  rfl

end Step

end Timed

end UltimaCluster
