/-
  The log as a service reads it (`uc_protocol/src/v2/frame.rs`): frames laid end
  to end, and the calls of the state machine that a frame stands for on a row.

  `CommittedLog` is all of the log that a run of the service sees; what of it is
  committed and durable is said by the counters.
-/
import UltimaCluster.LogRing
import UltimaCluster.Machine
import UltimaCluster.Lib.Tiling

namespace UltimaCluster

def frameTypeMessage : UInt8 := 1

def frameTypeCluster : UInt8 := 4

def frameTypeTimer : UInt8 := 5

def frameTypeSnapshot : UInt8 := 7

def flagTimerTable : UInt8 := 1

def flagSnapshotStandby : UInt8 := 1

/-- `TIMER_BODY_LEN`. -/
def timerBodyLen : ℕ := 24

/-- The body of a TIMER frame. -/
structure TimerBody where
  identityHash : ℕ
  timerId : ℕ
  deadlineNs : ℕ
deriving DecidableEq

def readTimerBody (b : Bytes) : Option TimerBody :=
  if b.length < timerBodyLen then none
  else some ⟨Bytes.num b 0 8, Bytes.num b 8 16, Bytes.num b 16 24⟩

namespace LogFrame

/-- What the frame takes up. -/
def span (f : LogFrame) : ℕ := alignFrameLen f.total

theorem span_pos (f : LogFrame) : 0 < f.span := by
  simp only [span, alignFrameLen, total, headerLen, frameAlignment]
  omega

def hasFlag (f : LogFrame) (flag : UInt8) : Bool := f.flags &&& flag != 0

def ctx (f : LogFrame) (pos : ℕ) : ApplyCtx := ⟨.ofNat pos, .ofNat f.timeNs, .ofNat f.termId⟩

end LogFrame

/-- The call that a frame stands for on the row with this identity: every message,
    and the timers that name the row. -/
def appFrame (hash : ℕ) (x : ℕ × LogFrame) : Option AppFrame :=
  if x.2.frameType = frameTypeMessage then some ⟨x.2.ctx x.1, .message x.2.body⟩
  else if x.2.frameType = frameTypeTimer then
    match readTimerBody x.2.body with
    | none => none
    | some b =>
      if b.identityHash = hash then
        some ⟨x.2.ctx x.1, .timer ⟨.ofNat b.timerId, .ofNat b.deadlineNs, x.2.hasFlag flagTimerTable⟩⟩
      else none
  else none

theorem appFrame_position {hash : ℕ} {x : ℕ × LogFrame} {g : AppFrame} (h : appFrame hash x = some g) :
    g.ctx.position = .ofNat x.1 := by
  rw [appFrame] at h
  split_ifs at h
  · rw [← Option.some.inj h]
    rfl
  · split at h
    · exact absurd h (by simp)
    · split_ifs at h
      rw [← Option.some.inj h]
      rfl

/-- The log that all nodes read. -/
structure CommittedLog where
  frames : List LogFrame
  /-- Positions are words of 64 bits. -/
  fits : Tiling.width LogFrame.span frames < 2 ^ 64

namespace CommittedLog

variable (L : CommittedLog) (hash : ℕ)

def placed : List (ℕ × LogFrame) := Tiling.place LogFrame.span 0 L.frames

/-- A frame starts or ends here. -/
def Edge (r : ℕ) : Prop := Tiling.Edge LogFrame.span 0 L.frames r

/-- The calls that the log stands for. -/
def apps : List AppFrame := L.placed.filterMap (appFrame hash)

/-- Those of the frames that start below a position. -/
def appsBelow (r : ℕ) : List AppFrame :=
  (Tiling.below LogFrame.span 0 L.frames r).filterMap (appFrame hash)

/-- The frames for the machine. -/
def appsFrom (r : ℕ) : List AppFrame :=
  (L.placed.filter fun x => r ≤ x.1).filterMap (appFrame hash)

variable {L hash} {r r' : ℕ} {x : ℕ × LogFrame} {g : AppFrame}

theorem end_lt (hx : x ∈ L.placed) : x.1 + x.2.span < 2 ^ 64 := by
  have hle := Tiling.end_le_of_mem_place hx
  rw [Nat.zero_add] at hle
  exact Nat.lt_of_le_of_lt hle L.fits

theorem start_lt (hx : x ∈ L.placed) : x.1 < 2 ^ 64 :=
  Nat.lt_of_le_of_lt (Nat.le_add_right _ _) (end_lt hx)

theorem Edge.lt (h : L.Edge r) : r < 2 ^ 64 := by
  obtain ⟨l₁, l₂, hl, rfl⟩ := h
  have hfits := L.fits
  rw [hl, Tiling.width_append] at hfits
  omega

theorem ofNat_lt_ofNat {a b : ℕ} (ha : a < 2 ^ 64) (hb : b < 2 ^ 64) :
    UInt64.ofNat a < UInt64.ofNat b ↔ a < b := by
  rw [UInt64.lt_iff_toNat_lt, UInt64.toNat_ofNat_of_lt' ha, UInt64.toNat_ofNat_of_lt' hb]

theorem mem_appsBelow : g ∈ L.appsBelow hash r ↔ ∃ x ∈ L.placed, x.1 < r ∧ appFrame hash x = some g := by
  simp [appsBelow, Tiling.below, placed, and_assoc]

theorem mem_appsFrom : g ∈ L.appsFrom hash r ↔ ∃ x ∈ L.placed, r ≤ x.1 ∧ appFrame hash x = some g := by
  simp [appsFrom, placed, and_assoc]

theorem ordered_filterMap {xs : List (ℕ × LogFrame)} (hs : xs.Pairwise fun x y => x.1 < y.1)
    (hb : ∀ x ∈ xs, x.1 < 2 ^ 64) : AppFrame.Ordered (xs.filterMap (appFrame hash)) := by
  refine List.pairwise_filterMap.mpr (hs.imp_of_mem fun hx hy hxy g hg g' hg' => ?_)
  rw [appFrame_position hg, appFrame_position hg', ofNat_lt_ofNat (hb _ hx) (hb _ hy)]
  exact hxy

theorem ordered_apps : AppFrame.Ordered (L.apps hash) :=
  ordered_filterMap (Tiling.pairwise_place LogFrame.span_pos _ _) fun _ hx => start_lt hx

theorem apps_split (r : ℕ) (h : L.Edge r) : L.apps hash = L.appsBelow hash r ++ L.appsFrom hash r := by
  obtain ⟨l₁, l₂, hl, rfl⟩ := h
  have hbelow : Tiling.below LogFrame.span 0 L.frames (0 + Tiling.width LogFrame.span l₁) =
      Tiling.place LogFrame.span 0 l₁ := by
    rw [hl, Tiling.below_split LogFrame.span_pos]
  have hlow : ∀ x ∈ Tiling.place LogFrame.span 0 l₁, ¬ 0 + Tiling.width LogFrame.span l₁ ≤ x.1 := by
    intro x hx
    have := Tiling.end_le_of_mem_place hx
    have := x.2.span_pos
    omega
  have hfrom : L.placed.filter (fun x => 0 + Tiling.width LogFrame.span l₁ ≤ x.1) =
      Tiling.place LogFrame.span (0 + Tiling.width LogFrame.span l₁) l₂ := by
    rw [placed, hl, Tiling.place_append, List.filter_append,
      List.filter_eq_nil_iff.mpr fun x hx => by simpa using hlow x hx,
      List.filter_eq_self.mpr fun x hx => decide_eq_true (Tiling.le_of_mem_place hx), List.nil_append]
  rw [appsFrom, hfrom, appsBelow, hbelow, ← List.filterMap_append, ← Tiling.place_append, ← hl]
  rfl

theorem ordered_appsBelow (h : L.Edge r) : AppFrame.Ordered (L.appsBelow hash r) :=
  (List.pairwise_append.mp (apps_split r h ▸ ordered_apps)).1

theorem appsBelow_concat (hx : x ∈ L.placed) :
    L.appsBelow hash (x.1 + x.2.span) = L.appsBelow hash x.1 ++ (appFrame hash x).toList := by
  rw [appsBelow, Tiling.below_concat LogFrame.span_pos hx, List.filterMap_append]
  cases h : appFrame hash x <;> simp [appsBelow, h]

theorem appsFrom_cons (hx : x ∈ L.placed) :
    L.appsFrom hash x.1 = (appFrame hash x).toList ++ L.appsFrom hash (x.1 + x.2.span) := by
  have hstart : L.Edge x.1 := Tiling.edge_of_mem hx
  have hend : L.Edge (x.1 + x.2.span) := Tiling.edge_end_of_mem hx
  have hsplit : L.apps hash = _ := apps_split _ hend
  rw [apps_split _ hstart, appsBelow_concat hx, List.append_assoc] at hsplit
  exact List.append_cancel_left hsplit

theorem Edge.le_or_le (h : L.Edge r) (hx : x ∈ L.placed) : x.1 + x.2.span ≤ r ∨ r ≤ x.1 :=
  Tiling.edge_cases h hx

end CommittedLog

end UltimaCluster
