/-
  The ids that a state machine mints while it applies a frame (`uc_service/src/ids.rs`).

  A generator lives for one call: it is made of the position of the frame and of the name
  of the machine, and an id is a Feistel permutation of both and of the ordinal.
-/
import UltimaCluster.Lib.Bytes

namespace UltimaCluster

def fnv1a64 (bytes : Bytes) : BitVec 64 :=
  bytes.foldl (fun h b => (h ^^^ b.toBitVec.setWidth 64) * 0x100000001b3) 0xcbf29ce484222325

def fold32 (name : Bytes) : BitVec 32 :=
  ((fnv1a64 name) >>> 32).setWidth 32 ^^^ (fnv1a64 name).setWidth 32

def fmix64 (k : BitVec 64) : BitVec 64 :=
  let k := (k ^^^ k >>> 33) * 0xff51afd7ed558ccd
  let k := (k ^^^ k >>> 33) * 0xc4ceb9fe1a85ec53
  k ^^^ k >>> 33

def permute (a b : BitVec 64) : BitVec 128 :=
  let a := a ^^^ fmix64 (b ^^^ 0x9E3779B97F4A7C15)
  let b := b ^^^ fmix64 (a ^^^ 0xD1B54A32D192ED03)
  let a := a ^^^ fmix64 (b ^^^ 0x8CB92BA72F3D8DD7)
  a ++ b

/-- The generator of one applied frame. -/
structure IdGen where
  position : BitVec 64
  fold : BitVec 32
  ordinal : ℕ

namespace IdGen

def new (position : BitVec 64) (name : Bytes) : IdGen := ⟨position, fold32 name, 0⟩

/-- `none` is the panic at the last ordinal. -/
def next (g : IdGen) : Option (BitVec 128 × IdGen) :=
  if g.ordinal + 1 < 2 ^ 32 then
    some (permute g.position (BitVec.ofNat 32 g.ordinal ++ g.fold), { g with ordinal := g.ordinal + 1 })
  else none

/-- The ids of `n` calls. -/
def mint : ℕ → IdGen → List (BitVec 128)
  | 0, _ => []
  | n + 1, g => match g.next with
    | some (x, g) => x :: mint n g
    | none => []

theorem append_inj {w v : ℕ} {a a' : BitVec w} {b b' : BitVec v} (h : a ++ b = a' ++ b') :
    a = a' ∧ b = b' := by
  have hb := congrArg (BitVec.setWidth v) h
  rw [BitVec.setWidth_append_eq_right, BitVec.setWidth_append_eq_right] at hb
  rw [hb] at h
  exact ⟨(BitVec.append_left_inj b').mp h, hb⟩

/-- Each round is undone by itself, whatever is mixed in. -/
theorem permute_inj {a b a' b' : BitVec 64} (h : permute a b = permute a' b') : a = a' ∧ b = b' := by
  obtain ⟨ha, hb⟩ := append_inj h
  rw [hb, BitVec.xor_left_inj] at ha
  rw [ha, BitVec.xor_left_inj] at hb
  rw [hb, BitVec.xor_left_inj] at ha
  exact ⟨ha, hb⟩

theorem mint_getElem? {n i : ℕ} {g : IdGen} {x : BitVec 128} (h : (mint n g)[i]? = some x) :
    g.ordinal + i + 1 < 2 ^ 32 ∧ x = permute g.position (BitVec.ofNat 32 (g.ordinal + i) ++ g.fold) := by
  induction n generalizing g i with
  | zero => simp [mint] at h
  | succ n ih =>
    unfold mint next at h
    split_ifs at h with hlt
    · cases i with
      | zero => exact ⟨hlt, by simpa [eq_comm] using h⟩
      | succ i =>
        obtain ⟨hi, rfl⟩ := ih h
        rw [show g.ordinal + (i + 1) = g.ordinal + 1 + i by omega]
        exact ⟨hi, rfl⟩
    · simp at h

/-- Two ids of a log are the same only if they are the same one of two generators with one
    position and one fold of the name. -/
theorem ids_differ {position position' : BitVec 64} {name name' : Bytes} {n n' i j : ℕ} {x : BitVec 128}
    (h : (mint n (new position name))[i]? = some x) (h' : (mint n' (new position' name'))[j]? = some x) :
    position = position' ∧ fold32 name = fold32 name' ∧ i = j := by
  obtain ⟨hi, rfl⟩ := mint_getElem? h
  obtain ⟨hj, heq⟩ := mint_getElem? h'
  obtain ⟨hpos, heq⟩ := permute_inj heq
  obtain ⟨hord, hfold⟩ := append_inj heq
  refine ⟨hpos, hfold, ?_⟩
  have := congrArg BitVec.toNat hord
  simp only [new, Nat.zero_add, BitVec.toNat_ofNat] at this hi hj
  omega

theorem ids_differ_same : (7 : BitVec 64) = 7 ∧ fold32 [107, 118] = fold32 [107, 118] ∧ 1 = 1 :=
  have h : ∀ n, (mint (n + 2) (new 7 [107, 118]))[1]? = some (permute 7 (1#32 ++ fold32 [107, 118])) :=
    fun _ => rfl
  ids_differ (h 0) (h 3)

end IdGen

end UltimaCluster
