/-
  The bincode encoding with its standard configuration: integers of variable
  length, sequences and maps behind their length, records field by field.

  A codec is lawful when it reads back, in front of any rest, every value whose
  encoding is shorter than the lengths it can write (`Codec.Lawful`); the
  combinators keep that.
-/
import UltimaCluster.Lib.Bytes
import Std.Data.ExtTreeMap.Lemmas

namespace Bincode

open Bytes Std

/-- Bytes for a value, and back. -/
structure Codec (α : Type) where
  enc : α → Bytes
  dec : Bytes → Option (α × Bytes)

variable {α β : Type}

/-! ## Integers -/

/-- The tag bytes 251, 252 and 253 announce two, four and eight bytes. -/
def varint (n : ℕ) : Bytes :=
  if n < 251 then [UInt8.ofNat n]
  else if n < 2 ^ 16 then 251 :: le 2 n
  else if n < 2 ^ 32 then 252 :: le 4 n
  else 253 :: le 8 n

/-- The number at the front. -/
def readVarint : Bytes → Option (ℕ × Bytes)
  | [] => none
  | b :: rest =>
    if b.toNat < 251 then some (b.toNat, rest)
    else if b = 251 then readNum 2 rest
    else if b = 252 then readNum 4 rest
    else if b = 253 then readNum 8 rest
    else none

theorem readVarint_varint {n : ℕ} (h : n < 2 ^ 64) (rest : Bytes) :
    readVarint (varint n ++ rest) = some (n, rest) := by
  unfold varint
  split_ifs with h8 h16 h32
  · have hn : (UInt8.ofNat n).toNat = n := by
      rw [UInt8.toNat_ofNat']
      omega
    simp [readVarint, hn, h8]
  · have hread := readNum_le (show n < 256 ^ 2 by omega) rest
    simpa [readVarint] using hread
  · have hread := readNum_le (show n < 256 ^ 4 by omega) rest
    simpa [readVarint] using hread
  · have hread := readNum_le (show n < 256 ^ 8 by omega) rest
    simpa [readVarint] using hread

theorem varint_length_pos (n : ℕ) : 0 < (varint n).length := by
  unfold varint
  split_ifs <;> simp

/-! ## Combinators -/

namespace Codec

def u8 : Codec UInt8 where
  enc n := [n]
  dec
    | [] => none
    | b :: rest => some (b, rest)

def u64 : Codec UInt64 where
  enc n := varint n.toNat
  dec b := (readVarint b).map fun p => (UInt64.ofNat p.1, p.2)

def pair (c : Codec α) (d : Codec β) : Codec (α × β) where
  enc p := c.enc p.1 ++ d.enc p.2
  dec b := do
    let (x, b) ← c.dec b
    let (y, b) ← d.dec b
    return ((x, y), b)

/-- One byte says whether a value follows. -/
def option (c : Codec α) : Codec (Option α) where
  enc
    | none => [0]
    | some x => 1 :: c.enc x
  dec
    | [] => none
    | b :: rest =>
      if b = 0 then some (none, rest)
      else if b = 1 then (c.dec rest).map fun p => (some p.1, p.2)
      else none

def readMany (dec : Bytes → Option (α × Bytes)) : ℕ → Bytes → Option (List α × Bytes)
  | 0, b => some ([], b)
  | n + 1, b => do
    let (x, b) ← dec b
    let (xs, b) ← readMany dec n b
    return (x :: xs, b)

def list (c : Codec α) : Codec (List α) where
  enc l := varint l.length ++ l.flatMap c.enc
  dec b := do
    let (n, b) ← readVarint b
    readMany c.dec n b

/-- A record through the tuple of its fields. -/
def via (c : Codec α) (f : β → α) (g : α → β) : Codec β where
  enc x := c.enc (f x)
  dec b := (c.dec b).map fun p => (g p.1, p.2)

/-- A map in the order of its keys. -/
def map [Ord α] [TransOrd α] (c : Codec α) (d : Codec β) : Codec (ExtTreeMap α β) where
  enc m := (list (pair c d)).enc m.toList
  dec b := ((list (pair c d)).dec b).map fun p => (ExtTreeMap.ofList p.1, p.2)

/-! ## Reading back -/

/-- `a` is read back in front of any rest. -/
def Reads (c : Codec α) (a : α) : Prop := ∀ rest, c.dec (c.enc a ++ rest) = some (a, rest)

/-- What is written is read back. -/
structure Lawful (c : Codec α) : Prop where
  reads : ∀ a, (c.enc a).length < 2 ^ 64 → c.Reads a
  pos : ∀ a, 0 < (c.enc a).length

theorem u8_lawful : u8.Lawful where
  reads _ _ _ := rfl
  pos _ := Nat.one_pos

theorem u64_lawful : u64.Lawful where
  reads n _ rest := by
    have hread := readVarint_varint n.toNat_lt rest
    simp [u64, hread]
  pos n := varint_length_pos n.toNat

variable {c : Codec α} {d : Codec β}

theorem Lawful.pair (hc : c.Lawful) (hd : d.Lawful) : (pair c d).Lawful where
  reads p hlen rest := by
    have hlen' : (c.enc p.1).length + (d.enc p.2).length < 2 ^ 64 := by
      simpa [Codec.pair] using hlen
    have h1 := hc.reads p.1 (by omega) (d.enc p.2 ++ rest)
    have h2 := hd.reads p.2 (by omega) rest
    simp only [Codec.pair, List.append_assoc, h1, h2, Option.bind_eq_bind, Option.bind_some]
    rfl
  pos p := by
    have h := hc.pos p.1
    simp only [Codec.pair, List.length_append]
    omega

theorem Lawful.option (hc : c.Lawful) : (option c).Lawful where
  reads o hlen rest := by
    cases o with
    | none => rfl
    | some x =>
      have h := hc.reads x (by simp [Codec.option] at hlen; omega) rest
      simp [Codec.option, h]
  pos o := by cases o <;> simp [Codec.option]

theorem Lawful.via (hc : c.Lawful) {f : β → α} {g : α → β} (hg : ∀ x, g (f x) = x) :
    (c.via f g).Lawful where
  reads x hlen rest := by
    have h := hc.reads (f x) hlen rest
    simp [Codec.via, h, hg]
  pos x := hc.pos (f x)

theorem length_le_flatMap (hc : c.Lawful) (l : List α) : l.length ≤ (l.flatMap c.enc).length := by
  induction l with
  | nil => simp
  | cons a l ih =>
    have h := hc.pos a
    simp only [List.flatMap_cons, List.length_append, List.length_cons]
    omega

theorem readMany_flatMap (hc : c.Lawful) {l : List α} (hlen : (l.flatMap c.enc).length < 2 ^ 64)
    (rest : Bytes) : readMany c.dec l.length (l.flatMap c.enc ++ rest) = some (l, rest) := by
  induction l with
  | nil => rfl
  | cons a l ih =>
    simp only [List.flatMap_cons, List.length_append] at hlen
    have h := hc.reads a (by omega) (l.flatMap c.enc ++ rest)
    simp only [List.length_cons, readMany, List.flatMap_cons, List.append_assoc, h,
      Option.bind_eq_bind, Option.bind_some, ih (by omega)]
    rfl

theorem Lawful.list (hc : c.Lawful) : (list c).Lawful where
  reads l hlen rest := by
    have hlen' : (varint l.length).length + (l.flatMap c.enc).length < 2 ^ 64 := by
      simpa only [Codec.list, List.length_append] using hlen
    have hl := length_le_flatMap hc l
    have hn := readVarint_varint (show l.length < 2 ^ 64 by omega) (l.flatMap c.enc ++ rest)
    simp only [Codec.list, List.append_assoc, hn, Option.bind_eq_bind, Option.bind_some]
    exact readMany_flatMap hc (by omega) rest
  pos l := by
    have h := varint_length_pos l.length
    simp only [Codec.list, List.length_append]
    omega

section Map

variable [Ord α] [TransOrd α] [LawfulEqOrd α]

theorem ofList_toList (m : ExtTreeMap α β) : ExtTreeMap.ofList m.toList = m := by
  refine ExtTreeMap.ext_getElem? fun k => ?_
  cases hk : m[k]? with
  | some v =>
    exact ExtTreeMap.getElem?_ofList_of_mem compare_self m.distinct_keys_toList
      (ExtTreeMap.mem_toList_iff_getElem?_eq_some.mpr hk)
  | none =>
    classical
    refine ExtTreeMap.getElem?_ofList_of_contains_eq_false ?_
    have hmem : k ∉ m := by
      rw [ExtTreeMap.mem_iff_isSome_getElem?, hk]
      simp
    rw [ExtTreeMap.map_fst_toList_eq_keys]
    simpa using hmem

theorem Lawful.map (hc : c.Lawful) (hd : d.Lawful) : (map c d).Lawful where
  reads m hlen rest := by
    have h := (hc.pair hd).list.reads m.toList hlen rest
    simp [Codec.map, h, ofList_toList]
  pos m := (hc.pair hd).list.pos m.toList

end Map

/-! ## Lengths -/

theorem varint_length_le (n : ℕ) : (varint n).length ≤ 9 := by
  unfold varint
  split_ifs <;> simp

theorem length_list_le {l : List α} {b : ℕ} (h : ∀ a ∈ l, (c.enc a).length ≤ b) :
    ((list c).enc l).length ≤ 9 + l.length * b := by
  have hmany : (l.flatMap c.enc).length ≤ l.length * b := by
    induction l with
    | nil => simp
    | cons a l ih =>
      obtain ⟨ha, hl⟩ := List.forall_mem_cons.mp h
      have := ih hl
      simp only [List.flatMap_cons, List.length_append, List.length_cons, Nat.succ_mul]
      omega
  have hlen := varint_length_le l.length
  simp only [list, List.length_append]
  omega

theorem length_le_list (hc : c.Lawful) (l : List α) : l.length ≤ ((list c).enc l).length := by
  have h := length_le_flatMap hc l
  simp only [list, List.length_append]
  omega

end Codec

end Bincode
