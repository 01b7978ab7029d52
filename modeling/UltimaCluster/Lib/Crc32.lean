/-
  The CRC-32 of IEEE 802.3, bit by bit: reflected, with all bits set before and
  inverted after.
-/
import UltimaCluster.Lib.Bytes

namespace Crc32

/-- One bit of the division. -/
def shift (c : ℕ) : ℕ := if c % 2 = 1 then c / 2 ^^^ 0xedb88320 else c / 2

def update (c : ℕ) (b : UInt8) : ℕ :=
  shift (shift (shift (shift (shift (shift (shift (shift (c ^^^ b.toNat))))))))

def hash (b : Bytes) : UInt32 := .ofNat (b.foldl update 0xffffffff ^^^ 0xffffffff)

/-- The check value, of the digits from 1 to 9. -/
example : hash [0x31, 0x32, 0x33, 0x34, 0x35, 0x36, 0x37, 0x38, 0x39] = 0xcbf43926 := by
  decide +kernel

end Crc32
