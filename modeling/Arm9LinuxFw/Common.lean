import Mathlib.Data.Nat.Notation
import Mathlib.Tactic.Common
import Arm9LinuxFw.Lib.ByteMem

/-!
# Common definitions

The fixed-width types of `common.h` are bit vectors, so that conversions between them are the
truncations and zero extensions of C, and arithmetic wraps where the code's does. The macros `BIT`
and `INT_IS_POW2` are functions on them.

Guest memory, the firmware's own pointers included, is a byte-addressed little-endian memory
(`Lib/ByteMem`); a `u32` used as a pointer is an address of it.
-/

namespace Arm9LinuxFw

abbrev U8 := BitVec 8
abbrev U16 := BitVec 16
abbrev U32 := BitVec 32
abbrev U64 := BitVec 64

export ByteMem (Mem)

/-- `BIT(x)`, cut to the width it is used at. -/
def bit (w x : ℕ) : BitVec w := 1#w <<< x

theorem bit_getLsbD {k i : ℕ} (hi : i < 32) : (bit 32 k).getLsbD i = decide (i = k) := by
  simp only [bit, BitVec.getLsbD_shiftLeft, BitVec.getLsbD_one]
  by_cases h : i = k
  · simp [h ▸ hi, h]
  · simp [h]
    omega

/-- `INT_IS_POW2(x)`: true of the powers of two, and of zero. -/
def intIsPow2 (x : U32) : Bool := x &&& (x - 1) == 0

end Arm9LinuxFw
