import Arm9LinuxFw.Common

/-!
# The PXI FIFOs

`hw/pxi.c`: the words that have come from the other processor and those on their way to it, each
in the order they were sent.

* `Pxi` is the pair of FIFOs, oldest word first. The receive FIFO is lossless: the other processor
  does not send when it is full. What a read of an empty one returns is a field of the state, as
  the hardware repeats the last word.
* `pxiRecvEmpty`, `pxiRecvMsg`, `pxiSendFull` and `pxiSendMsg` are the accesses of the driver.
* `pximsgCmdReg`, `pximsgCmdDev` and `pximsgCmdType` are the macros that cut a command word into
  its fields, with lemmas that say which bits these are as numbers: the handler of the receive
  interrupt takes the words apart by them, and the sender puts them together.
-/

namespace Arm9LinuxFw

/-- `PXI_FIFO_WIDTH`. -/
def PXI_FIFO_WIDTH : ℕ := 16

/-- The two FIFOs, oldest word first; `stale` is what a read of an empty one returns. -/
structure Pxi where
  rx : List U32
  tx : List U32
  stale : U32

def pxiRecvEmpty (p : Pxi) : Bool := p.rx.isEmpty

def pxiSendFull (p : Pxi) : Bool := PXI_FIFO_WIDTH ≤ p.tx.length

def pxiRecvMsg (p : Pxi) : U32 × Pxi :=
  match p.rx with
  | [] => (p.stale, p)
  | msg :: rx => (msg, { p with rx := rx, stale := msg })

/-- A word sent while the FIFO is full is lost. -/
def pxiSendMsg (p : Pxi) (msg : U32) : Pxi :=
  if pxiSendFull p then p else { p with tx := p.tx ++ [msg] }

/-! ### Command words -/

/-- `PXIMSG_CMD_REG(m)` -/
def pximsgCmdReg (m : U32) : U32 := m &&& (bit 32 24 - 1)

/-- `PXIMSG_CMD_DEV(m)` -/
def pximsgCmdDev (m : U32) : U32 := m >>> 24 &&& 0x7F

/-- `PXIMSG_CMD_TYPE(m)` -/
def pximsgCmdType (m : U32) : U32 := m >>> 31 &&& 0x01

/-- The register is in the lower 24 bits of a command word. -/
private theorem toNat_pximsgCmdReg (m : U32) : (pximsgCmdReg m).toNat = m.toNat % 2 ^ 24 := by
  rw [pximsgCmdReg, BitVec.toNat_and]
  exact Nat.and_two_pow_sub_one_eq_mod _ 24

/-- The device is in the next 7. -/
private theorem toNat_pximsgCmdDev (m : U32) :
    (pximsgCmdDev m).toNat = m.toNat / 2 ^ 24 % 2 ^ 7 := by
  rw [pximsgCmdDev, BitVec.toNat_and, BitVec.toNat_ushiftRight, Nat.shiftRight_eq_div_pow]
  exact Nat.and_two_pow_sub_one_eq_mod _ 7

/-- The top bit tells a read from a write. -/
private theorem toNat_pximsgCmdType (m : U32) : (pximsgCmdType m).toNat = m.toNat / 2 ^ 31 := by
  have hlt : m.toNat / 2 ^ 31 < 2 ^ 1 := by
    have := m.isLt
    omega
  rw [pximsgCmdType, BitVec.toNat_and, BitVec.toNat_ushiftRight, Nat.shiftRight_eq_div_pow]
  exact (Nat.and_two_pow_sub_one_eq_mod _ 1).trans (Nat.mod_eq_of_lt hlt)

/-- In `type << 31 | dev << 24 | reg` the fields do not overlap. -/
private theorem toNat_commandWord {type dev reg : U32} (htype : type.toNat < 2)
    (hdev : dev.toNat < 128)
    (hreg : reg.toNat < 2 ^ 24) :
    (type <<< 31 ||| dev <<< 24 ||| reg).toNat =
      2 ^ 31 * type.toNat + (2 ^ 24 * dev.toNat + reg.toNat) := by
  have hlow : 2 ^ 24 * dev.toNat + reg.toNat < 2 ^ 31 := by omega
  have hshift {x : U32} {k : ℕ} (hx : 2 ^ k * x.toNat < 2 ^ 32) :
      (x <<< k).toNat = 2 ^ k * x.toNat := by
    rw [BitVec.toNat_shiftLeft, Nat.shiftLeft_eq, Nat.mul_comm, Nat.mod_eq_of_lt hx]
  rw [BitVec.toNat_or, BitVec.toNat_or, hshift (by omega), hshift (by omega), Nat.or_assoc,
    ← Nat.two_pow_add_eq_or_of_lt hreg, ← Nat.two_pow_add_eq_or_of_lt hlow]

/-- The fields are recovered from the command word. -/
theorem pximsgCmd_commandWord {type dev reg : U32} (htype : type.toNat < 2)
    (hdev : dev.toNat < 128) (hreg : reg.toNat < 2 ^ 24) :
    pximsgCmdType (type <<< 31 ||| dev <<< 24 ||| reg) = type ∧
      pximsgCmdDev (type <<< 31 ||| dev <<< 24 ||| reg) = dev ∧
      pximsgCmdReg (type <<< 31 ||| dev <<< 24 ||| reg) = reg := by
  have hword := toNat_commandWord htype hdev hreg
  refine ⟨?_, ?_, ?_⟩
  all_goals refine BitVec.eq_of_toNat_eq ?_
  · rw [toNat_pximsgCmdType, hword]
    omega
  · rw [toNat_pximsgCmdDev, hword]
    omega
  · rw [toNat_pximsgCmdReg, hword]
    omega

end Arm9LinuxFw
