import Mathlib.Logic.Function.Basic
import Arm9LinuxFw.Arm.Screen
import Arm9LinuxFw.Boot.Loader

/-!
# Fatal exceptions

`arm/vectors.s`: the entry of every exception but the IRQ notes which it is, and `_exception_fatal`
saves the registers of the mode that was interrupted, which for the banked ones it has to go back
to.

* `ArmCpu` is the processor as far as that needs: the registers of all modes, by the mode that
  holds them (`ArmMode.holder`), the status words and memory. Flags that no instruction reads are
  not modelled, and neither are pipelines, caches and the memory protection unit.
* `ArmCpu.fatal` is the whole way from the exception to the call of `handle_fatal_error`, cut where
  the mode changes or a register is done with: `saveLow`, `disableInterrupts` and `savePsr` run in
  the mode of the exception, `saveBanked` goes to the interrupted one and comes back, and `savePc`
  is the rest. `storeDump` is what all the stores below the handler's stack make of memory.
* `SavedCommon`, `SavedBanked` and `Saved` say what each part has brought into the registers of the
  next one. They are put together in `exceptionFatal_saved`, for any two modes.
* `fatal_dump` is the result: the sixteen registers of the interrupted program and its status word
  are in the dump, and nothing else of memory has changed. USR is read as SYS, which shares its
  registers.
* An exception in the mode that takes it has overwritten `r13` and `r14` by then; the dump has the
  stack pointer of the handler and the return address in their place. The theorem says so, too.

With the screen of `Arm/Screen` that makes a crash readable: `crash_screen` says that after any
number of rounds of the handler the text on the screen is a picture of those registers, from which
all of them can be told. The layout of the image decides where the stack is; no layout that the
linker accepts puts it on the screen.
-/

namespace Arm9LinuxFw

open ByteMem

/-! ### The processor -/

inductive ArmMode
  | usr
  | fiq
  | irq
  | svc
  | abt
  | und
  | sys
  deriving DecidableEq

namespace ArmMode

/-- The mode bits of a status word. -/
def bits : ArmMode → U32
  | usr => 0x10
  | fiq => 0x11
  | irq => 0x12
  | svc => 0x13
  | abt => 0x17
  | und => 0x1B
  | sys => 0x1F

/-- The mode of a status word; words with other mode bits do not occur. -/
def ofWord (w : U32) : ArmMode :=
  ([fiq, irq, svc, abt, und, sys].find? fun m => m.bits = w &&& 0x1F).getD usr

/-- The mode whose `r13` and `r14` a mode has. -/
def bank : ArmMode → ArmMode
  | sys => usr
  | m => m

/-- The mode whose register `r8 + i` a mode has: only FIQ has an `r8` to `r12` of its own. -/
def holder (m : ArmMode) (i : Fin 7) : ArmMode :=
  if i.val < 5 ∧ m ≠ fiq then usr else m.bank

end ArmMode

/-- `low` are `r0` to `r7`, `high` the `r8` to `r14` of every mode that has its own. -/
structure ArmCpu where
  low : Fin 8 → U32
  high : ArmMode → Fin 7 → U32
  spsr : ArmMode → U32
  cpsr : U32
  mem : Mem

namespace ArmCpu

variable (c : ArmCpu)

def mode : ArmMode := .ofWord c.cpsr

/-- `r8 + i`, as a mode has it. -/
def reg (m : ArmMode) (i : Fin 7) : U32 := c.high (m.holder i) i

def setReg (i : Fin 7) (v : U32) : ArmCpu :=
  let m := c.mode.holder i
  { c with high := Function.update c.high m (Function.update (c.high m) i v) }

def sp : U32 := c.reg c.mode 5

def lr : U32 := c.reg c.mode 6

/-- `msr cpsr_c` -/
def msrControl (v : U32) : ArmCpu := { c with cpsr := c.cpsr &&& 0xFFFFFF00 ||| v &&& 0xFF }

/-- A result in `r0` to `r7`. -/
def setLow (i : Fin 8) (v : U32) : ArmCpu := { c with low := Function.update c.low i v }

/-- `str` -/
def str (a v : U32) : ArmCpu := { c with mem := c.mem.write32 a v }

/-- `stmia` -/
def stm (a : U32) (words : List U32) : ArmCpu := { c with mem := c.mem.writeWords a words }

/-- `r0` to `r14` as the running program has them, and where it is. -/
def context (pc : U32) (i : ℕ) : U32 :=
  if h : i < 8 then c.low ⟨i, h⟩ else if h : i < 15 then c.reg c.mode ⟨i - 8, by omega⟩ else pc

end ArmCpu

/-! ### Exceptions -/

/-- What ends in `_exception_fatal`. -/
inductive Trap
  | svc
  | und
  | pre
  | dat
  | fiq

/-- The operand of `TRAP_ENTRY`. -/
def Trap.number : Trap → U32
  | svc => 0
  | und => 1
  | pre => 2
  | dat => 3
  | fiq => 4

/-- The mode that a trap is taken in. -/
def Trap.mode : Trap → ArmMode
  | svc => .svc
  | und => .und
  | pre => .abt
  | dat => .abt
  | fiq => .fiq

/-- What the processor does on an exception that is to return to `ret`. -/
def ArmCpu.take (c : ArmCpu) (t : Trap) (ret : U32) : ArmCpu :=
  { c with
    high := Function.update c.high t.mode (Function.update (c.high t.mode) 6 ret)
    spsr := Function.update c.spsr t.mode c.cpsr
    cpsr := c.cpsr &&& 0xFFFFFF40 ||| t.mode.bits ||| (if t.mode = .fiq then 0xC0 else 0x80) }

/-- `TRAP_ENTRY`: `msr cpsr_f, #(x << TRAP_BITOFF)` -/
def trapEntry (x : U32) (c : ArmCpu) : ArmCpu :=
  { c with cpsr := c.cpsr &&& (0x00FFFFFF : U32) ||| x <<< 28 }

/-- The first two instructions of `_exception_fatal`. -/
def saveLow (abtStk : U32) (c : ArmCpu) : ArmCpu :=
  let c := c.setReg 5 (abtStk - 18 * 4)
  c.stm c.sp (List.ofFn c.low)

/-- From there to the exception source in `r0`. -/
def disableInterrupts (c : ArmCpu) : ArmCpu :=
  let c := c.setLow 1 c.cpsr
  let c := c.setLow 0 (c.low 1 ||| 0xC0)
  let c := c.msrControl (c.low 0)
  c.setLow 0 (c.low 1 >>> 28)

/-- From there to the store of the status word of the interrupted program. -/
def savePsr (c : ArmCpu) : ArmCpu :=
  let c := c.setLow 2 (c.spsr c.mode)
  c.str (c.sp + 16 * 4) (c.low 2)

/-- From the `ands` to the `orr`: what `cpsr_c` is to be for the mode of a status word, or for SYS
in the place of USR. -/
def previousControl (psr : U32) : U32 :=
  let r2 := psr &&& 0xF
  let r2 := if r2 = 0 then r2 ||| 0x1F else r2
  r2 ||| 0xD0

/-- From there to the return to the mode of the exception. -/
def saveBanked (c : ArmCpu) : ArmCpu :=
  let c := c.setLow 2 (previousControl (c.low 2))
  let c := c.setLow 3 (c.sp + 8 * 4)
  let c := c.msrControl (c.low 2)
  let c := c.stm (c.low 3) (List.ofFn (c.reg c.mode))
  c.msrControl (c.low 1)

/-- From there to the call of `handle_fatal_error`, whose arguments are in `r0` and `r1`. -/
def savePc (c : ArmCpu) : ArmCpu :=
  let c := c.str (c.sp + 15 * 4) c.lr
  c.setLow 1 c.sp

/-- `_exception_fatal`. -/
def exceptionFatal (abtStk : U32) (c : ArmCpu) : ArmCpu :=
  savePc (saveBanked (savePsr (disableInterrupts (saveLow abtStk c))))

/-! ### Modes -/

/-- The five mode bits of a status word say which mode it is for. -/
theorem ofWord_bits {m : ArmMode} {w : U32} (hw : w &&& 0x1F = m.bits) : ArmMode.ofWord w = m := by
  rw [ArmMode.ofWord, hw]
  cases m with
  | _ => rfl

/-- Under a mask, a word put together under masks. -/
private theorem and_or_and (a b k l n : U32) :
    (a &&& k ||| b &&& l) &&& n = a &&& (k &&& n) ||| b &&& (l &&& n) := by
  rw [BitVec.and_or_distrib_right, BitVec.and_assoc, BitVec.and_assoc]

/-- The mode bits after `msr cpsr_c` are those of the operand. -/
theorem msrControl_bits (c : ArmCpu) (v : U32) : (c.msrControl v).cpsr &&& 0x1F = v &&& 0x1F := by
  rw [ArmCpu.msrControl, and_or_and, show (0xFFFFFF00 &&& 0x1F : U32) = 0#32 by rfl,
    show (0xFF &&& 0x1F : U32) = 0x1F by rfl, BitVec.and_zero, BitVec.zero_or]

/-- The code of an exception goes into the top bits of the status word and leaves the mode. -/
theorem trapEntry_bits (x : U32) (c : ArmCpu) :
    (trapEntry x c).cpsr &&& 0x1F = c.cpsr &&& 0x1F := by
  have hx : x <<< 28 &&& 0x1F = 0#32 := by
    rw [show (0x1F : U32) = BitVec.ofNat 32 (2 ^ 5 - 1) by rfl]
    refine BitVec.eq_of_getLsbD_eq fun i hi => ?_
    simp only [BitVec.getLsbD_and, BitVec.getLsbD_shiftLeft, BitVec.getLsbD_ofNat,
      Nat.testBit_two_pow_sub_one]
    grind
  rw [trapEntry, BitVec.and_or_distrib_right, hx, BitVec.or_zero, BitVec.and_assoc]
  rfl

/-- From there `_exception_fatal` gets the source of the exception back. -/
private theorem trapEntry_source (t : Trap) (c : ArmCpu) :
    (trapEntry t.number c).cpsr >>> 28 = t.number := by
  have hmask : (0x00FFFFFF : U32) >>> (28 : ℕ) = 0#32 := rfl
  rw [trapEntry, BitVec.ushiftRight_or_distrib, BitVec.ushiftRight_and_distrib, hmask,
    BitVec.and_zero, BitVec.zero_or]
  cases t with
  | _ => rfl

/-- The processor takes an exception in the mode that belongs to it. -/
theorem take_bits (c : ArmCpu) (t : Trap) (ret : U32) :
    (c.take t ret).cpsr &&& 0x1F = t.mode.bits := by
  rw [ArmCpu.take, BitVec.and_or_distrib_right, BitVec.and_or_distrib_right, BitVec.and_assoc,
    show (0xFFFFFF40 &&& 0x1F : U32) = 0#32 by rfl, BitVec.and_zero, BitVec.zero_or]
  cases t with
  | _ => rfl

/-- The mode that `_exception_fatal` goes to, for a program that was interrupted in `m`. -/
def ArmMode.resumed : ArmMode → ArmMode
  | usr => sys
  | m => m

/-- The mode that is gone back to is the interrupted one, with SYS for USR. -/
private theorem previousControl_bits {m : ArmMode} {psr : U32} (h : psr &&& 0x1F = m.bits) :
    previousControl psr &&& 0x1F = m.resumed.bits := by
  have hlow : psr &&& 0xF = m.bits &&& 0xF := by
    rw [← h, BitVec.and_assoc]
    rfl
  rw [previousControl, hlow]
  cases m with
  | _ => rfl

/-- SYS has the registers of USR. -/
private theorem holder_resumed (m : ArmMode) (i : Fin 7) : m.resumed.holder i = m.holder i := by
  cases m with
  | usr => simp [ArmMode.holder, ArmMode.resumed, ArmMode.bank]
  | _ => rfl

/-! ### Registers -/

namespace ArmCpu

variable (c : ArmCpu) (i : Fin 8) (a v : U32) (words : List U32)

@[simp] theorem setLow_low : (c.setLow i v).low = Function.update c.low i v := rfl
@[simp] theorem setLow_high : (c.setLow i v).high = c.high := rfl
@[simp] theorem setLow_spsr : (c.setLow i v).spsr = c.spsr := rfl
@[simp] theorem setLow_cpsr : (c.setLow i v).cpsr = c.cpsr := rfl
@[simp] theorem setLow_mem : (c.setLow i v).mem = c.mem := rfl
@[simp] theorem setLow_mode : (c.setLow i v).mode = c.mode := rfl
@[simp] theorem setLow_reg : (c.setLow i v).reg = c.reg := rfl
@[simp] theorem setLow_sp : (c.setLow i v).sp = c.sp := rfl

@[simp] theorem str_low : (c.str a v).low = c.low := rfl
@[simp] theorem str_high : (c.str a v).high = c.high := rfl
@[simp] theorem str_cpsr : (c.str a v).cpsr = c.cpsr := rfl
@[simp] theorem str_mem : (c.str a v).mem = c.mem.write32 a v := rfl
@[simp] theorem str_sp : (c.str a v).sp = c.sp := rfl

@[simp] theorem stm_low : (c.stm a words).low = c.low := rfl
@[simp] theorem stm_high : (c.stm a words).high = c.high := rfl
@[simp] theorem stm_spsr : (c.stm a words).spsr = c.spsr := rfl
@[simp] theorem stm_cpsr : (c.stm a words).cpsr = c.cpsr := rfl
@[simp] theorem stm_mem : (c.stm a words).mem = c.mem.writeWords a words := rfl

@[simp] theorem msrControl_low : (c.msrControl v).low = c.low := rfl
@[simp] theorem msrControl_high : (c.msrControl v).high = c.high := rfl
@[simp] theorem msrControl_spsr : (c.msrControl v).spsr = c.spsr := rfl
@[simp] theorem msrControl_mem : (c.msrControl v).mem = c.mem := rfl
@[simp] theorem msrControl_reg : (c.msrControl v).reg = c.reg := rfl

@[simp] theorem setReg_low (j : Fin 7) : (c.setReg j v).low = c.low := rfl
@[simp] theorem setReg_spsr (j : Fin 7) : (c.setReg j v).spsr = c.spsr := rfl
@[simp] theorem setReg_cpsr (j : Fin 7) : (c.setReg j v).cpsr = c.cpsr := rfl
@[simp] theorem setReg_mem (j : Fin 7) : (c.setReg j v).mem = c.mem := rfl

end ArmCpu

/-! ### What is saved -/

section Handler

variable {abtStk : U32} {c : ArmCpu} {e : ArmMode}

/-- A store to a register reaches the modes that share its bank, and no others. -/
theorem setReg_reg (c : ArmCpu) (i j : Fin 7) (v : U32) (m : ArmMode) :
    (c.setReg i v).reg m j = if m.holder j = c.mode.holder i ∧ j = i then v else c.reg m j := by
  simp only [ArmCpu.setReg, ArmCpu.reg]
  by_cases hm : m.holder j = c.mode.holder i
  · rw [hm, Function.update_self, Function.update_apply]
    simp only [true_and]
  · rw [Function.update_of_ne hm, if_neg fun h => hm h.1]

/-- The stack pointer of the exception, once it is loaded. -/
theorem sp_of_setReg {v : U32} (hc : c.cpsr &&& 0x1F = e.bits) {d : ArmCpu}
    (hd : d.cpsr &&& 0x1F = e.bits) (hhigh : d.high = (c.setReg 5 v).high) : d.sp = v := by
  have hmode : d.mode = c.mode := (ofWord_bits hd).trans (ofWord_bits hc).symm
  rw [ArmCpu.sp, ArmCpu.reg, hhigh, hmode]
  exact (setReg_reg c 5 5 v c.mode).trans (if_pos ⟨rfl, rfl⟩)

/-- The return address is where it was. -/
private theorem lr_of_setReg {v : U32} (hc : c.cpsr &&& 0x1F = e.bits) {d : ArmCpu}
    (hd : d.cpsr &&& 0x1F = e.bits) (hhigh : d.high = (c.setReg 5 v).high) : d.lr = c.lr := by
  have hmode : d.mode = c.mode := (ofWord_bits hd).trans (ofWord_bits hc).symm
  rw [ArmCpu.lr, ArmCpu.reg, hhigh, hmode]
  exact (setReg_reg c 5 6 v c.mode).trans (if_neg fun h => absurd h.2 (by decide))

/-- What `_exception_fatal` has done when the status word is stored. -/
structure SavedCommon (abtStk : U32) (e : ArmMode) (c s : ArmCpu) : Prop where
  bits : s.cpsr &&& 0x1F = e.bits
  source : s.low 0 = c.cpsr >>> 28
  cpsr : s.low 1 = c.cpsr
  psr : s.low 2 = c.spsr e
  high : s.high = (c.setReg 5 (abtStk - 18 * 4)).high
  mem : s.mem = (c.mem.writeWords (abtStk - 18 * 4) (List.ofFn c.low)).write32
    (abtStk - 18 * 4 + 16 * 4) (c.spsr e)

/-- In the mode of the exception: the status words and the unbanked registers are saved. -/
private theorem saveCommon_saved (hc : c.cpsr &&& 0x1F = e.bits) :
    SavedCommon abtStk e c (savePsr (disableInterrupts (saveLow abtStk c))) := by
  set d := disableInterrupts (saveLow abtStk c) with hd
  have hbits : d.cpsr &&& 0x1F = e.bits := by
    refine (msrControl_bits _ _).trans ?_
    change (c.cpsr ||| 0xC0) &&& 0x1F = e.bits
    rw [BitVec.and_or_distrib_right, hc, show (0xC0 &&& 0x1F : U32) = 0#32 by rfl, BitVec.or_zero]
  have hpsr : d.spsr d.mode = c.spsr e := congrArg c.spsr (ofWord_bits hbits)
  have hsp : (c.setReg 5 (abtStk - 18 * 4)).sp = abtStk - 18 * 4 := sp_of_setReg hc hc rfl
  have hsp' : d.sp = abtStk - 18 * 4 := sp_of_setReg hc hbits rfl
  have hmem : d.mem = c.mem.writeWords (c.setReg 5 (abtStk - 18 * 4)).sp (List.ofFn c.low) := rfl
  refine ⟨hbits, rfl, rfl, hpsr, rfl, ?_⟩
  change d.mem.write32 (d.sp + 16 * 4) (d.spsr d.mode) = _
  rw [hmem, hpsr, hsp, hsp']

/-- What has been done when the mode of the exception is back. -/
structure SavedBanked (e m : ArmMode) (s u : ArmCpu) : Prop where
  bits : u.cpsr &&& 0x1F = e.bits
  source : u.low 0 = s.low 0
  high : u.high = s.high
  mem : u.mem = s.mem.writeWords (s.sp + 8 * 4) (List.ofFn (s.reg m))

/-- In the interrupted mode: its banked registers are read, and the way back is taken. -/
private theorem saveBanked_saved {s : ArmCpu} {m : ArmMode} (hcpsr : s.low 1 &&& 0x1F = e.bits)
    (hpsr : s.low 2 &&& 0x1F = m.bits) : SavedBanked e m s (saveBanked s) := by
  have hmode : ArmCpu.mode (((s.setLow 2 (previousControl (s.low 2))).setLow 3
      (s.sp + 8 * 4)).msrControl (previousControl (s.low 2))) = m.resumed :=
    ofWord_bits ((msrControl_bits _ _).trans (previousControl_bits hpsr))
  have hregs : s.reg m.resumed = s.reg m := by
    funext i
    rw [ArmCpu.reg, ArmCpu.reg, holder_resumed]
  refine ⟨(msrControl_bits _ _).trans hcpsr, rfl, rfl, ?_⟩
  exact congrArg (s.mem.writeWords (s.sp + 8 * 4) <| List.ofFn <| ·)
    ((congrArg s.reg hmode).trans hregs)

/-- What `handle_fatal_error` is called with, after an exception in mode `e` of a program that was
in mode `m`. -/
structure Saved (abtStk : U32) (e m : ArmMode) (c d : ArmCpu) : Prop where
  src : d.low 0 = c.cpsr >>> 28
  regs : d.low 1 = abtStk - 18 * 4
  mem : d.mem = (((c.mem.writeWords (abtStk - 18 * 4) (List.ofFn c.low)).write32
    (abtStk - 18 * 4 + 16 * 4) (c.spsr e)).writeWords (abtStk - 18 * 4 + 8 * 4)
      (List.ofFn ((c.setReg 5 (abtStk - 18 * 4)).reg m))).write32 (abtStk - 18 * 4 + 15 * 4) c.lr

/-- Both halves together: what the dump is made of, for every mode interrupted. -/
private theorem exceptionFatal_saved {m : ArmMode} (hc : c.cpsr &&& 0x1F = e.bits)
    (hpsr : c.spsr e &&& 0x1F = m.bits) : Saved abtStk e m c (exceptionFatal abtStk c) := by
  have h₁ : SavedCommon abtStk e c (savePsr (disableInterrupts (saveLow abtStk c))) :=
    saveCommon_saved hc
  rw [exceptionFatal]
  generalize savePsr (disableInterrupts (saveLow abtStk c)) = s at h₁ ⊢
  have h₂ : SavedBanked e m s (saveBanked s) := saveBanked_saved (h₁.cpsr ▸ hc) (h₁.psr ▸ hpsr)
  have hhigh := h₂.high.trans h₁.high
  have hsp₁ : s.sp = abtStk - 18 * 4 := sp_of_setReg hc h₁.bits h₁.high
  have hsp₂ : (saveBanked s).sp = abtStk - 18 * 4 := sp_of_setReg hc h₂.bits hhigh
  have hlr : (saveBanked s).lr = c.lr := lr_of_setReg hc h₂.bits hhigh
  have hregs : s.reg m = (c.setReg 5 (abtStk - 18 * 4)).reg m := by
    funext i
    rw [ArmCpu.reg, h₁.high, ArmCpu.reg]
  constructor
  · rw [savePc, ArmCpu.setLow_low, Function.update_of_ne (by decide),
      ArmCpu.str_low, h₂.source, h₁.source]
  · rw [savePc, ArmCpu.setLow_low, Function.update_self, ArmCpu.str_sp, hsp₂]
  · rw [savePc, ArmCpu.setLow_mem, ArmCpu.str_mem, h₂.mem, h₁.mem, hsp₁, hsp₂, hlr,
      hregs]

end Handler

/-! ### The dump -/

/-- The stores of `_exception_fatal`. -/
def storeDump (m : Mem) (base : U32) (low : Fin 8 → U32) (high : Fin 7 → U32) (psr pc : U32) :
    Mem :=
  (((m.writeWords base (List.ofFn low)).write32 (base + 16 * 4) psr).writeWords (base + 8 * 4)
    (List.ofFn high)).write32 (base + 15 * 4) pc

section Dump

variable (m : Mem) (base : U32) (low : Fin 8 → U32) (high : Fin 7 → U32) (psr pc : U32)

/-- Two fields of the dump do not meet. -/
theorem disjoint_words {i k n : ℕ} (h : 4 * i + 4 ≤ k ∨ k + n ≤ 4 * i) (hi : i < 17)
    (hk : k + n ≤ 68) :
    Disjoint (span (base + BitVec.ofNat 32 (4 * i)) 4) (span (base + BitVec.ofNat 32 k) n) := by
  rcases h with h | h
  · exact disjoint_span_add h (by omega)
  · exact (disjoint_span_add h (by omega)).symm

/-- The dump is four stores of words in the order of the code. -/
theorem storeDump_eq : storeDump m base low high psr pc =
    (((m.writeWords base (List.ofFn low)).write32 (base + BitVec.ofNat 32 64) psr).writeWords
      (base + BitVec.ofNat 32 32) (List.ofFn high)).write32 (base + BitVec.ofNat 32 60) pc := rfl

/-- The dump has the low registers, the banked ones and the return address, in this order. -/
private theorem dump_storeDump {i : ℕ} (hi : i < 16) :
    dump base (storeDump m base low high psr pc) i =
    if h : i < 8 then low ⟨i, h⟩ else if h : i < 15 then high ⟨i - 8, by omega⟩ else pc := by
  have hlow : (List.ofFn low).length = 8 := List.length_ofFn
  have hhigh : (List.ofFn high).length = 7 := List.length_ofFn
  rw [dump, storeDump_eq]
  split_ifs with h8 h15
  · rw [Mem.read32_of_eqOn_compl (Mem.eqOn_write32 _ _ _)
        (disjoint_words base (by omega) (by omega) (by omega)),
      Mem.read32_of_eqOn_compl (Mem.eqOn_writeWords _ _ _ (by omega))
        (disjoint_words base (by omega) (by omega) (by omega)),
      Mem.read32_of_eqOn_compl (Mem.eqOn_write32 _ _ _)
        (disjoint_words base (by omega) (by omega) (by omega)),
      Mem.read32_writeWords _ _ (by omega) (by omega), List.getElem_ofFn]
  · have hword : base + BitVec.ofNat 32 (4 * i) =
        base + BitVec.ofNat 32 32 + BitVec.ofNat 32 (4 * (i - 8)) := by bv_omega
    rw [Mem.read32_of_eqOn_compl (Mem.eqOn_write32 _ _ _)
        (disjoint_words base (by omega) (by omega) (by omega)), hword,
      Mem.read32_writeWords _ _ (by omega) (by omega), List.getElem_ofFn]
  · rw [show 4 * i = 60 by omega, Mem.read32_write32]

/-- The word behind the registers is the status word. -/
private theorem read32_storeDump_psr :
    (storeDump m base low high psr pc).read32 (base + BitVec.ofNat 32 64) = psr := by
  have hhigh : (List.ofFn high).length = 7 := List.length_ofFn
  rw [storeDump_eq, Mem.read32_of_eqOn_compl (Mem.eqOn_write32 _ _ _)
      (disjoint_words base (i := 16) (by omega) (by omega) (by omega)),
    Mem.read32_of_eqOn_compl (Mem.eqOn_writeWords _ _ _ (by omega))
      (disjoint_words base (i := 16) (by omega) (by omega) (by omega)), Mem.read32_write32]

/-- Besides the dump nothing changes. -/
private theorem eqOn_storeDump : Set.EqOn (storeDump m base low high psr pc) m (span base 68)ᶜ := by
  have hlow : (List.ofFn low).length = 8 := List.length_ofFn
  have hhigh : (List.ofFn high).length = 7 := List.length_ofFn
  intro x hx
  have hout {k n : ℕ} (h : k + n ≤ 68) : x ∉ span (base + BitVec.ofNat 32 k) n :=
    fun hxk => hx (span_add_subset h (by omega) hxk)
  rw [storeDump_eq, Mem.eqOn_write32 _ _ _ (hout (by omega)),
    Mem.eqOn_writeWords _ _ _ (by omega) (hout (by omega)),
    Mem.eqOn_write32 _ _ _ (hout (by omega)),
    Mem.eqOn_writeWords _ _ _ (by omega) fun hxk => hx (span_mono (by omega) hxk)]

end Dump

/-! ### From the exception on -/

/-- From an exception of a running program to the call of `handle_fatal_error`. -/
def ArmCpu.fatal (c : ArmCpu) (t : Trap) (abtStk ret : U32) : ArmCpu :=
  exceptionFatal abtStk (trapEntry t.number (c.take t ret))

section Fatal

variable {c : ArmCpu} {m : ArmMode}

/-- `r13` and `r14` are banked in every mode but SYS, which shares those of USR. -/
theorem holder_of_le {i : Fin 7} (h : 5 ≤ i.val) (m : ArmMode) : m.holder i = m.bank := by
  rw [ArmMode.holder, if_neg fun h' => absurd h'.1 (by omega)]

/-- The modes that take exceptions have banks of their own. -/
theorem bank_mode (t : Trap) : t.mode.bank = t.mode := by
  cases t with
  | _ => rfl

/-- The registers of the interrupted mode, once the stack pointer of the exception is loaded. -/
private theorem reg_taken (c : ArmCpu) (t : Trap) (ret v : U32) (m : ArmMode) (i : Fin 7) :
    ((trapEntry t.number (c.take t ret)).setReg 5 v).reg m i =
      if m.holder i = t.mode ∧ i = 5 then v
      else if m.holder i = t.mode ∧ i = 6 then ret else c.reg m i := by
  have hmode : (trapEntry t.number (c.take t ret)).mode = t.mode :=
    ofWord_bits ((trapEntry_bits _ _).trans (take_bits c t ret))
  rw [setReg_reg, hmode, holder_of_le (by decide) t.mode, bank_mode]
  refine if_congr Iff.rfl rfl ?_
  change Function.update c.high t.mode (Function.update (c.high t.mode) 6 ret) (m.holder i) i = _
  by_cases hm : m.holder i = t.mode
  · rw [hm, Function.update_self, Function.update_apply, ArmCpu.reg, hm]
    simp only [true_and]
  · rw [Function.update_of_ne hm, if_neg fun h => hm h.1, ArmCpu.reg]

/-- **The dump**: `handle_fatal_error` is called with the source of the exception and the sixteen
registers of the interrupted program, except that a mode which takes an exception to itself has
lost its `r13` and `r14` to it. -/
theorem fatal_dump (hm : c.cpsr &&& 0x1F = m.bits) (t : Trap) (abtStk ret : U32) :
    (c.fatal t abtStk ret).low 0 = t.number ∧
      (c.fatal t abtStk ret).low 1 = abtStk - 18 * 4 ∧
      (∀ i < 16, (m.bank = t.mode → i ≠ 13 ∧ i ≠ 14) →
        dump (abtStk - 18 * 4) (c.fatal t abtStk ret).mem i = c.context ret i) ∧
      (m.bank = t.mode →
        dump (abtStk - 18 * 4) (c.fatal t abtStk ret).mem 13 = abtStk - 18 * 4 ∧
          dump (abtStk - 18 * 4) (c.fatal t abtStk ret).mem 14 = ret) ∧
      (c.fatal t abtStk ret).mem.read32 (abtStk - 18 * 4 + 16 * 4) = c.cpsr ∧
      Set.EqOn (c.fatal t abtStk ret).mem c.mem (span (abtStk - 18 * 4) 68)ᶜ := by
  have hbits : (trapEntry t.number (c.take t ret)).cpsr &&& 0x1F = t.mode.bits :=
    (trapEntry_bits _ _).trans (take_bits c t ret)
  have hspsr : (trapEntry t.number (c.take t ret)).spsr t.mode = c.cpsr := by
    change Function.update c.spsr t.mode c.cpsr t.mode = c.cpsr
    rw [Function.update_self]
  have hsaved : Saved abtStk t.mode m (trapEntry t.number (c.take t ret)) (c.fatal t abtStk ret) :=
    exceptionFatal_saved hbits (hspsr ▸ hm)
  have hlr : (trapEntry t.number (c.take t ret)).lr = ret := by
    rw [ArmCpu.lr, ArmCpu.mode, ofWord_bits hbits, ArmCpu.reg, holder_of_le (by decide), bank_mode]
    change Function.update c.high t.mode (Function.update (c.high t.mode) 6 ret) t.mode 6 = ret
    rw [Function.update_self, Function.update_self]
  have hmem : (c.fatal t abtStk ret).mem = storeDump c.mem (abtStk - 18 * 4) c.low
      (((trapEntry t.number (c.take t ret)).setReg 5 (abtStk - 18 * 4)).reg m) c.cpsr ret := by
    rw [hsaved.mem, hspsr, hlr]
    rfl
  have hmode : c.mode = m := ofWord_bits hm
  refine ⟨hsaved.src.trans (trapEntry_source t _), hsaved.regs, fun i hi hkept => ?_,
    fun hbank => ⟨?_, ?_⟩, ?_, ?_⟩
  · rw [hmem, dump_storeDump _ _ _ _ _ _ hi, ArmCpu.context, hmode]
    split_ifs with h8 h15
    · rfl
    · have hkeep {j : Fin 7} (hj : j.val = 5 ∨ j.val = 6) :
          ¬(m.holder ⟨i - 8, by omega⟩ = t.mode ∧ ⟨i - 8, by omega⟩ = j) := by
        rintro ⟨hbank, hij⟩
        have hval : i - 8 = j.val := congrArg Fin.val hij
        rw [hij, holder_of_le (by omega)] at hbank
        have hne := hkept hbank
        omega
      rw [reg_taken, if_neg (hkeep (.inl rfl)), if_neg (hkeep (.inr rfl))]
    · rfl
  · rw [hmem, dump_storeDump _ _ _ _ _ _ (by decide), dif_neg (by decide), dif_pos (by decide),
      reg_taken]
    exact if_pos ⟨(holder_of_le (by decide) m).trans hbank, rfl⟩
  · rw [hmem, dump_storeDump _ _ _ _ _ _ (by decide), dif_neg (by decide), dif_pos (by decide),
      reg_taken]
    exact (if_neg fun h => absurd h.2 (by decide)).trans
      (if_pos ⟨(holder_of_le (by decide) m).trans hbank, rfl⟩)
  · rw [hmem]
    exact read32_storeDump_psr _ _ _ _ _ _
  · rw [hmem]
    exact eqOn_storeDump _ _ _ _ _ _

/-- A data abort in SYS keeps the stack pointer of SYS. -/
theorem fatal_dump_sys :
    dump (0x40000A00 - 18 * 4)
      (ArmCpu.fatal ⟨fun _ => 0, fun _ _ => 7, fun _ => 0, 0x1F, fun _ => 0⟩
        .dat 0x40000A00 0x01FF8004).mem 13 = 7 :=
  (fatal_dump (c := ⟨fun _ => 0, fun _ _ => 7, fun _ => 0, 0x1F, fun _ => 0⟩) (m := .sys) rfl .dat
    0x40000A00 0x01FF8004).2.2.1 13 (by decide) (by decide)

/-! ### To the screen -/

/-- Where the linker puts the stack of `_exception_fatal`: `abtStk` is the end of 512 bytes of the
BSS. -/
structure AbtStk (l : Layout) where
  addr : U32
  lower : l.bssS.toNat + 512 ≤ addr.toNat
  upper : addr.toNat ≤ l.bssE.toNat

/-- Wherever the linker puts the stack of the handler, the dump is not on the screen. -/
theorem AbtStk.disjoint_screen {l : Layout} (stk : AbtStk l) :
    Disjoint (span (stk.addr - 18 * 4) 68) (span bottomScreen (240 * 320 * 3)) := by
  have hlower := stk.lower
  have hupper := stk.upper
  have hfits := l.fits_dtcm
  have hbss : l.bssS.toNat = 0x40000000 + 16 * l.dataBlocks := l.toNat_dataE
  have hdata : l.dataBlocks = blocks l.data + blocks (4 * l.vdevs) := rfl
  rw [l.toNat_bssE] at hupper
  have hscreen : bottomScreen.toNat = 0x18119400 := rfl
  have haddr : (stk.addr - 18 * 4).toNat = stk.addr.toNat - 72 := by
    have hwords : (18 * 4 : U32).toNat = 72 := rfl
    rw [BitVec.toNat_sub, hwords]
    omega
  exact disjoint_span_of_toNat (by omega) (by omega) (by omega)

/-- An exception of a program in another mode than the one that takes it; the firmware runs in SYS
and IRQ. -/
structure Crash where
  cpu : ArmCpu
  mode : ArmMode
  trap : Trap
  ret : U32
  mode_bits : cpu.cpsr &&& 0x1F = mode.bits
  other_mode : mode.bank ≠ trap.mode

/-- The registers that the crash is about. -/
def Crash.context (x : Crash) : ℕ → U32 := x.cpu.context x.ret

/-- Memory after `n` rounds of `handle_fatal_error`. -/
def Crash.memory (x : Crash) (abtStk : U32) (n : ℕ) : Mem :=
  handleFatalError n ((x.cpu.fatal x.trap abtStk x.ret).low 1) (x.cpu.fatal x.trap abtStk x.ret).mem

/-- What is in memory after a crash: the picture of the registers in the text area, the dump below
the stack, and elsewhere what was there before. -/
private theorem Crash.memory_spec (x : Crash) {l : Layout} (stk : AbtStk l) {n : ℕ} (hn : 0 < n) :
    Set.EqOn (x.memory stk.addr n) (picture x.context) textArea ∧
      Set.EqOn (x.memory stk.addr n) x.cpu.mem (textArea ∪ span (stk.addr - 18 * 4) 68)ᶜ := by
  obtain ⟨-, hregs, hdump, -, -, hframe⟩ := fatal_dump x.mode_bits x.trap stk.addr x.ret
  have hscreen := handleFatalError_overlay hn (x.cpu.fatal x.trap stk.addr x.ret).mem
    (stk.disjoint_screen.mono (span_mono (by omega)) subset_rfl)
  rw [Crash.memory, hregs]
  refine ⟨hscreen.on.trans (picture_congr fun i hi => hdump i hi fun h => absurd h x.other_mode),
    fun a ha => ?_⟩
  rw [Set.mem_compl_iff, Set.mem_union, not_or] at ha
  exact (hscreen.off ha.1).trans (hframe ha.2)

/-- **A crash on the screen**: however long it has been drawn, the screen is the picture of the
registers of the interrupted program; two crashes look the same exactly if all sixteen registers
are; and nothing but the screen and the dump, which do not meet, has been stored to. -/
theorem crash_screen {l : Layout} (stk : AbtStk l) (x y : Crash) {n k : ℕ} (hn : 0 < n)
    (hk : 0 < k) :
    Set.EqOn (x.memory stk.addr n) (picture x.context) textArea ∧
      (Set.EqOn (x.memory stk.addr n) (y.memory stk.addr k) textArea ↔
        ∀ i < 16, x.context i = y.context i) ∧
      Set.EqOn (x.memory stk.addr n) x.cpu.mem (textArea ∪ span (stk.addr - 18 * 4) 68)ᶜ ∧
      textArea ⊆ span bottomScreen (240 * 320 * 3) ∧
      Disjoint (span (stk.addr - 18 * 4) 68) (span bottomScreen (240 * 320 * 3)) := by
  obtain ⟨hx, hframe⟩ := x.memory_spec stk hn
  obtain ⟨hy, -⟩ := y.memory_spec stk hk
  refine ⟨hx, ⟨fun h i hi => ?_, fun h => ?_⟩, hframe, textArea_subset, stk.disjoint_screen⟩
  · exact eq_of_picture_eq (hx.symm.trans (h.trans hy)) hi
  · exact hx.trans ((picture_congr h).trans hy.symm)

end Fatal

/-- A prefetch abort of code in SYS that jumped to zero. -/
def sampleCrash (r0 : U32) : Crash where
  cpu := ⟨fun i => if i = 0 then r0 else 0, fun _ _ => 0, fun _ => 0, 0x1F, fun _ => 0⟩
  mode := .sys
  trap := .pre
  ret := 4
  mode_bits := show (0x1F &&& 0x1F : U32) = 0x1F by rfl
  other_mode := by decide

def sampleAbtStk : AbtStk sampleLayout where
  addr := 0x400004D0
  lower := by decide
  upper := by decide

/-- Two crashes that differ in a register look different, however many rounds were drawn. -/
theorem crash_screen_sample :
    ¬Set.EqOn ((sampleCrash 1).memory sampleAbtStk.addr 1)
      ((sampleCrash 2).memory sampleAbtStk.addr 3) textArea := fun h =>
  absurd ((crash_screen sampleAbtStk (sampleCrash 1) (sampleCrash 2) (by decide)
    (by decide)).2.1.mp h 0 (by decide)) (by decide)

end Arm9LinuxFw
