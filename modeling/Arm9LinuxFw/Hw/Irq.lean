import Mathlib.Tactic.SplitIfs
import Arm9LinuxFw.Common
import Arm9LinuxFw.Lib.History
import Arm9LinuxFw.Lib.Transition

/-!
# The interrupt controller

`hw/irq.c`: a mask of enabled lines, a mask of pending ones, both in hardware, and a table of
handlers beside them.

* The hardware may raise enabled lines between any two accesses to its registers. `irqProcess` is
  therefore cut into its accesses (`IrqPc`), and the loops that clear pending bits are told what is
  raised in each of their rounds.
* `irqEnable`, `irqDisable` and `irqReset` are the calls of the file, as relations to what comes
  out: a loop that clears a bit may never end, if the bit is raised in every round.
* `IrqCtlAction` is what may happen to the controller: a call, an interrupt of a line, or the next
  access of `irqProcess`. The record of calls is kept beside the state, for `LastCall`.
* `Bookkept` is what the masks, the table and the calls made so far have to do with each other: a
  line is enabled if the last call about it was `irqEnable`, the table has its handler then, and no
  null handler is ever called.
* `irqDisable` masks with `BIT(irqn)` where it should with the complement: the line it is called
  for stays as it was, and all others are disabled. `irqBookkeeping_iff` says that this does no
  harm exactly when no line is enabled.

What a step does to a single line is in `irqCtlStep_enable`, `irqCtlStep_disable_eq_some` and
`irqCtlStep_process`; the invariant `IrqCtlInv` is carried along runs by `irqCtlInv_step`.
-/

namespace Arm9LinuxFw

open Transition History

abbrev NR_IRQS : ℕ := 32

variable {η : Type*}

/-- `TOP_BIT(n)` of a value that is not zero. -/
def topBit (n : U32) : Fin NR_IRQS := ⟨31 - n.clz.toNat, Nat.lt_succ_of_le (Nat.sub_le 31 _)⟩

/-- The top bit of a value is set in it. -/
private theorem getLsbD_topBit {n : U32} (h : n ≠ 0) : n.getLsbD (topBit n) :=
  BitVec.getLsbD_true_clz_of_ne_zero (by decide) h

/-! ### State -/

/-- Where `irqProcess` stands. -/
inductive IrqPc
  /-- not running -/
  | idle
  /-- before the read of `pending` that `TOP_BIT` compares with zero -/
  | test
  /-- before the one it takes the bit from -/
  | top
  /-- before the line is acknowledged -/
  | ack (irqn : Fin NR_IRQS)
  /-- before its handler is called -/
  | call (irqn : Fin NR_IRQS)
  /-- in the handler -/
  | handler (irqn : Fin NR_IRQS)
  /-- `NULL` was called -/
  | lost

/-- The calls that change the mask. A handler may be `NULL`; `raised` is what the hardware
raises in the rounds of the loop that clears the line. -/
inductive IrqCall (η : Type*)
  | enable (irqn : Fin NR_IRQS) (handler : Option η)
  | disable (irqn : Fin NR_IRQS) (raised : List U32)

def IrqCall.irqn : IrqCall η → Fin NR_IRQS
  | .enable irqn _ => irqn
  | .disable irqn _ => irqn

/-- The registers, the table of handlers (`NULL` is `none`), and where `irqProcess` stands; with
the calls made and the handlers invoked so far. -/
structure IrqCtl (η : Type*) where
  enable : U32
  pending : U32
  irqHandlerTable : Fin NR_IRQS → Option η
  pc : IrqPc
  calls : List (IrqCall η)
  invoked : List (Option η)

/-! ### Operations -/

/-- `do pending = mask; while (pending & mask);`, where writing a bit clears it and the hardware
raises lines before each test. None if these are not exactly the rounds of the loop. -/
def clearLoop (enable mask : U32) : U32 → List U32 → Option U32
  | _, [] => none
  | pending, r :: raised =>
      let pending := (pending &&& ~~~mask) ||| (r &&& enable)
      if pending &&& mask = 0 then if raised = [] then some pending else none
      else clearLoop enable mask pending raised

section Operations

variable (irqDummyHandler : η)

def irqReset (s : IrqCtl η) (raised : List U32) : Option (IrqCtl η) :=
  (clearLoop 0 (~~~0) s.pending raised).map fun pending =>
    { enable := 0
      pending
      irqHandlerTable := fun _ => some irqDummyHandler
      pc := .idle
      calls := []
      invoked := [] }

def irqEnable (s : IrqCtl η) (irqn : Fin NR_IRQS) (handler : Option η) : IrqCtl η :=
  let handler := handler.getD irqDummyHandler
  { s with
    irqHandlerTable := Function.update s.irqHandlerTable irqn (some handler)
    enable := s.enable ||| bit 32 irqn }

def irqDisable (s : IrqCtl η) (irqn : Fin NR_IRQS) (raised : List U32) : Option (IrqCtl η) :=
  let enable := s.enable &&& bit 32 irqn
  (clearLoop enable (bit 32 irqn) s.pending raised).map fun pending =>
    { s with enable, pending, irqHandlerTable := Function.update s.irqHandlerTable irqn none }

/-- The next step of `irqProcess`: from `idle` it is entered, in `handler` the handler returns. -/
def irqProcess (s : IrqCtl η) : Option (IrqCtl η) :=
  match s.pc with
  | .idle => some { s with pc := .test }
  | .test => some { s with pc := if s.pending = 0 then .idle else .top }
  | .top => some { s with pc := .ack (topBit s.pending) }
  | .ack irqn => some { s with pending := s.pending &&& ~~~ bit 32 irqn, pc := .call irqn }
  | .call irqn =>
      let handler := s.irqHandlerTable irqn
      some { s with
        invoked := s.invoked ++ [handler]
        pc := if handler.isSome then .handler irqn else .lost }
  | .handler _ => some { s with pc := .test }
  | .lost => none

inductive IrqCtlAction (η : Type*)
  | call (c : IrqCall η)
  /-- the hardware raises those of the lines that are enabled -/
  | raise (lines : U32)
  | process

/-- Calls are made while interrupts are off: outside of `irqProcess`, or by a handler. -/
def IrqPc.allowsCall : IrqPc → Bool
  | .idle | .handler _ => true
  | _ => false

def irqCall (s : IrqCtl η) : IrqCall η → Option (IrqCtl η)
  | .enable irqn handler => some (irqEnable irqDummyHandler s irqn handler)
  | .disable irqn raised => irqDisable s irqn raised

def irqCtlStep (s : IrqCtl η) : IrqCtlAction η → Option (IrqCtl η)
  | .call c =>
      if s.pc.allowsCall then
        (irqCall irqDummyHandler s c).map fun t => { t with calls := t.calls ++ [c] }
      else none
  | .raise lines => some { s with pending := s.pending ||| (lines &&& s.enable) }
  | .process => irqProcess s

end Operations

/-! ### The bookkeeping -/

/-- The last call about line `irqn` is one with `P`. -/
def LastCall (irqn : Fin NR_IRQS) (P : IrqCall η → Prop) (calls : List (IrqCall η)) : Prop :=
  Since (fun c => c.irqn = irqn ∧ P c) (fun c => c.irqn = irqn) calls

/-- The last call about a line is the new one, if that is about it. -/
theorem lastCall_append {irqn : Fin NR_IRQS} {P : IrqCall η → Prop} {calls : List (IrqCall η)}
    {c : IrqCall η} :
    LastCall irqn P (calls ++ [c]) ↔ if c.irqn = irqn then P c else LastCall irqn P calls := by
  rw [LastCall, since_append_singleton]
  split_ifs with h
  · simp [h]
  · simp [h, LastCall]

/-- The call is `irqEnable`. -/
def IrqCall.Enables : IrqCall η → Prop
  | .enable _ _ => True
  | .disable _ _ => False

section Bookkeeping

variable (irqDummyHandler : η)

/-- The call is `irqEnable`, and gives the line the handler `f`. -/
def IrqCall.Gives (f : η) : IrqCall η → Prop
  | .enable _ handler => handler.getD irqDummyHandler = f
  | .disable _ _ => False

/-- The mask, the table and the handlers invoked are as the calls made so far say. -/
structure Bookkept (s : IrqCtl η) : Prop where
  enabled : ∀ n : Fin NR_IRQS, s.enable.getLsbD n ↔ LastCall n IrqCall.Enables s.calls
  handler : ∀ n : Fin NR_IRQS, s.enable.getLsbD n →
    ∃ f, s.irqHandlerTable n = some f ∧ LastCall n (IrqCall.Gives irqDummyHandler f) s.calls
  invoked : none ∉ s.invoked

/-- The step keeps the books, and changes the mask and the table only at the line that it is
a call about. -/
def StepExact (s : IrqCtl η) (a : IrqCtlAction η) : Prop :=
  ∀ t, irqCtlStep irqDummyHandler s a = some t → Bookkept irqDummyHandler t ∧
    ∀ n : Fin NR_IRQS, (∀ c, a = .call c → c.irqn ≠ n) →
      t.enable.getLsbD n = s.enable.getLsbD n ∧ t.irqHandlerTable n = s.irqHandlerTable n

/-- `irqDisable` is called, if at all, while no line is enabled. -/
def DisablesIdle (s : IrqCtl η) : IrqCtlAction η → Prop
  | .call (.disable irqn raised) =>
      (irqCtlStep irqDummyHandler s (.call (.disable irqn raised))).isSome → s.enable = 0
  | _ => True

instance (s : IrqCtl η) : DecidablePred (DisablesIdle irqDummyHandler s)
  | .call (.disable _ _) => inferInstanceAs (Decidable (Option.isSome _ → _))
  | .call (.enable _ _) | .raise _ | .process => .isTrue trivial

/-! ### Operations and bits -/

/-- `irqEnable` sets the bit of its line. -/
private theorem getLsbD_irqEnable (s : IrqCtl η) (irqn n : Fin NR_IRQS) (handler : Option η) :
    (irqEnable irqDummyHandler s irqn handler).enable.getLsbD n =
      (s.enable.getLsbD n || decide (irqn = n)) := by
  rw [irqEnable, BitVec.getLsbD_or, bit_getLsbD n.isLt]
  simp [Fin.ext_iff, eq_comm]

/-- All that a completed `irqDisable` does: it masks with the bit of its line, and clears that bit
of the pending ones. -/
theorem irqCtlStep_disable_eq_some {s t : IrqCtl η} {irqn : Fin NR_IRQS} {raised : List U32}
    (h : irqCtlStep irqDummyHandler s (.call (.disable irqn raised)) = some t) :
    s.pc.allowsCall ∧ ∃ pending,
      clearLoop (s.enable &&& bit 32 irqn) (bit 32 irqn) s.pending raised = some pending ∧
        t = { s with
          enable := s.enable &&& bit 32 irqn
          pending
          irqHandlerTable := Function.update s.irqHandlerTable irqn none
          calls := s.calls ++ [.disable irqn raised] } := by
  simp only [irqCtlStep, irqCall, irqDisable, Option.map_map] at h
  split_ifs at h with hpc
  obtain ⟨pending, hloop, rfl⟩ := Option.map_eq_some_iff.mp h
  exact ⟨hpc, pending, hloop, rfl⟩

/-- A mask with a single bit keeps the bit of that line and no others. -/
private theorem getLsbD_and_bit (mask : U32) (irqn n : Fin NR_IRQS) :
    (mask &&& bit 32 irqn).getLsbD n = (mask.getLsbD n && decide (irqn = n)) := by
  rw [BitVec.getLsbD_and, bit_getLsbD n.isLt]
  simp [Fin.ext_iff, eq_comm]

/-- A line pending after the loop was pending before it, or is enabled. -/
private theorem clearLoop_pending {enable mask pending pending' : U32} {raised : List U32}
    (h : clearLoop enable mask pending raised = some pending') {n : ℕ}
    (hn : pending'.getLsbD n) : pending.getLsbD n ∨ enable.getLsbD n := by
  induction raised generalizing pending with
  | nil => simp [clearLoop] at h
  | cons r raised ih =>
    have hround : ((pending &&& ~~~mask) ||| (r &&& enable)).getLsbD n →
        pending.getLsbD n ∨ enable.getLsbD n := by
      simp only [BitVec.getLsbD_or, BitVec.getLsbD_and, Bool.or_eq_true, Bool.and_eq_true]
      tauto
    simp only [clearLoop] at h
    split_ifs at h
    · obtain rfl := Option.some.inj h
      exact hround hn
    · exact (ih h).elim hround Or.inr

/-- With all lines disabled, one round of the loop clears all of them. -/
private theorem clearLoop_reset {pending pending' : U32} {raised : List U32}
    (h : clearLoop 0 (~~~0) pending raised = some pending') : pending' = 0 := by
  cases raised with
  | nil => simp [clearLoop] at h
  | cons r raised =>
    simp only [clearLoop] at h
    have hclear : (pending &&& ~~~(~~~0 : U32)) ||| (r &&& 0) = 0 := by simp
    rw [hclear, if_pos (by simp)] at h
    split_ifs at h
    exact (Option.some.inj h).symm

/-! ### The invariant -/

/-- What `irqProcess` has found out so far still holds. -/
def ProcessSound (s : IrqCtl η) : Prop :=
  match s.pc with
  | .top => s.pending ≠ 0
  | .ack irqn | .call irqn => s.enable.getLsbD irqn
  | _ => True

/-- Beside the books: only enabled lines are pending, and processed. -/
structure IrqCtlInv (s : IrqCtl η) : Prop where
  books : Bookkept irqDummyHandler s
  pending : ∀ n : Fin NR_IRQS, s.pending.getLsbD n → s.enable.getLsbD n
  process : ProcessSound s

/-- After `irqReset` the bookkeeping is right. -/
private theorem irqCtlInv_reset {s t : IrqCtl η} {raised : List U32}
    (h : irqReset irqDummyHandler s raised = some t) : IrqCtlInv irqDummyHandler t := by
  obtain ⟨pending, hloop, rfl⟩ := Option.map_eq_some_iff.mp h
  obtain rfl := clearLoop_reset hloop
  refine ⟨⟨?_, ?_, ?_⟩, ?_, trivial⟩
  · intro n
    simp [LastCall]
  · intro n hn
    simp at hn
  · simp
  · intro n hn
    simp at hn

/-- A call with the line's new bit and handler keeps the books, if the other lines keep theirs. -/
theorem Bookkept.call {s t : IrqCtl η} {c : IrqCall η} (h : Bookkept irqDummyHandler s)
    (hcalls : t.calls = s.calls ++ [c]) (hinvoked : t.invoked = s.invoked)
    (hothers : ∀ n, c.irqn ≠ n → t.enable.getLsbD n = s.enable.getLsbD n ∧
      t.irqHandlerTable n = s.irqHandlerTable n)
    (henabled : t.enable.getLsbD c.irqn ↔ c.Enables)
    (hhandler : t.enable.getLsbD c.irqn →
      ∃ f, t.irqHandlerTable c.irqn = some f ∧ c.Gives irqDummyHandler f) :
    Bookkept irqDummyHandler t := by
  refine ⟨?_, ?_, hinvoked ▸ h.invoked⟩
  · intro n
    rw [hcalls, lastCall_append]
    split_ifs with hn
    · exact hn ▸ henabled
    · rw [(hothers n hn).1]
      exact h.enabled n
  · intro n hen
    simp only [hcalls, lastCall_append]
    by_cases hn : c.irqn = n
    · subst hn
      simpa only [if_true] using hhandler hen
    · rw [(hothers n hn).1] at hen
      simpa only [if_neg hn, (hothers n hn).2] using h.handler n hen

/-- What is not a call leaves the books alone, unless it invokes `NULL`. -/
theorem Bookkept.congr {s t : IrqCtl η} (h : Bookkept irqDummyHandler s)
    (henable : t.enable = s.enable) (htable : t.irqHandlerTable = s.irqHandlerTable)
    (hcalls : t.calls = s.calls) (hinvoked : none ∉ t.invoked) :
    Bookkept irqDummyHandler t := by
  refine ⟨?_, ?_, hinvoked⟩
  · rw [henable, hcalls]
    exact h.enabled
  · rw [henable, hcalls, htable]
    exact h.handler

/-- Outside of `irqProcess` there is nothing to check. -/
theorem ProcessSound.of_allowsCall {s : IrqCtl η} (h : s.pc.allowsCall) : ProcessSound s := by
  unfold ProcessSound
  rcases hpc : s.pc <;> simp_all [IrqPc.allowsCall]

/-- `irqEnable` keeps the bookkeeping and leaves other lines alone. -/
private theorem irqCtlStep_enable {s t : IrqCtl η} {irqn : Fin NR_IRQS} {handler : Option η}
    (hinv : IrqCtlInv irqDummyHandler s)
    (h : irqCtlStep irqDummyHandler s (.call (.enable irqn handler)) = some t) :
    IrqCtlInv irqDummyHandler t ∧ ∀ n, irqn ≠ n → t.enable.getLsbD n = s.enable.getLsbD n ∧
      t.irqHandlerTable n = s.irqHandlerTable n := by
  simp only [irqCtlStep, irqCall, Option.map_some] at h
  split_ifs at h with hpc
  obtain rfl := Option.some.inj h
  have hbit (n : Fin NR_IRQS) := getLsbD_irqEnable irqDummyHandler s irqn n handler
  have hothers (n : Fin NR_IRQS) (hn : irqn ≠ n) :
      (irqEnable irqDummyHandler s irqn handler).enable.getLsbD n = s.enable.getLsbD n ∧
        (irqEnable irqDummyHandler s irqn handler).irqHandlerTable n = s.irqHandlerTable n := by
    refine ⟨?_, Function.update_of_ne hn.symm _ _⟩
    rw [hbit, decide_eq_false hn, Bool.or_false]
  refine ⟨⟨?_, ?_, ProcessSound.of_allowsCall hpc⟩, hothers⟩
  · refine hinv.books.call irqDummyHandler rfl rfl hothers ?_ ?_
    · simp [IrqCall.irqn, hbit, IrqCall.Enables]
    · intro _
      exact ⟨_, Function.update_self _ _ _, rfl⟩
  · intro n hn
    simp only [hbit, hinv.pending n hn, Bool.true_or]

/-- `irqDisable` while no line is enabled does what it should. -/
private theorem irqCtlStep_disable {s t : IrqCtl η} {irqn : Fin NR_IRQS} {raised : List U32}
    (hinv : IrqCtlInv irqDummyHandler s) (hidle : s.enable = 0)
    (h : irqCtlStep irqDummyHandler s (.call (.disable irqn raised)) = some t) :
    IrqCtlInv irqDummyHandler t ∧ ∀ n, irqn ≠ n → t.enable.getLsbD n = s.enable.getLsbD n ∧
      t.irqHandlerTable n = s.irqHandlerTable n := by
  obtain ⟨hpc, pending, hloop, rfl⟩ := irqCtlStep_disable_eq_some irqDummyHandler h
  have hoff (n : Fin NR_IRQS) : (s.enable &&& bit 32 irqn).getLsbD n = false := by
    simp [hidle]
  have hothers (n : Fin NR_IRQS) (hn : irqn ≠ n) :
      (s.enable &&& bit 32 irqn).getLsbD n = s.enable.getLsbD n ∧
        Function.update s.irqHandlerTable irqn none n = s.irqHandlerTable n := by
    refine ⟨?_, Function.update_of_ne hn.symm _ _⟩
    simp [hidle]
  refine ⟨⟨?_, ?_, ProcessSound.of_allowsCall hpc⟩, hothers⟩
  · refine hinv.books.call irqDummyHandler rfl rfl hothers ?_ ?_
    · exact iff_of_false (by rw [IrqCall.irqn, hoff]; exact Bool.false_ne_true) id
    · intro hen
      rw [hoff] at hen
      contradiction
  · intro n hn
    rcases clearLoop_pending hloop hn with hold | hen
    · have := hinv.pending n hold
      simp [hidle] at this
    · exact hen

/-- `irqProcess` enables and disables nothing, and calls handlers of enabled lines only. -/
private theorem irqCtlStep_process {s t : IrqCtl η} (hinv : IrqCtlInv irqDummyHandler s)
    (h : irqProcess s = some t) :
    IrqCtlInv irqDummyHandler t ∧ t.enable = s.enable ∧ t.irqHandlerTable = s.irqHandlerTable := by
  have hsound := hinv.process
  unfold ProcessSound at hsound
  unfold irqProcess at h
  rcases hpc : s.pc with _ | _ | _ | irqn | irqn | irqn | _
  all_goals simp only [hpc, Option.some.injEq, reduceCtorEq] at h hsound; try subst h
  case idle => exact ⟨⟨⟨hinv.books.1, hinv.books.2, hinv.books.3⟩, hinv.pending, trivial⟩, rfl, rfl⟩
  case test =>
    refine ⟨⟨⟨hinv.books.1, hinv.books.2, hinv.books.3⟩, hinv.pending, ?_⟩, rfl, rfl⟩
    unfold ProcessSound
    split_ifs with hzero
    · trivial
    · exact hzero
  case top =>
    exact ⟨⟨⟨hinv.books.1, hinv.books.2, hinv.books.3⟩, hinv.pending,
      hinv.pending _ (getLsbD_topBit hsound)⟩, rfl, rfl⟩
  case ack =>
    refine ⟨⟨⟨hinv.books.1, hinv.books.2, hinv.books.3⟩, ?_, hsound⟩, rfl, rfl⟩
    intro n hn
    rw [BitVec.getLsbD_and, Bool.and_eq_true] at hn
    exact hinv.pending n hn.1
  case call =>
    -- the line is enabled, so its handler is in the table
    obtain ⟨f, hf, -⟩ := hinv.books.handler irqn hsound
    have hinvoked : none ∉ s.invoked ++ [s.irqHandlerTable irqn] := by
      simp [hf, hinv.books.invoked]
    refine ⟨⟨hinv.books.congr irqDummyHandler rfl rfl rfl hinvoked, hinv.pending, ?_⟩, rfl, rfl⟩
    simp [ProcessSound, hf]
  case handler =>
    exact ⟨⟨⟨hinv.books.1, hinv.books.2, hinv.books.3⟩, hinv.pending, trivial⟩, rfl, rfl⟩

/-! ### Every run -/

/-- **A step** keeps the bookkeeping if, being an `irqDisable`, it is made with no line enabled. -/
theorem irqCtlInv_step {s t : IrqCtl η} {a : IrqCtlAction η}
    (hinv : IrqCtlInv irqDummyHandler s) (hidle : DisablesIdle irqDummyHandler s a)
    (h : irqCtlStep irqDummyHandler s a = some t) :
    IrqCtlInv irqDummyHandler t ∧ ∀ n : Fin NR_IRQS, (∀ c, a = .call c → c.irqn ≠ n) →
      t.enable.getLsbD n = s.enable.getLsbD n ∧ t.irqHandlerTable n = s.irqHandlerTable n := by
  cases a with
  | call c =>
    cases c with
    | enable irqn handler =>
      obtain ⟨ht, hothers⟩ := irqCtlStep_enable irqDummyHandler hinv h
      exact ⟨ht, fun n hn => hothers n (hn _ rfl)⟩
    | disable irqn raised =>
      have hzero := hidle (by rw [h]; rfl)
      obtain ⟨ht, hothers⟩ := irqCtlStep_disable irqDummyHandler hinv hzero h
      exact ⟨ht, fun n hn => hothers n (hn _ rfl)⟩
  | raise lines =>
    obtain rfl := Option.some.inj h
    refine ⟨⟨⟨hinv.books.1, hinv.books.2, hinv.books.3⟩, ?_, ?_⟩, fun n _ => ⟨rfl, rfl⟩⟩
    · intro n hn
      simp only [BitVec.getLsbD_or, BitVec.getLsbD_and, Bool.or_eq_true, Bool.and_eq_true] at hn
      exact hn.elim (hinv.pending n) And.right
    · -- raising lines makes no pending one go away
      have hsound := hinv.process
      unfold ProcessSound at hsound ⊢
      rcases hpc : s.pc <;> simp_all
  | process =>
    obtain ⟨ht, henable, htable⟩ := irqCtlStep_process irqDummyHandler hinv h
    exact ⟨ht, fun n _ => ⟨by rw [henable], by rw [htable]⟩⟩

/-- A call of `irqDisable` that keeps the books finds all lines disabled. -/
private theorem disablesIdle_of_stepExact {s : IrqCtl η} {a : IrqCtlAction η}
    (h : StepExact irqDummyHandler s a) : DisablesIdle irqDummyHandler s a := by
  rcases a with ⟨_ | ⟨irqn, raised⟩⟩ | _ | _
  case call.disable =>
    intro hsome
    obtain ⟨t, ht⟩ := Option.isSome_iff_exists.mp hsome
    obtain ⟨hbooks, hothers⟩ := h t ht
    obtain ⟨-, pending, -, rfl⟩ := irqCtlStep_disable_eq_some irqDummyHandler ht
    have hbits (n : Fin NR_IRQS) : s.enable.getLsbD n = false := by
      by_cases hn : irqn = n
      · -- the line itself, which the last call disables
        have hoff := hbooks.enabled n
        rw [lastCall_append, getLsbD_and_bit, decide_eq_true hn, Bool.and_true] at hoff
        simpa [IrqCall.irqn, hn, IrqCall.Enables] using hoff
      · have hother := (hothers n fun c hc => by cases hc; exact hn).1
        simp only [getLsbD_and_bit, decide_eq_false hn, Bool.and_false] at hother
        exact hother.symm
    refine BitVec.eq_of_getLsbD_eq fun k hk => ?_
    rw [hbits ⟨k, hk⟩]
    simp
  all_goals trivial

/-- **The books are kept** in a run of calls, interrupts and interrupt processing after
`irqReset`, if and only if `irqDisable` is never called in it while a line is enabled. -/
theorem irqBookkeeping_iff (s₀ s : IrqCtl η) (raised : List U32)
    (h : irqReset irqDummyHandler s₀ raised = some s) (as : List (IrqCtlAction η)) :
    Along (irqCtlStep irqDummyHandler) (StepExact irqDummyHandler) s as ↔
      Along (irqCtlStep irqDummyHandler) (DisablesIdle irqDummyHandler) s as := by
  constructor
  · exact Along.imp fun s a => disablesIdle_of_stepExact irqDummyHandler
  · refine Along.imp_of_invariant (I := IrqCtlInv irqDummyHandler) ?_ ?_
      (irqCtlInv_reset irqDummyHandler h)
    · intro s a t hinv hidle ht
      exact (irqCtlInv_step irqDummyHandler hinv hidle ht).1
    · intro s a hinv hidle t ht
      obtain ⟨hinv', hothers⟩ := irqCtlInv_step irqDummyHandler hinv hidle ht
      exact ⟨hinv'.books, hothers⟩

end Bookkeeping

/-- The registers and the table before the first call of `irqReset`. -/
def irqCtlPowerOn : IrqCtl ℕ := ⟨0, 0, fun _ => none, .idle, [], []⟩

/-- The state after `irqReset`, where the dummy handler is 0. -/
def irqCtlBoot : IrqCtl ℕ := ⟨0, 0, fun _ => some 0, .idle, [], []⟩

/-- The timer is enabled; it interrupts, and its handler is called. -/
theorem irqBookkeeping_timer :
    irqReset 0 irqCtlPowerOn [0xFF] = some irqCtlBoot ∧
      Along (irqCtlStep 0) (StepExact 0) irqCtlBoot
        [.call (.disable 8 [0]), .call (.enable 8 (some 1)), .raise 0x100, .process, .process,
          .process, .process, .process, .process, .process] := by
  have hreset : irqReset 0 irqCtlPowerOn [0xFF] = some irqCtlBoot := rfl
  exact ⟨hreset, (irqBookkeeping_iff 0 _ _ _ hreset _).mpr (by decide)⟩

/-- Lines 3 and 5 are enabled and line 3 is disabled: then 5 is off and 3 still on, and when the
hardware raises it, `NULL` is called. -/
theorem irqBookkeeping_null :
    ∃ s t, exec (irqCtlStep 0) irqCtlBoot [.call (.enable 3 none), .call (.enable 5 none),
        .call (.disable 3 [0])] = some s ∧
      ¬ Bookkept 0 s ∧ s.enable = 8 ∧
      exec (irqCtlStep 0) s [.raise 8, .process, .process, .process, .process, .process] =
        some t ∧ t.invoked = [none] := by
  refine ⟨_, _, rfl, ?_, by decide, rfl, by decide⟩
  intro hbooks
  have hlast : LastCall 3 IrqCall.Enables
      ([.enable 3 none, .enable 5 none] ++ [.disable 3 [0]]) := (hbooks.enabled 3).mp (by decide)
  have hirqn : (IrqCall.disable 3 [0] : IrqCall ℕ).irqn = 3 := rfl
  rw [lastCall_append, if_pos hirqn] at hlast
  exact hlast

end Arm9LinuxFw
