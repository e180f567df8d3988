import Arm9LinuxFw.Sys.Event

/-!
# Virtual interrupts

`virt/irq.c`: a bitmap of pending virtual interrupts, one bit per device and mode, and an
event that remembers whether the host still has to be told.

* `virtIrqSet` sets the bit of a device, unless there is no such device or mode, and
  triggers the event; `virtIrqGet` returns and clears a bank of 32 bits.
* `virtIrqSync` interrupts the host if the event is up.
* `virtDevNotifyHost` is the two of them, as devices call it.

`trace` is a history variable: it records, oldest first, which bits were set, which banks were read
and cleared, and when `pxiTriggerSync` was issued; no function of the firmware reads it.
-/

namespace Arm9LinuxFw

/-- `VIRQ_MAX`. -/
def VIRQ_MAX : ℕ := 128

/-- `VIRQ_BANKS`. -/
abbrev VIRQ_BANKS : ℕ := 4

/-- `VIRQ_MODES`. -/
abbrev VIRQ_MODES : ℕ := 2

example : VIRQ_BANKS = VIRQ_MAX / 32 := rfl

/-- `VIRQ_VQUEUE`: there are new buffers to process in a queue. -/
def VIRQ_VQUEUE : U32 := 0

/-- `VIRQ_CONFIG`: the device configuration changed. -/
def VIRQ_CONFIG : U32 := 1

/-- What the subsystem did, as an observer sees it. -/
inductive VirtIrqEvent
  /-- `pendingVirq[mode][bank] |= bits` -/
  | set (mode : Fin VIRQ_MODES) (bank : Fin VIRQ_BANKS) (bits : U32)
  /-- `pendingVirq[mode][bank]` was read and cleared -/
  | get (mode : Fin VIRQ_MODES) (bank : Fin VIRQ_BANKS)
  /-- `pxiTriggerSync` -/
  | trigger
  deriving DecidableEq

/-- The static state of `virt/irq.c`. -/
structure VirtIrq where
  eventVirq : EventT
  pendingVirq : Fin VIRQ_MODES → Fin VIRQ_BANKS → U32
  trace : List VirtIrqEvent

/-- `virtIrqReset`. The history starts anew. -/
def virtIrqReset : VirtIrq where
  eventVirq := eventInitialize
  pendingVirq _ _ := 0
  trace := []

/-- `virtIrqSet`. -/
def virtIrqSet (s : VirtIrq) (devId mode : U32) : U32 × VirtIrq :=
  let bankId := devId / 32
  let bitOff : U32 := bit 32 (devId % 32).toNat
  if h : bankId.toNat < VIRQ_BANKS ∧ mode.toNat < VIRQ_MODES then
    let b : Fin VIRQ_BANKS := ⟨bankId.toNat, h.1⟩
    let m : Fin VIRQ_MODES := ⟨mode.toNat, h.2⟩
    let ret := s.pendingVirq m b
    -- the event is triggered even if the bit is pending already
    (ret, { eventVirq := eventTrigger
            pendingVirq := Function.update s.pendingVirq m
              (Function.update (s.pendingVirq m) b (ret ||| bitOff))
            trace := s.trace ++ [.set m b bitOff] })
  else (0, s)

/-- `virtIrqGet`. -/
def virtIrqGet (s : VirtIrq) (bankId mode : U32) : U32 × VirtIrq :=
  if h : bankId.toNat < VIRQ_BANKS ∧ mode.toNat < VIRQ_MODES then
    let b : Fin VIRQ_BANKS := ⟨bankId.toNat, h.1⟩
    let m : Fin VIRQ_MODES := ⟨mode.toNat, h.2⟩
    (s.pendingVirq m b,
      { s with pendingVirq := Function.update s.pendingVirq m
                 (Function.update (s.pendingVirq m) b 0)
               trace := s.trace ++ [.get m b] })
  else (0, s)

/-- `virtIrqSync`. -/
def virtIrqSync (s : VirtIrq) : VirtIrq :=
  -- the test lowers the flag, so a second sync stays silent
  let (triggered, ev) := eventTest s.eventVirq
  { s with eventVirq := ev
           trace := if triggered then s.trace ++ [.trigger] else s.trace }

/-- `virtDevNotifyHost`, of the device with the internal identifier `devId`. -/
def virtDevNotifyHost (s : VirtIrq) (devId mode : U32) : VirtIrq :=
  virtIrqSync (virtIrqSet s devId mode).2

end Arm9LinuxFw
