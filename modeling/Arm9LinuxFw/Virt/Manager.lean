import Arm9LinuxFw.Virt.Device

/-!
# The device manager

`virt/manager.c`, over a table of devices.

* `virtDevInitAll` initializes the pending list, the virtual interrupts and all devices in the order
  of the table.
* `virtManagerDecodeReg` takes a register number apart; `virtDevReadReg` and `virtDevWriteReg` pass
  an access on to the manager's own registers, to a device, to its configuration space or to one of
  its queues. Accesses to what there is not are ignored, and read as 0.
* `virtManagerProcessPending` takes the first queue off the pending list and calls the `prQueue` of
  its owner, or returns false. It runs in a critical section, so it is one step here; `Manager`
  and `Service` take it apart where that matters.
-/

namespace Arm9LinuxFw

open CircularList

variable {ω : Type*} (T : DevTable ω)

/-- `virtDevGet`: the place of device `n` in the table, if there is one. -/
def virtDevGet (n : U32) : Option ℕ := if n.toNat < T.count then some n.toNat else none

/-- The loop over the devices of `virtDevInitAll`, its first `n` rounds. -/
def initDevs : ℕ → Fw ω → Fw ω
  | 0, w => w
  | n + 1, w => virtDevInit T n (initDevs n w)

/-- `virtDevInitAll`. -/
def virtDevInitAll (w : Fw ω) : Fw ω :=
  initDevs T T.count
    { w with virq := virtIrqReset, links := listNodeInit w.links .vqueuePendingList }

/-! ### Registers -/

/-- `VIRT_MANAGER_VERSION` -/
def VIRT_MANAGER_VERSION : U32 := 1

/-- `enum VirtRegType`. -/
inductive VirtRegType
  | deviceReg
  | configReg
  | queueReg
  | managerReg
  deriving DecidableEq

/-- `virtManagerDecodeReg`: the type of a register, and its number within that type. -/
def virtManagerDecodeReg (reg : U32) : VirtRegType × U32 :=
  (match (reg &&& 0x03).toNat with
    | 0 => .deviceReg
    | 1 => .configReg
    | 2 => .queueReg
    | _ => .managerReg,
   reg >>> 2)

/-- `virtManagerRegRead`. -/
def virtManagerRegRead (w : Fw ω) (reg : U32) : U32 × Fw ω :=
  match reg.toNat with
  | 0 => (VIRT_MANAGER_VERSION, w)
  | 1 => (BitVec.ofNat 32 T.count, w)
  | 8 | 9 | 10 | 11 =>
      let (v, virq) := virtIrqGet w.virq (reg - 8) VIRQ_VQUEUE
      (v, { w with virq := virq })
  | 12 | 13 | 14 | 15 =>
      let (v, virq) := virtIrqGet w.virq (reg - 12) VIRQ_CONFIG
      (v, { w with virq := virq })
  | _ => (0, w)

/-- `virtDevReadReg`. -/
def virtDevReadReg (w : Fw ω) (dev reg : U32) : U32 × Fw ω :=
  let (rtype, reg) := virtManagerDecodeReg reg
  -- manager registers ignore the device field
  if rtype = .managerReg then virtManagerRegRead T w reg
  else
    match virtDevGet T dev with
    | none => (0, w)
    | some d =>
        match rtype with
        | .deviceReg => (virtDevInternalRegRead (T.dev d) (w.devs d) reg, w)
        | .configReg =>
            let (v, ext) := (T.dev d).rdCfg reg w.ext
            (v.setWidth 32, { w with ext := ext })
        | .queueReg => (virtDevQueueRegRead T w d (reg &&& 0x7F) (reg >>> 7), w)
        | .managerReg => (0, w)

/-- `virtDevWriteReg`. Writes of manager registers are ignored. -/
def virtDevWriteReg (w : Fw ω) (dev reg val : U32) : Fw ω :=
  let (rtype, reg) := virtManagerDecodeReg reg
  if rtype = .managerReg then w
  else
    match virtDevGet T dev with
    | none => w
    | some d =>
        match rtype with
        | .deviceReg => w.setDev d (virtDevInternalRegWrite (w.devs d) reg val)
        | .configReg => { w with ext := (T.dev d).wrCfg reg (val.setWidth 8) w.ext }
        | .queueReg => virtDevQueueRegWrite T w d (reg &&& 0x7F) (reg >>> 7) val
        | .managerReg => w

/-! ### Pending queues -/

/-- `virtQueueOwner`: the place in the table of the device that owns a queue. -/
def virtQueueOwner (vq : VirtQueue) : ℕ := vq.owner.toNat

/-- The critical section of `virtManagerProcessPending`: false when the pending list is
empty, otherwise its first queue is removed and handed to the device that owns it. -/
def virtManagerProcessPending (w : Fw ω) : Bool × Fw ω :=
  if listEmpty w.links .vqueuePendingList then (false, w)
  else
    let nextVq := listHead w.links .vqueuePendingList
    let w := { w with links := listRemove w.links nextVq }
    match nextVq with
    -- the list head is no queue
    | .vqueuePendingList => (true, w)
    | .vq d q =>
        (true, (T.dev (virtQueueOwner (w.vqs d q))).prQueue (virtQueueOwner (w.vqs d q)) (d, q) w)

end Arm9LinuxFw
