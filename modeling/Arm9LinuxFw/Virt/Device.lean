import Arm9LinuxFw.Virt.Irq
import Arm9LinuxFw.Virt.Queue

/-!
# Devices

`virt/device.c` and the device table. A `virtDev_s` is split in two: `DevClass` holds what
`DECLARE_VIRTDEV` fixes (the device class, its features, its number of queues and the four
callbacks), `VirtDev` the registers. Queue `q` of device `d` is `vqs d q`, so the arrays of
two devices are disjoint by construction. The type `ω` is the rest of the world: guest memory,
hardware, and whatever data a device keeps for itself.

A `prQueue` callback may do anything to the state but two things, which are fields of the
class: it does not touch the pending list, and it does not change which device owns a queue
(the firmware sets owners at initialization only).
-/

namespace Arm9LinuxFw

open CircularList

/-! ### The device table -/

/-- The registers of a `virtDev_s`. -/
structure VirtDev where
  id : U32
  status : U16
  cfg : U32
  driverFeat : U64
  deriving DecidableEq

/-- The state of the firmware, over a rest of the world `ω`. -/
structure Fw (ω : Type*) where
  devs : ℕ → VirtDev
  vqs : ℕ → ℕ → VirtQueue
  links : Links ListNode
  virq : VirtIrq
  ext : ω

/-- The part of a `virtDev_s` that never changes. -/
structure DevClass (ω : Type*) where
  devId : U16
  deviceFeat : U64
  vqn : ℕ
  hardReset : ω → ω
  rdCfg : U32 → ω → U8 × ω
  wrCfg : U32 → U8 → ω → ω
  /-- called with the device and with the queue, the latter named by its place in the table -/
  prQueue : ℕ → ℕ × ℕ → Fw ω → Fw ω
  prQueue_links : ∀ v q w, (prQueue v q w).links = w.links
  prQueue_owner : ∀ v q w d i, ((prQueue v q w).vqs d i).owner = (w.vqs d i).owner

/-- The device table `__vdev_s`: `count` devices, with whatever memory follows them. -/
structure DevTable (ω : Type*) where
  count : ℕ
  dev : ℕ → DevClass ω
  count_le : count ≤ 128
  vqn_le : ∀ d < count, (dev d).vqn ≤ 128

variable {ω : Type*}

/-- The state with queue `q` of device `d` and its links replaced. -/
def Fw.setQueue (w : Fw ω) (d q : ℕ) (r : Links ListNode × VirtQueue) : Fw ω :=
  { w with
    links := r.1
    vqs := Function.update w.vqs d (Function.update (w.vqs d) q r.2) }

/-- The state with the registers of device `d` replaced. -/
def Fw.setDev (w : Fw ω) (d : ℕ) (v : VirtDev) : Fw ω :=
  { w with devs := Function.update w.devs d v }

section Setters

variable (w : Fw ω) (d q : ℕ) (r : Links ListNode × VirtQueue) (v : VirtDev)

@[simp] theorem Fw.setQueue_links : (w.setQueue d q r).links = r.1 := rfl
@[simp] theorem Fw.setQueue_devs : (w.setQueue d q r).devs = w.devs := rfl
@[simp] theorem Fw.setQueue_virq : (w.setQueue d q r).virq = w.virq := rfl
@[simp] theorem Fw.setQueue_ext : (w.setQueue d q r).ext = w.ext := rfl
@[simp] theorem Fw.setDev_links : (w.setDev d v).links = w.links := rfl
@[simp] theorem Fw.setDev_vqs : (w.setDev d v).vqs = w.vqs := rfl
@[simp] theorem Fw.setDev_virq : (w.setDev d v).virq = w.virq := rfl
@[simp] theorem Fw.setDev_ext : (w.setDev d v).ext = w.ext := rfl

theorem Fw.setQueue_vqs (d' q' : ℕ) : (w.setQueue d q r).vqs d' q' =
    if d' = d ∧ q' = q then r.2 else w.vqs d' q' := by
  by_cases hd : d' = d <;> by_cases hq : q' = q <;> simp [setQueue, hd, hq]

end Setters

/-! ### Reset and initialization -/

/-- The loop `for (i = 0; i < vqn; i++) virtQueueReset(&vdev->vqs[i])`, its first `n` rounds. -/
def resetQueues (d : ℕ) : ℕ → Fw ω → Fw ω
  | 0, w => w
  | n + 1, w =>
      let w := resetQueues d n w
      w.setQueue d n (virtQueueReset w.links (.vq d n) (w.vqs d n))

/-- The loop `for (q = 0; q < vqn; q++) virtQueueInit(&vdev->vqs[q], i, q)`, its first `n`
rounds. -/
def initQueues (d : ℕ) : ℕ → Fw ω → Fw ω
  | 0, w => w
  | n + 1, w =>
      let w := initQueues d n w
      w.setQueue d n (virtQueueInit w.links (.vq d n) (w.vqs d n) d n)

/-- `virtDevReset`. -/
def virtDevReset (T : DevTable ω) (d : ℕ) (w : Fw ω) : Fw ω :=
  let w := w.setDev d { w.devs d with status := 0, cfg := 0, driverFeat := 0 }
  let w := resetQueues d (T.dev d).vqn w
  { w with ext := (T.dev d).hardReset w.ext }

/-- `virtDevInit`. -/
def virtDevInit (T : DevTable ω) (d : ℕ) (w : Fw ω) : Fw ω :=
  let w := w.setDev d { w.devs d with id := BitVec.ofNat 32 d }
  virtDevReset T d (initQueues d (T.dev d).vqn w)

/-! ### Device registers -/

/-- `VIRTDEV_DEFAULT_VENDOR` -/
def VIRTDEV_DEFAULT_VENDOR : U32 := 0x464C4F57

/-- `enum DeviceRegisters`. -/
inductive DeviceRegisters
  | deviceID
  | vendorID
  | status
  | deviceFeaturesLo
  | deviceFeaturesHi
  | driverFeaturesLo
  | driverFeaturesHi
  | configGeneration
  deriving DecidableEq

/-- The device register with number `reg`, if there is one. -/
def DeviceRegisters.ofReg (reg : U32) : Option DeviceRegisters :=
  match reg.toNat with
  | 0x00 => some deviceID
  | 0x01 => some vendorID
  | 0x02 => some status
  | 0x03 => some deviceFeaturesLo
  | 0x04 => some deviceFeaturesHi
  | 0x05 => some driverFeaturesLo
  | 0x06 => some driverFeaturesHi
  | 0x07 => some configGeneration
  | _ => none

/-- `virtDevInternalRegRead`. -/
def virtDevInternalRegRead (cls : DevClass ω) (v : VirtDev) (reg : U32) : U32 :=
  match DeviceRegisters.ofReg reg with
  | some .deviceID => cls.devId.setWidth 32
  | some .vendorID => VIRTDEV_DEFAULT_VENDOR
  | some .status => v.status.setWidth 32
  | some .deviceFeaturesLo => cls.deviceFeat.extractLsb' 0 32
  | some .deviceFeaturesHi => cls.deviceFeat.extractLsb' 32 32
  | some .driverFeaturesLo => v.driverFeat.extractLsb' 0 32
  | some .driverFeaturesHi => v.driverFeat.extractLsb' 32 32
  | some .configGeneration => v.cfg
  | none => 0

/-- `virtDevInternalRegWrite`. -/
def virtDevInternalRegWrite (v : VirtDev) (reg val : U32) : VirtDev :=
  match DeviceRegisters.ofReg reg with
  | some .status => { v with status := val.setWidth 16 }
  | some .driverFeaturesLo => { v with driverFeat := v.driverFeat.extractLsb' 32 32 ++ val }
  | some .driverFeaturesHi => { v with driverFeat := val ++ v.driverFeat.extractLsb' 0 32 }
  | _ => v

/-- `virtDevGetQueue`: the number of the queue, if the device has it. -/
def virtDevGetQueue (cls : DevClass ω) (i : U32) : Option ℕ :=
  if i.toNat < cls.vqn then some i.toNat else none

/-- `virtDevQueueRegRead`. -/
def virtDevQueueRegRead (T : DevTable ω) (w : Fw ω) (d : ℕ) (vqn reg : U32) : U32 :=
  match virtDevGetQueue (T.dev d) vqn with
  | none => 0
  | some q => virtQueueRegRead (w.vqs d q) reg

/-- `virtDevQueueRegWrite`. -/
def virtDevQueueRegWrite (T : DevTable ω) (w : Fw ω) (d : ℕ) (vqn reg val : U32) : Fw ω :=
  match virtDevGetQueue (T.dev d) vqn with
  | none => w
  | some q => w.setQueue d q (virtQueueRegWrite w.links (.vq d q) (w.vqs d q) reg val)

end Arm9LinuxFw
