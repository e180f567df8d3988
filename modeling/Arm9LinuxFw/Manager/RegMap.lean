import Arm9LinuxFw.Manager.Boot

/-!
# The register map

A register number is cut into fields by three functions, and what it selects is a field of a
device or of a queue.

* `virtManagerDecodeReg_eq` gives the fields as numbers: the low two bits are the kind of register,
  for a queue register the next seven are the queue, and the rest is the register in its group.
  `DeviceRegisters.num` and `QueueRegisters.num` are the numbers of the registers.
* `DevField` and `QueueField` name the fields of the two structures that registers stand for, and
  `RegCell` is a field of one device or queue of the firmware.
* `regTarget` says, in terms of the number alone, which one field a write can change, or which queue
  it puts on the pending list. Registers that are read-only, or that no device or queue has, have
  no target.
* A value is cut to the width of its field (`DevField.cut`); the 64-bit addresses of the
  rings come in two halves, of which the firmware drops the upper one. The lemmas at the end are
  about a write of one field: it has the value cut, and the other fields are as they were.

`Registers` puts these together into statements about all registers, and about runs.
-/

namespace Arm9LinuxFw

open CircularList

variable {ω : Type*} {T : DevTable ω}

/-! ### Decoding -/

section Decoding

variable (reg : U32)

theorem toNat_shiftRight_two : (reg >>> 2).toNat = reg.toNat / 4 := by
  rw [BitVec.toNat_ushiftRight, Nat.shiftRight_eq_div_pow]

/-- The queue of a queue register. -/
theorem toNat_queueNumber : (reg >>> 2 &&& 0x7F).toNat = reg.toNat / 4 % 128 := by
  rw [BitVec.toNat_and, toNat_shiftRight_two]
  exact Nat.and_two_pow_sub_one_eq_mod _ 7

/-- The number of a queue register within its queue. -/
theorem toNat_queueRegister : (reg >>> 2 >>> 7).toNat = reg.toNat / 512 := by
  rw [BitVec.toNat_ushiftRight, toNat_shiftRight_two, Nat.shiftRight_eq_div_pow,
    Nat.div_div_eq_div_mul]

/-- The two low bits say what kind of register it is. -/
theorem virtManagerDecodeReg_eq : virtManagerDecodeReg reg =
    (match reg.toNat % 4 with
      | 0 => .deviceReg
      | 1 => .configReg
      | 2 => .queueReg
      | _ => .managerReg, reg >>> 2) := by
  have htype : reg.toNat % 4 = (reg &&& 0x03).toNat := by
    rw [BitVec.toNat_and]
    exact (Nat.and_two_pow_sub_one_eq_mod _ 2).symm
  rw [htype]
  rfl

theorem virtManagerDecodeReg_of_manager {reg : U32} (h : reg.toNat % 4 = 3) :
    virtManagerDecodeReg reg = (.managerReg, reg >>> 2) := by
  simp only [virtManagerDecodeReg_eq, h]

end Decoding

/-- The number of a device register. -/
def DeviceRegisters.num : DeviceRegisters → ℕ
  | deviceID => 0x00
  | vendorID => 0x01
  | status => 0x02
  | deviceFeaturesLo => 0x03
  | deviceFeaturesHi => 0x04
  | driverFeaturesLo => 0x05
  | driverFeaturesHi => 0x06
  | configGeneration => 0x07

theorem DeviceRegisters.ofReg_eq_some {reg : U32} {r : DeviceRegisters} :
    ofReg reg = some r ↔ reg.toNat = r.num := by
  unfold ofReg
  split <;> cases r <;> simp_all [num]

private theorem DeviceRegisters.ofReg_eq_none {reg : U32} : ofReg reg = none ↔ 7 < reg.toNat := by
  unfold ofReg
  split <;> simp_all
  grind

/-- The number of a queue register. -/
def QueueRegisters.num : QueueRegisters → ℕ
  | queueNumMax => 0x00
  | queueNumCurrent => 0x01
  | queueReady => 0x02
  | queueNotify => 0x03
  | queueDesc => 0x04
  | queueAvail => 0x05
  | queueUsed => 0x06

theorem QueueRegisters.ofReg_eq_some {reg : U32} {r : QueueRegisters} :
    ofReg reg = some r ↔ reg.toNat = r.num := by
  unfold ofReg
  split <;> cases r <;> simp_all [num]

/-- A register of a device that there is. -/
theorem virtDevWriteReg_device (w : Fw ω) {dev reg : U32} (val : U32)
    (hd : dev.toNat < T.count) (htype : reg.toNat % 4 = 0) :
    virtDevWriteReg T w dev reg val =
      w.setDev dev.toNat (virtDevInternalRegWrite (w.devs dev.toNat) (reg >>> 2) val) := by
  simp only [virtDevWriteReg, virtManagerDecodeReg_eq, htype, reduceCtorEq, if_false, virtDevGet,
    if_pos hd]

/-- A register of a queue that there is. -/
theorem virtDevWriteReg_queue (w : Fw ω) {dev reg : U32} (val : U32)
    (hq : T.HasQueue dev.toNat (reg.toNat / 4 % 128)) (htype : reg.toNat % 4 = 2) :
    virtDevWriteReg T w dev reg val =
      w.setQueue dev.toNat (reg.toNat / 4 % 128)
        (virtQueueRegWrite w.links (.vq dev.toNat (reg.toNat / 4 % 128))
          (w.vqs dev.toNat (reg.toNat / 4 % 128)) (reg >>> 2 >>> 7) val) := by
  simp only [virtDevWriteReg, virtManagerDecodeReg_eq, htype, reduceCtorEq, if_false, virtDevGet,
    if_pos hq.1, virtDevQueueRegWrite, virtDevGetQueue, toNat_queueNumber, if_pos hq.2]

theorem virtDevReadReg_device (w : Fw ω) {dev reg : U32} (hd : dev.toNat < T.count)
    (htype : reg.toNat % 4 = 0) : virtDevReadReg T w dev reg =
      (virtDevInternalRegRead (T.dev dev.toNat) (w.devs dev.toNat) (reg >>> 2), w) := by
  simp only [virtDevReadReg, virtManagerDecodeReg_eq, htype, reduceCtorEq, if_false, virtDevGet,
    if_pos hd]

theorem virtDevReadReg_queue (w : Fw ω) {dev reg : U32}
    (hq : T.HasQueue dev.toNat (reg.toNat / 4 % 128)) (htype : reg.toNat % 4 = 2) :
    virtDevReadReg T w dev reg =
      (virtQueueRegRead (w.vqs dev.toNat (reg.toNat / 4 % 128)) (reg >>> 2 >>> 7), w) := by
  simp only [virtDevReadReg, virtManagerDecodeReg_eq, htype, reduceCtorEq, if_false, virtDevGet,
    if_pos hq.1, virtDevQueueRegRead, virtDevGetQueue, toNat_queueNumber, if_pos hq.2]

/-! ### Fields -/

/-- The fields of the registers of a device. -/
inductive DevField
  | id
  | status
  | cfg
  | driverFeatLo
  | driverFeatHi
  deriving DecidableEq

/-- The fields of a queue, less its list node. -/
inductive QueueField
  | owner
  | id
  | ready
  | sizeMask
  | availIdx
  | usedIdx
  | qDesc
  | qAvail
  | qUsed
  | priv
  deriving DecidableEq

/-- The fields of all devices and queues. -/
inductive RegCell
  | dev (d : ℕ) (f : DevField)
  | queue (d q : ℕ) (f : QueueField)
  deriving DecidableEq

def DevField.value (v : VirtDev) : DevField → U32
  | id => v.id
  | status => v.status.setWidth 32
  | cfg => v.cfg
  | driverFeatLo => v.driverFeat.extractLsb' 0 32
  | driverFeatHi => v.driverFeat.extractLsb' 32 32

def QueueField.value (vq : VirtQueue) : QueueField → U32
  | owner => vq.owner.setWidth 32
  | id => vq.id.setWidth 32
  | ready => vq.ready.setWidth 32
  | sizeMask => vq.sizeMask.setWidth 32
  | availIdx => vq.availIdx.setWidth 32
  | usedIdx => vq.usedIdx.setWidth 32
  | qDesc => vq.qDesc
  | qAvail => vq.qAvail
  | qUsed => vq.qUsed
  | priv => vq.priv

def RegCell.value (w : Fw ω) : RegCell → U32
  | dev d f => f.value (w.devs d)
  | queue d q f => f.value (w.vqs d q)

/-- What a write can change. -/
inductive RegTarget
  | cell (c : RegCell)
  /-- whether queue `q` of device `d` is on the pending list -/
  | notify (d q : ℕ)
  deriving DecidableEq

/-- The field that device register `n` writes. -/
def DevField.written : ℕ → Option DevField
  | 2 => some status
  | 5 => some driverFeatLo
  | 6 => some driverFeatHi
  | _ => none

/-- The field that queue register `n` writes. -/
def QueueField.written : ℕ → Option QueueField
  | 1 => some sizeMask
  | 2 => some ready
  | 4 => some qDesc
  | 5 => some qAvail
  | 6 => some qUsed
  | _ => none

/-- No two registers write one field. -/
theorem QueueField.written_inj {m n : ℕ} {f : QueueField} (hm : written m = some f)
    (hn : written n = some f) : m = n := by
  unfold written at hm hn
  split at hm <;> split at hn <;> first | rfl | cases hm <;> cases hn

variable (T) in
/-- What a write to register `reg` of device `dev` can change, if anything. -/
def regTarget (dev reg : U32) : Option RegTarget :=
  let d := dev.toNat
  let q := reg.toNat / 4 % 128
  if d < T.count then
    match reg.toNat % 4 with
    | 0 => (DevField.written (reg.toNat / 4)).map fun f => .cell (.dev d f)
    | 2 =>
        if q < (T.dev d).vqn then
          if reg.toNat / 512 = 3 then some (.notify d q)
          else (QueueField.written (reg.toNat / 512)).map fun f => .cell (.queue d q f)
        else none
    | _ => none
  else none

/-! ### Writing one field -/

/-- A write of a device register that writes no field. -/
theorem virtDevInternalRegWrite_of_none (v : VirtDev) {reg : U32} (val : U32)
    (h : DevField.written reg.toNat = none) : virtDevInternalRegWrite v reg val = v := by
  rw [virtDevInternalRegWrite]
  rcases hr : DeviceRegisters.ofReg reg with _ | r
  · rfl
  · rw [DeviceRegisters.ofReg_eq_some] at hr
    rw [hr] at h
    cases r <;> first | rfl | cases h

@[simp]
theorem extractLsb'_append_hi (hi lo : U32) : (hi ++ lo).extractLsb' 32 32 = hi := by
  rw [BitVec.extractLsb'_append_eq_of_le le_rfl]
  exact BitVec.extractLsb'_eq_self

@[simp]
theorem extractLsb'_append_lo (hi lo : U32) : (hi ++ lo).extractLsb' 0 32 = lo := by
  rw [BitVec.extractLsb'_append_eq_of_add_le le_rfl]
  exact BitVec.extractLsb'_eq_self

/-- A value as a device field keeps it. -/
def DevField.cut (val : U32) : DevField → U32
  | status => (val.setWidth 16).setWidth 32
  | _ => val

/-- A write of a device register writes one field. -/
theorem virtDevInternalRegWrite_value (v : VirtDev) (reg val : U32) (f : DevField) :
    f.value (virtDevInternalRegWrite v reg val) =
      if DevField.written reg.toNat = some f then f.cut val else f.value v := by
  rw [virtDevInternalRegWrite]
  rcases hr : DeviceRegisters.ofReg reg with _ | r
  · have hnone : DevField.written reg.toNat = none := by
      rw [DeviceRegisters.ofReg_eq_none] at hr
      unfold DevField.written
      split <;> first | omega | rfl
    rw [hnone, if_neg (by simp)]
  · rw [DeviceRegisters.ofReg_eq_some] at hr
    rw [hr]
    cases r <;> cases f <;>
      simp [DeviceRegisters.num, DevField.written, DevField.value, DevField.cut]

/-- A read of a device register that writes a field returns the field. -/
theorem virtDevInternalRegRead_value (cls : DevClass ω) (v : VirtDev) {reg : U32} {f : DevField}
    (h : DevField.written reg.toNat = some f) :
    virtDevInternalRegRead cls v reg = f.value v := by
  unfold DevField.written at h
  split at h
  case h_1 hreg | h_2 hreg | h_3 hreg =>
    obtain rfl := Option.some.inj h
    simp only [virtDevInternalRegRead, DeviceRegisters.ofReg, hreg, DevField.value]
  case h_4 => cases h

/-- The fields that hold the last value written. -/
def QueueField.Plain : QueueField → Prop
  | qDesc | qAvail | qUsed => True
  | _ => False

/-- A write of a queue register that writes no field. -/
theorem virtQueueRegWrite_of_none (l : Links ListNode) (node : ListNode) (vq : VirtQueue)
    {reg : U32} (val : U32) (h : QueueField.written reg.toNat = none) :
    (virtQueueRegWrite l node vq reg val).2 = vq := by
  rw [virtQueueRegWrite]
  rcases hr : QueueRegisters.ofReg reg with _ | r
  · rfl
  · rw [QueueRegisters.ofReg_eq_some] at hr
    rw [hr] at h
    cases r <;> first | rfl | cases h

private theorem virtQueueSetDescCount_other (vq : VirtQueue) (val : U32) {f : QueueField}
    (h : f ≠ .sizeMask) : f.value (virtQueueSetDescCount vq val) = f.value vq := by
  rw [virtQueueSetDescCount]
  split_ifs <;> cases f <;> first | rfl | exact absurd rfl h

/-- A write of a queue register writes one field at most. -/
theorem virtQueueRegWrite_other (l : Links ListNode) (node : ListNode) (vq : VirtQueue)
    {reg : U32} (val : U32) {f : QueueField} (h : QueueField.written reg.toNat ≠ some f) :
    f.value (virtQueueRegWrite l node vq reg val).2 = f.value vq := by
  rw [virtQueueRegWrite]
  rcases hr : QueueRegisters.ofReg reg with _ | r
  · rfl
  · rw [QueueRegisters.ofReg_eq_some] at hr
    rw [hr] at h
    cases r with
    | queueNumMax => rfl
    | queueNumCurrent => exact virtQueueSetDescCount_other vq val fun hf => h (by rw [hf]; rfl)
    | queueNotify => rfl
    | queueReady =>
      simp only
      split_ifs
      · cases f <;> first | rfl | exact absurd rfl h
      · rfl
    | queueDesc | queueAvail | queueUsed => cases f <;> first | rfl | exact absurd rfl h

/-- The registers of the addresses hold the value written, and read as it. -/
theorem virtQueueRegWrite_plain (l : Links ListNode) (node : ListNode) (vq : VirtQueue)
    {reg : U32} (val : U32) {f : QueueField} (hf : f.Plain)
    (h : QueueField.written reg.toNat = some f) :
    f.value (virtQueueRegWrite l node vq reg val).2 = val ∧
      virtQueueRegRead vq reg = f.value vq := by
  unfold QueueField.written at h
  split at h
  case h_1 | h_2 =>
    obtain rfl := Option.some.inj h
    exact absurd hf id
  case h_3 hreg | h_4 hreg | h_5 hreg =>
    obtain rfl := Option.some.inj h
    simp only [virtQueueRegWrite, virtQueueRegRead, QueueRegisters.ofReg, hreg, QueueField.value,
      true_and]
  case h_6 => cases h

end Arm9LinuxFw
