import Arm9LinuxFw.Common
import Arm9LinuxFw.Sys.List

/-!
# Virtqueues

`virt/queue.c`: the queue object, its registers, and the operations on the three rings a
driver shares with the firmware. The rings live in guest memory at driver-chosen addresses;
`vqDescAt`, `vqAvailLast`, `vqAvailRing`, `vqUsedLast` and `vqUsedRing` are the fields of
`vqDesc_s`, `vqAvail_s` and `vqUsed_s` at their byte offsets.

The list node embedded in a queue is named by a `ListNode`; its links live in the heap of
links the list primitives work on. The functions that read the descriptor table or a data
buffer go through a `Bus`, which remembers the accesses made; nothing the firmware computes
depends on that record.
-/

namespace Arm9LinuxFw

open CircularList ByteMem

/-! ### Pending list nodes -/

/-- The list nodes of the firmware: the head `vqueuePendingList`, and the node embedded in
queue `q` of device `dev`. -/
inductive ListNode
  | vqueuePendingList
  | vq (dev q : ℕ)
  deriving DecidableEq

/-- `virtManagerAddPending`: false when the queue was on the list already. -/
def virtManagerAddPending (l : Links ListNode) (node : ListNode) : Bool × Links ListNode :=
  listAppendIfNotEmbedded l node .vqueuePendingList

/-! ### Guest memory accesses -/

/-- What a processing loop does to the outside, as an observer of its bus sees it. -/
inductive Event
  /-- a load of entry `i` of the descriptor table -/
  | desc (i : U16)
  /-- a load of `n` bytes of a data buffer at `a` -/
  | load (a : U32) (n : ℕ)
  /-- a store of `n` bytes to a data buffer at `a` -/
  | store (a : U32) (n : ℕ)
  /-- a call `sdmmc_sdcard_readsectors(sector, count, out)` that returned `ret` -/
  | readsectors (sector count out : U32) (ret : ℤ)
  /-- a call of `virtQueueFetchAvailFirst` that returned `ret` -/
  | fetched (ret : ℤ)
  /-- a call of `virtQueuePushUsed(first, len)` -/
  | pushed (first : U16) (len : U32)
  deriving DecidableEq

/-- Guest memory with the record of the accesses made, oldest first. -/
structure Bus where
  mem : Mem
  log : List Event

/-- Record an event. -/
def Bus.emit (b : Bus) (e : Event) : Bus := { b with log := b.log ++ [e] }

/-! ### The queue object -/

/-- `VIRTQUEUE_MAX_DESC`: each virtqueue can only hold up to 32k items. -/
def VIRTQUEUE_MAX_DESC : U32 := 32768

/-- `virtQueue_s`, less its list node. -/
structure VirtQueue where
  owner : U8
  id : BitVec 7
  ready : BitVec 1
  sizeMask : U16
  availIdx : U16
  usedIdx : U16
  qDesc : U32
  qAvail : U32
  qUsed : U32
  priv : U32
  deriving DecidableEq

/-- `virtQueueReset`. -/
def virtQueueReset (l : Links ListNode) (node : ListNode) (vq : VirtQueue) :
    Links ListNode × VirtQueue :=
  (listRemove l node,
    { vq with
      ready := 0
      sizeMask := 0
      availIdx := 0
      usedIdx := 0
      qDesc := 0
      qAvail := 0
      qUsed := 0 })

/-- `virtQueueInit`. -/
def virtQueueInit (l : Links ListNode) (node : ListNode) (vq : VirtQueue) (owner i : ℕ) :
    Links ListNode × VirtQueue :=
  virtQueueReset (listNodeInit l node) node
    { vq with owner := BitVec.ofNat 8 owner, id := BitVec.ofNat 7 i }

/-! ### Queue registers -/

/-- `enum QueueRegisters`. -/
inductive QueueRegisters
  | queueNumMax
  | queueNumCurrent
  | queueReady
  | queueNotify
  | queueDesc
  | queueAvail
  | queueUsed
  deriving DecidableEq

/-- The queue register with number `reg`, if there is one. -/
def QueueRegisters.ofReg (reg : U32) : Option QueueRegisters :=
  match reg.toNat with
  | 0x00 => some queueNumMax
  | 0x01 => some queueNumCurrent
  | 0x02 => some queueReady
  | 0x03 => some queueNotify
  | 0x04 => some queueDesc
  | 0x05 => some queueAvail
  | 0x06 => some queueUsed
  | _ => none

/-- `virtQueueRegRead`. -/
def virtQueueRegRead (vq : VirtQueue) (reg : U32) : U32 :=
  match QueueRegisters.ofReg reg with
  | some .queueNumMax => VIRTQUEUE_MAX_DESC
  | some .queueNumCurrent => vq.sizeMask.setWidth 32 + 1
  | some .queueReady => vq.ready.setWidth 32
  | some .queueDesc => vq.qDesc
  | some .queueAvail => vq.qAvail
  | some .queueUsed => vq.qUsed
  | _ => 0

/-- `virtQueueSetDescCount`: the size has to be in range and a power of two. -/
def virtQueueSetDescCount (vq : VirtQueue) (val : U32) : VirtQueue :=
  -- zero passes both tests, and `val - 1` then wraps to the mask `0xFFFF`
  if val ≤ VIRTQUEUE_MAX_DESC ∧ intIsPow2 val then
    { vq with sizeMask := (val - 1).setWidth 16 }
  else { vq with sizeMask := 0 }

/-- `virtQueueRegWrite`, on the queue whose list node is `node`. -/
def virtQueueRegWrite (l : Links ListNode) (node : ListNode) (vq : VirtQueue) (reg val : U32) :
    Links ListNode × VirtQueue :=
  match QueueRegisters.ofReg reg with
  | some .queueNumCurrent => (l, virtQueueSetDescCount vq val)
  -- a queue without a size, or with a single entry, does not become ready
  | some .queueReady => (l, if 0 < vq.sizeMask then { vq with ready := val.setWidth 1 } else vq)
  -- new buffers are present
  | some .queueNotify => ((virtManagerAddPending l node).2, vq)
  | some .queueDesc => (l, { vq with qDesc := val })
  | some .queueAvail => (l, { vq with qAvail := val })
  | some .queueUsed => (l, { vq with qUsed := val })
  | _ => (l, vq)

/-! ### The rings in guest memory -/

/-- `VQ_DESC_F_NEXT`. -/
def VQ_DESC_F_NEXT : U16 := bit 16 0

/-- `VQ_DESC_F_WRITE`. -/
def VQ_DESC_F_WRITE : U16 := bit 16 1

/-- `vqDesc_s`; the high 32 bits of the address are always ignored. -/
structure VqDesc where
  addr : U64
  len : U32
  flags : U16
  next : U16

/-- Entry `i` of the descriptor table at `qDesc`. -/
def vqDescAt (m : Mem) (qDesc : U32) (i : U16) : VqDesc where
  addr := m.read64 (qDesc + BitVec.ofNat 32 (16 * i.toNat))
  len := m.read32 (qDesc + BitVec.ofNat 32 (16 * i.toNat + 8))
  flags := m.read16 (qDesc + BitVec.ofNat 32 (16 * i.toNat + 12))
  next := m.read16 (qDesc + BitVec.ofNat 32 (16 * i.toNat + 14))

/-- The field `last` of the available ring at `qAvail`. -/
def vqAvailLast (m : Mem) (qAvail : U32) : U16 := m.read16 (qAvail + BitVec.ofNat 32 2)

/-- Slot `i` of the available ring at `qAvail`. -/
def vqAvailRing (m : Mem) (qAvail : U32) (i : ℕ) : U16 :=
  m.read16 (qAvail + BitVec.ofNat 32 (4 + 2 * i))

/-- The field `last` of the used ring at `qUsed`. -/
def vqUsedLast (m : Mem) (qUsed : U32) : U16 := m.read16 (qUsed + BitVec.ofNat 32 2)

/-- Slot `i` of the used ring at `qUsed`: its fields `id` and `len`. -/
def vqUsedRing (m : Mem) (qUsed : U32) (i : ℕ) : U32 × U32 :=
  (m.read32 (qUsed + BitVec.ofNat 32 (4 + 8 * i)),
    m.read32 (qUsed + BitVec.ofNat 32 (8 + 8 * i)))

/-- `virtQueueFetchAvailFirst`. -/
def virtQueueFetchAvailFirst (m : Mem) (vq : VirtQueue) : ℤ × VirtQueue :=
  if vq.ready = 0 then (-1, vq)
  else
    let index := vq.availIdx &&& vq.sizeMask
    let avail := vqAvailLast m vq.qAvail &&& vq.sizeMask
    -- the masked positions agree in an empty ring, and also in a full one
    if index = avail then (-1, vq)
    else ((vqAvailRing m vq.qAvail index.toNat).toNat, { vq with availIdx := index + 1 })

/-- `virtQueueFetchAvailNext`. -/
def virtQueueFetchAvailNext (b : Bus) (vq : VirtQueue) (prev : U16) : ℤ × Bus :=
  -- `prev` is not checked against the size here
  let d := vqDescAt b.mem vq.qDesc prev
  let b := b.emit (.desc prev)
  if d.flags &&& VQ_DESC_F_NEXT ≠ 0 then (d.next.toNat, b) else (-1, b)

/-- `virtQueuePushUsed`. The entry is written before `last` announces it. -/
def virtQueuePushUsed (m : Mem) (vq : VirtQueue) (first : U16) (len : U32) : Mem × VirtQueue :=
  let index := vq.usedIdx &&& vq.sizeMask
  let m := m.write32 (vq.qUsed + BitVec.ofNat 32 (4 + 8 * index.toNat)) (first.setWidth 32)
  let m := m.write32 (vq.qUsed + BitVec.ofNat 32 (8 + 8 * index.toNat)) len
  (m.write16 (vq.qUsed + BitVec.ofNat 32 2) (vqUsedLast m vq.qUsed + 1),
    { vq with usedIdx := index + 1 })

/-! ### Descriptors -/

/-- `VDEV_TO_HOST`. -/
def VDEV_TO_HOST : U32 := 0

/-- `HOST_TO_VDEV`. -/
def HOST_TO_VDEV : U32 := 1

/-- `virtDesc_s`. -/
structure VirtDesc where
  data : U32
  length : U32
  dir : U32
  deriving DecidableEq

/-- What `virtQueueGetDesc` makes of a table entry. -/
def VqDesc.toVirtDesc (d : VqDesc) : VirtDesc where
  data := d.addr.setWidth 32
  length := d.len
  dir := if d.flags &&& VQ_DESC_F_WRITE ≠ 0 then VDEV_TO_HOST else HOST_TO_VDEV

/-- `virtQueueGetDesc`. Of a rejected index only `data` is set: the other fields keep what the
caller's uninitialized `desc` held. -/
def virtQueueGetDesc (b : Bus) (vq : VirtQueue) (index : U16) (desc : VirtDesc) :
    VirtDesc × Bus :=
  if index ≤ vq.sizeMask then ((vqDescAt b.mem vq.qDesc index).toVirtDesc, b.emit (.desc index))
  else ({ desc with data := 0 }, b)

end Arm9LinuxFw
