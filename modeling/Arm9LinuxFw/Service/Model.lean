import Arm9LinuxFw.Manager.Pending
import Arm9LinuxFw.Manager.Reset
import Arm9LinuxFw.Rings.Avail
import Arm9LinuxFw.Rings.Used

/-!
# The service as a whole

Firmware and host together: two devices with a queue each, the pending list, the virtual
interrupts, and on the host's side a driver for each queue.

* **Interleaving.** The host is a processor of its own, so its accesses to guest memory may come
  between any two steps of a `prQueue`; its commands are executed by an interrupt handler, and
  interrupts are off while a queue is processed. A `prQueue` is therefore not a single step here:
  `beginCall` is what `virtManagerProcessPending` does up to the call, `callStep` a step of the
  call, and `exec_processPending_eq` says that the two together are `virtManagerProcessPending`
  when nothing comes between them.
* **Calls of the manager.** `ServiceAction.process` calls `virtManagerProcessPending`, or goes on
  with a call. When it is called is left open: the main loop, which calls it until it finds nothing
  and then waits for an interrupt, is the subject of `Manager/MainLoop`, where it is shown when a
  queue is on the list while the firmware sleeps. What holds here of all schedules holds of those
  of the main loop; what says that repeated calls get something done says nothing about a firmware
  that sleeps.
* **Memory.** As everywhere in this development, the queue objects and the rest of the firmware's
  state are not part of guest memory: neither the host nor a device stores to them by an address.
* **History.** An `Account` keeps, beside what a driver knows, the requests it has published, the
  used entries pushed for them and those it has read. No step depends on these lists.
-/

namespace Arm9LinuxFw

open ByteMem Transition

/-! ### State -/

/-- A queue as its driver sees it, with the history of its requests: the heads published, the
used entries pushed for them, and the used entries read. -/
structure Account where
  sent : List U16
  done : List (U16 × U32)
  got : List (U32 × U32)
  /-- the driver's counter of used entries -/
  seen : U16
  /-- the queue was notified after the last publication -/
  announced : Bool
  /-- a virtual interrupt was read, and the used ring not found empty since -/
  draining : Bool

/-- A call of the `prQueue` of the device at `owner`, in progress. -/
structure QueueCall where
  owner : ℕ
  queue : ℕ × ℕ
  pc : Pc
  vjob : VirtJob

structure Service where
  fw : Fw World
  call : Option QueueCall
  account : Vdev → Account

/-- The device at a place of the table. -/
def Vdev.ofIndex (d : ℕ) : Vdev := if d = 0 then .hwrngDevice else .sdmcDevice

namespace Service

variable (s : Service) (dev : Vdev)

def mem : Mem := s.fw.ext.bus.mem

def queue : VirtQueue := s.fw.vqs dev.index 0

def setAccount (a : Account) : Service :=
  { s with account := Function.update s.account dev a }

end Service

/-! ### The firmware -/

/-- `virtManagerProcessPending` up to the call; the job record is not initialized yet. -/
def beginCall (w : Fw World) : Fw World × Option QueueCall :=
  if listEmpty w.links .vqueuePendingList then (w, none)
  else
    let nextVq := listHead w.links .vqueuePendingList
    let w := { w with links := listRemove w.links nextVq }
    match nextVq with
    | .vqueuePendingList => (w, none)
    | .vq d q => (w, some ⟨virtQueueOwner (w.vqs d q), (d, q), .fetchNew, ⟨0, 0, 0⟩⟩)

/-- The call as a state of the processing loop. -/
def QueueCall.config (c : QueueCall) (w : Fw World) : Config := ⟨c.pc, c.vjob, w.ctx c.queue⟩

/-- The next state of the processing loop. -/
def QueueCall.next (env : Env) (c : QueueCall) (w : Fw World) : Config :=
  (Vdev.ofIndex c.owner).prQueue env (w.devs c.owner).id (c.config w)

/-- A step of a call: what it leaves behind, and the rest of the call. -/
def callStep (env : Env) (c : QueueCall) (w : Fw World) : Fw World × Option QueueCall :=
  let t := c.next env w
  (w.withCtx c.queue t.ctx,
    if t.pc = .done then none else some { c with pc := t.pc, vjob := t.vjob })

/-- The history: the entry that a step of the call pushes. -/
def Account.record (a : Account) (c : QueueCall) : Account :=
  if c.pc = .push then { a with done := a.done ++ [(c.vjob.firstDesc, c.vjob.totalWritten)] }
  else a

/-! ### The host -/

/-- The driver's publication of a head, which it has not announced yet. -/
def Account.publish (a : Account) (head : U16) : Account :=
  { a with sent := a.sent ++ [head], announced := false }

/-- The driver looks at the used ring: it takes the next entry, or finds none. -/
def Account.consume (a : Account) (m : Mem) (vq : VirtQueue) : Account :=
  if a.seen = vqUsedLast m vq.qUsed then { a with draining := false }
  else
    { a with
      seen := a.seen + 1
      got := a.got ++ [vqUsedRing m vq.qUsed (a.seen.toNat % vq.size)] }

/-- The place of the devices in the table is also that of their bit in the first bank: a read of
`INTBANK0` tells the drivers whose bit is set. -/
def PxiCmd.tells (w : Fw World) (dev : Vdev) : PxiCmd → Bool
  | .readReg _ reg =>
      reg.toNat % 4 = 3 ∧ reg.toNat / 4 = 8 ∧ (w.virq.pendingVirq 0 0).getLsbD dev.index
  | .writeReg _ _ _ => false

/-- What a command means to the driver of a device. -/
def Account.command (T : DevTable World) (w : Fw World) (dev : Vdev) (c : PxiCmd) (a : Account) :
    Account :=
  { a with
    announced := a.announced || decide (c.notifies T = some (dev.index, 0))
    draining := a.draining || c.tells w dev }

/-! ### Steps -/

inductive ServiceAction
  /-- the host fills in buffers and descriptors -/
  | fill (m : Mem)
  | publish (dev : Vdev) (head : U16)
  | consume (dev : Vdev)
  /-- a command of the host is executed -/
  | command (c : PxiCmd)
  /-- `virtManagerProcessPending` is called, or a call of it goes on -/
  | process

section Step

variable (env : Env) (sectors : Option U32)

/-- One step. Commands wait for the end of a critical section. -/
def serviceStep (s : Service) : ServiceAction → Option Service
  | .fill m => some { s with fw := s.fw.setMem m }
  | .publish dev head =>
      some ({ s with fw := s.fw.setMem (driverPublish s.mem (s.queue dev) head) }.setAccount dev
        ((s.account dev).publish head))
  | .consume dev =>
      some (s.setAccount dev ((s.account dev).consume s.mem (s.queue dev)))
  | .command c =>
      let T := deviceTable env sectors 0
      if s.call.isNone then
        some { s with
          fw := c.access T s.fw
          account := fun dev => (s.account dev).command T s.fw dev c }
      else none
  | .process =>
      match s.call with
      | none =>
          let (w, call) := beginCall s.fw
          some { s with fw := w, call := call }
      | some c =>
          let (w, call) := callStep env c s.fw
          some ({ s with fw := w, call := call }.setAccount (.ofIndex c.owner)
            ((s.account (.ofIndex c.owner)).record c))

end Step

/-! ### What the steps change -/

theorem Vdev.index_injective : Function.Injective Vdev.index := by
  intro dev dev' h
  cases dev <;> cases dev' <;> first | rfl | cases h

@[simp]
theorem Vdev.ofIndex_index (dev : Vdev) : Vdev.ofIndex dev.index = dev := by
  cases dev <;> rfl

namespace Service

variable (s : Service) (dev : Vdev)

/-- What a `prQueue` called with the queue of a device works on. -/
def ctx : Ctx := s.fw.ctx (dev.index, 0)

@[simp] theorem ctx_mem : (s.ctx dev).mem = s.mem := rfl
@[simp] theorem ctx_vq : (s.ctx dev).vq = s.queue dev := rfl
@[simp] theorem ctx_virq : (s.ctx dev).virq = s.fw.virq := rfl

/-- The state after a step of the call `c` to the state `u` of the processing loop. -/
def advance (c : QueueCall) (u : Config) : Service :=
  { s with
    fw := s.fw.withCtx (dev.index, 0) u.ctx
    call := if u.pc = Pc.done then none else some { c with pc := u.pc, vjob := u.vjob } }.setAccount
      dev ((s.account dev).record c)

section Advance

variable (c : QueueCall) (u : Config)

@[simp] theorem advance_mem : (s.advance dev c u).mem = u.ctx.mem := rfl
@[simp] theorem advance_virq : (s.advance dev c u).fw.virq = u.ctx.virq := rfl
@[simp] theorem advance_links : (s.advance dev c u).fw.links = s.fw.links := rfl
@[simp] theorem advance_devs : (s.advance dev c u).fw.devs = s.fw.devs := rfl

theorem advance_call : (s.advance dev c u).call =
    if u.pc = .done then none else some { c with pc := u.pc, vjob := u.vjob } := rfl

/-- A step of a call is a step of one queue. -/
theorem advance_queue (dev' : Vdev) :
    (s.advance dev c u).queue dev' = if dev' = dev then u.ctx.vq else s.queue dev' := by
  rw [queue, advance, setAccount, Fw.withCtx]
  by_cases h : dev' = dev
  · simp [h]
  · have hindex : dev'.index ≠ dev.index := fun heq => h (Vdev.index_injective heq)
    simp [h, hindex, queue]

theorem advance_account (dev' : Vdev) : (s.advance dev c u).account dev' =
    if dev' = dev then (s.account dev).record c else s.account dev' := by
  by_cases h : dev' = dev <;> simp [advance, setAccount, h]

end Advance

end Service

/-- A step of a call to the device that owns the queue. -/
theorem serviceStep_call (env : Env) (sectors : Option U32) {s : Service} {c : QueueCall}
    {dev : Vdev} (hcall : s.call = some c) (howner : c.owner = dev.index)
    (hqueue : c.queue = (dev.index, 0)) :
    serviceStep env sectors s .process = some (s.advance dev c
      (dev.prQueue env (s.fw.devs dev.index).id ⟨c.pc, c.vjob, s.ctx dev⟩)) := by
  simp only [serviceStep, hcall, callStep, QueueCall.next, QueueCall.config, howner, hqueue,
    Vdev.ofIndex_index, Service.advance, Service.ctx]

end Arm9LinuxFw
