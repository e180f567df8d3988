import Arm9LinuxFw.Virt.Irq
import Arm9LinuxFw.Virt.Queue
import Arm9LinuxFw.Lib.Transition

/-!
# Jobs and the queue processing loop

`virt/job.h`, the job functions of `virt/manager.h`, and the loop both devices process a queue
with. `hwrngProcessQueue` and `sdmcProcessQueue` are the same two nested loops around a device
specific body:

    while (virtQueueFetchJobNew(vq, &vjob) >= 0) {
      do {
        virtQueueGetJobDesc(vq, &vjob, &desc);
        BODY
      } while (virtQueueFetchJobNext(vq, &vjob) >= 0);
      virtQueuePushJob(vq, &vjob);
    }
    virtDevNotifyHost(vdev, VIRQ_VQUEUE);

A loop that follows links in guest memory need not end, so it is a machine: `processQueue body`
is one step of the flow graph above, a run is its iteration, and `Pc.done` is the return. The
hardware behind a device is an `Env`, an arbitrary sequence of answers drawn in order; the
uninitialized local `desc` of every round of the inner loop is one of them.

Two things about memory are part of the model, of `Ctx` here and of everything built on it.

* **The firmware's objects are not in guest memory.** The queue object, the interrupt banks and the
  local variables are components of the state beside `mem`, so a store to a buffer or a ring never
  changes them, whatever address the guest has put there. On the machine they lie in the
  firmware's own RAM, which a guest could name.
* **Accesses are taken byte by byte.** A word is stored as four bytes and loaded from four, at any
  address. The code works through pointers to words and half-words, so what it means is defined
  where rings lie at multiples of 16 (`vqD`), 2 (`vqA`) and 4 (`vqU`), and word buffers at
  multiples of 4; for other addresses the model goes on where the processor would not.
-/

namespace Arm9LinuxFw

/-! ### Jobs -/

/-- `virtJob_s`. -/
structure VirtJob where
  firstDesc : U16
  currentDesc : U16
  totalWritten : U32
  deriving DecidableEq

/-- `virtJobAddWritten`. -/
def virtJobAddWritten (vjob : VirtJob) (written : U32) : VirtJob :=
  { vjob with totalWritten := vjob.totalWritten + written }

/-- What a queue processing function works on: guest memory, the queue it was called with,
the virtual interrupts, and how many answers the hardware has given so far. -/
structure Ctx extends Bus where
  vq : VirtQueue
  virq : VirtIrq
  tick : ℕ

/-- Work on the bus of a context. -/
def Ctx.withBus (c : Ctx) (b : Bus) : Ctx := { c with toBus := b }

/-- `virtQueueFetchJobNew`: the result is the head fetched, or -1. -/
def virtQueueFetchJobNew (c : Ctx) : ℤ × VirtJob × Ctx :=
  let (first, vq) := virtQueueFetchAvailFirst c.mem c.vq
  -- the end marker -1 is `0xFFFF` in the record
  (first,
    { firstDesc := BitVec.ofInt 16 first, currentDesc := BitVec.ofInt 16 first, totalWritten := 0 },
    { c.withBus (c.toBus.emit (.fetched first)) with vq := vq })

/-- `virtQueueFetchJobNext`: the result is the next descriptor, or -1. -/
def virtQueueFetchJobNext (c : Ctx) (vjob : VirtJob) : ℤ × VirtJob × Ctx :=
  let (next, b) := virtQueueFetchAvailNext c.toBus c.vq vjob.currentDesc
  (next, { vjob with currentDesc := BitVec.ofInt 16 next }, c.withBus b)

/-- `virtQueueGetJobDesc`. -/
def virtQueueGetJobDesc (c : Ctx) (vjob : VirtJob) (desc : VirtDesc) : VirtDesc × Ctx :=
  let (desc, b) := virtQueueGetDesc c.toBus c.vq vjob.currentDesc desc
  (desc, c.withBus b)

/-- `virtQueuePushJob`. -/
def virtQueuePushJob (c : Ctx) (vjob : VirtJob) : Ctx :=
  let (m, vq) := virtQueuePushUsed c.mem c.vq vjob.firstDesc vjob.totalWritten
  { c with mem := m, vq := vq, log := c.log ++ [.pushed vjob.firstDesc vjob.totalWritten] }

/-! ### The hardware -/

/-- The answer to one call of `sdmmc_sdcard_readsectors`: its result, and the bytes it stored
from the start of the buffer on. -/
structure CardReply where
  ret : ℤ
  bytes : List U8

/-- The hardware behind the devices, and the garbage on the stack: answer number `k` of each
kind. The SD driver stores whole 512-byte blocks while the request has any left, so never
more bytes than were asked for. -/
structure Env where
  /-- the register `hot` of the random number generator -/
  hot : ℕ → U32
  /-- `sdmmc_sdcard_readsectors(sector, count, out)` -/
  card : ℕ → U32 → U32 → U32 → CardReply
  /-- an uninitialized `virtDesc_s` -/
  junk : ℕ → VirtDesc
  card_le : ∀ k sector count out, (card k sector count out).bytes.length ≤ 512 * count.toNat

/-- The part of the inner loop that is specific to a device: what it does with a descriptor. -/
abbrev Body := Env → VirtDesc → VirtJob × Ctx → VirtJob × Ctx

/-! ### The processing loop -/

/-- Where a run of the processing loop stands. -/
inductive Pc
  /-- at `while (virtQueueFetchJobNew(vq, &vjob) >= 0)` -/
  | fetchNew
  /-- at the body of the inner loop -/
  | body
  /-- at `while (virtQueueFetchJobNext(vq, &vjob) >= 0)` -/
  | fetchNext
  /-- at `virtQueuePushJob(vq, &vjob)` -/
  | push
  /-- at `virtDevNotifyHost(vdev, VIRQ_VQUEUE)` -/
  | notify
  /-- returned -/
  | done
  deriving DecidableEq

/-- A state of a run of the processing loop. -/
structure Config where
  pc : Pc
  vjob : VirtJob
  ctx : Ctx

/-- One round of the inner loop up to its condition: fetch the descriptor into the
uninitialized `desc`, then do what the device does with it. -/
def descStep (body : Body) (env : Env) (vjob : VirtJob) (c : Ctx) : VirtJob × Ctx :=
  let (desc, c) := virtQueueGetJobDesc c vjob (env.junk c.tick)
  body env desc (vjob, { c with tick := c.tick + 1 })

/-- One step of the processing loop of the device with identifier `vdevId`. -/
def processQueue (body : Body) (env : Env) (vdevId : U32) (s : Config) : Config :=
  match s.pc with
  | .fetchNew =>
      let (first, vjob, ctx) := virtQueueFetchJobNew s.ctx
      -- the host is notified even if no head was fetched at all
      ⟨if 0 ≤ first then .body else .notify, vjob, ctx⟩
  | .body =>
      let (vjob, ctx) := descStep body env s.vjob s.ctx
      ⟨.fetchNext, vjob, ctx⟩
  | .fetchNext =>
      let (next, vjob, ctx) := virtQueueFetchJobNext s.ctx s.vjob
      ⟨if 0 ≤ next then .body else .push, vjob, ctx⟩
  | .push => ⟨.fetchNew, s.vjob, virtQueuePushJob s.ctx s.vjob⟩
  | .notify =>
      ⟨.done, s.vjob, { s.ctx with virq := virtDevNotifyHost s.ctx.virq vdevId VIRQ_VQUEUE }⟩
  | .done => s

/-- The call of a processing function; the local `vjob` is uninitialized. -/
def enter (vjob : VirtJob) (c : Ctx) : Config := ⟨.fetchNew, vjob, c⟩

end Arm9LinuxFw
