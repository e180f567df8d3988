import Arm9LinuxFw.Virt.Job

/-!
# The entropy source

`vdev/hwrng.c`: every device-writable descriptor is filled with words of the random number
generator, which is a field of the environment, one word for every time it is read. The `u32`
stores cover `4 * (length / 4)` bytes, while the job is credited with `length`: the bytes
that are left over keep what they were.

`hwrngBody` is the part inside the loops that all devices have in common (`processQueue` of
`Virt/Job`).
-/

namespace Arm9LinuxFw

/-- `data[i] = regs->hot` for the first `n` words of the buffer. -/
def hwrngFill (env : Env) (data : U32) : ℕ → Ctx → Ctx
  | 0, c => c
  | n + 1, c =>
      let c := hwrngFill env data n c
      let a := data + BitVec.ofNat 32 (4 * n)
      { c with
        mem := c.mem.write32 a (env.hot c.tick)
        log := c.log ++ [.store a 4]
        tick := c.tick + 1 }

/-- The body of the inner loop of `hwrngProcessQueue`. The first branch is its `continue`,
which goes on to the loop condition. -/
def hwrngBody : Body := fun env desc (vjob, c) =>
  if desc.dir = HOST_TO_VDEV then (vjob, c)
  else
    (virtJobAddWritten vjob desc.length, hwrngFill env desc.data (desc.length / 4).toNat c)

/-- `hwrngProcessQueue`, step by step. -/
def hwrngProcessQueue : Env → U32 → Config → Config := processQueue hwrngBody

end Arm9LinuxFw
