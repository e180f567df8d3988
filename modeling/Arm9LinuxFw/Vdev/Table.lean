import Arm9LinuxFw.Virt.Manager
import Arm9LinuxFw.Process.Loop

/-!
# The device table of the firmware

The linker gathers what `DECLARE_VIRTDEV` declares into the table `__vdev_s`: the entropy
source and the block device, with one queue each. A `prQueue` need not return, so the callback
of the table runs the processing loop for at most `fuel` steps; of a call that returns within
them the bound cannot be seen (`Vdev.callback_of_returns`). That a callback leaves the pending
list and the owners alone, which the device table asks of it, is a fact about the loop.

* `World` is what the devices work on besides the state of the firmware. Guest memory is in it,
  the firmware's own objects are not in guest memory: see `Virt/Job`.
* `Vdev.callback` is a `prQueue` as an entry of the table has it.
* `sdmcHardResetWorld` and `sdmcReadConfig` are the callbacks of the block device: the reset
  initializes the card, and the configuration space shows `sdmcBlkConfig`.
* `deviceTable` is the table, `powerOn` the state at power-on.
-/

namespace Arm9LinuxFw

open Transition

/-- What the two devices work on besides the state of the firmware. -/
structure World where
  bus : Bus
  tick : ℕ
  sdmcBlkConfig : BlkConfig
  /-- `handleSD.total_size`, which `sdmmc_sdcard_size` returns -/
  total_size : U32

/-! ### Processing a queue -/

/-- What a `prQueue` is entered with. -/
def Fw.ctx (w : Fw World) (q : ℕ × ℕ) : Ctx where
  toBus := w.ext.bus
  vq := w.vqs q.1 q.2
  virq := w.virq
  tick := w.ext.tick

/-- The state a `prQueue` leaves behind. -/
def Fw.withCtx (w : Fw World) (q : ℕ × ℕ) (c : Ctx) : Fw World :=
  { w with
    vqs := Function.update w.vqs q.1 (Function.update (w.vqs q.1) q.2 c.vq)
    virq := c.virq
    ext := { w.ext with bus := c.toBus, tick := c.tick } }

@[simp]
theorem Fw.ctx_withCtx (w : Fw World) (q : ℕ × ℕ) (c : Ctx) : (w.withCtx q c).ctx q = c := by
  simp [Fw.ctx, Fw.withCtx]

@[simp]
theorem Fw.withCtx_withCtx (w : Fw World) (q : ℕ × ℕ) (c c' : Ctx) :
    (w.withCtx q c).withCtx q c' = w.withCtx q c' := by
  simp [Fw.withCtx]

/-- The `prQueue` of a device, for at most `fuel` steps. -/
def Vdev.callback (dev : Vdev) (env : Env) (fuel v : ℕ) (q : ℕ × ℕ) (w : Fw World) : Fw World :=
  w.withCtx q ((dev.prQueue env (w.devs v).id)^[fuel] (enter ⟨0, 0, 0⟩ (w.ctx q))).ctx

/-- A call that returns within the bound has done what the loop does. -/
theorem Vdev.callback_of_returns (dev : Vdev) (env : Env) {fuel n v : ℕ} {q : ℕ × ℕ}
    {w : Fw World} {vjob : VirtJob} {c : Ctx} (hn : n ≤ fuel)
    (hret : (dev.prQueue env (w.devs v).id)^[n] (enter ⟨0, 0, 0⟩ (w.ctx q)) = ⟨.done, vjob, c⟩) :
    dev.callback env fuel v q w = w.withCtx q c := by
  have hdone : Function.IsFixedPt (dev.prQueue env (w.devs v).id) ⟨.done, vjob, c⟩ :=
    prQueue_done dev env (w.devs v).id vjob c
  obtain ⟨k, rfl⟩ := Nat.exists_eq_add_of_le hn
  rw [callback, iterate_trans hret (hdone.iterate k)]

/-- Processing does not change owners. -/
private theorem Vdev.callback_owner (dev : Vdev) (env : Env) (fuel v : ℕ) (q : ℕ × ℕ) (w : Fw World)
    (d i : ℕ) : ((dev.callback env fuel v q w).vqs d i).owner = (w.vqs d i).owner := by
  obtain ⟨_, _, _, heq⟩ :=
    iterate_sameSetup dev env (w.devs v).id (enter ⟨0, 0, 0⟩ (w.ctx q)) fuel
  have howner := congrArg VirtQueue.owner heq
  by_cases hd : d = q.1
  · subst hd
    by_cases hi : i = q.2
    · subst hi
      simp only [callback, Fw.withCtx, Function.update_self]
      exact howner
    · simp [callback, Fw.withCtx, hi]
  · simp [callback, Fw.withCtx, hd]

/-! ### Stubs and configuration space -/

/-- `virtDevResetStub`. -/
def virtDevResetStub (x : World) : World := x

/-- `virtDevRdCfgStub`. -/
def virtDevRdCfgStub (_off : U32) (x : World) : U8 × World := (0, x)

/-- `virtDevWrCfgStub`. -/
def virtDevWrCfgStub (_off : U32) (_val : U8) (x : World) : World := x

/-- `sdmmc_sdcard_init`, as far as the size of the card goes: `sectors` is what the card gives
for one in its answer to CMD9. Without an answer the driver leaves the size it has. -/
def sdmmcSdcardInitSize (sectors : Option U32) (x : World) : World :=
  { x with total_size := sectors.getD x.total_size }

/-- The callback `sdmcHardReset`: the card is initialized, and its size is the capacity. -/
def sdmcHardResetWorld (sectors : Option U32) (x : World) : World :=
  let x := sdmmcSdcardInitSize sectors x
  { x with sdmcBlkConfig := sdmcHardReset x.total_size }

/-- `sdmcReadConfig`. -/
def sdmcReadConfig (offset : U32) (x : World) : U8 × World :=
  (if h : offset.toNat < 60 then
      x.sdmcBlkConfig.bytes.get ⟨offset.toNat, by rwa [BlkConfig.length_bytes]⟩
    else 0xFF,
   x)

/-! ### The table -/

/-- `VDEV_F_DEFAULT`. -/
def VDEV_F_DEFAULT : U64 := bit 64 32 ||| bit 64 33 ||| bit 64 36

/-- `VIRTIO_BLK_F_RO`. -/
def VIRTIO_BLK_F_RO : U64 := bit 64 5

/-- The entry of a device in the table; `sectors` is the size that the card gives. -/
def Vdev.toClass (dev : Vdev) (env : Env) (sectors : Option U32) (fuel : ℕ) : DevClass World where
  devId := match dev with
    | .hwrngDevice => 4
    | .sdmcDevice => 2
  deviceFeat := match dev with
    | .hwrngDevice => VDEV_F_DEFAULT
    | .sdmcDevice => VIRTIO_BLK_F_RO ||| VDEV_F_DEFAULT
  vqn := 1
  hardReset := match dev with
    | .hwrngDevice => virtDevResetStub
    | .sdmcDevice => sdmcHardResetWorld sectors
  rdCfg := match dev with
    | .hwrngDevice => virtDevRdCfgStub
    | .sdmcDevice => sdmcReadConfig
  wrCfg := virtDevWrCfgStub
  prQueue := dev.callback env fuel
  prQueue_links _ _ _ := rfl
  prQueue_owner := dev.callback_owner env fuel

/-- The table of the firmware. -/
def deviceTable (env : Env) (sectors : Option U32) (fuel : ℕ) : DevTable World where
  count := 2
  dev d := if d = 0 then Vdev.toClass .hwrngDevice env sectors fuel
    else Vdev.toClass .sdmcDevice env sectors fuel
  count_le := by decide
  vqn_le d _ := by split <;> exact (by decide : 1 ≤ 128)

/-- The state at power-on, as far as the firmware depends on it: memory and tables are clear. -/
def powerOn : Fw World where
  devs _ := ⟨0, 0, 0, 0⟩
  vqs _ _ := ⟨0, 0, 0, 0, 0, 0, 0, 0, 0, 0⟩
  links := ⟨id, id⟩
  virq := virtIrqReset
  ext := ⟨⟨fun _ => 0, []⟩, 0, sdmcHardReset 0, 0⟩

end Arm9LinuxFw
