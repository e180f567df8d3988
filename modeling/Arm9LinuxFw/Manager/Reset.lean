import Arm9LinuxFw.Manager.Registers
import Arm9LinuxFw.Process.Hidden
import Arm9LinuxFw.Process.Scatter

/-!
# What a device forgets in a reset

`virtDevReset` is to reset all state values of a device to their default, and `virtQueueReset`
those of a queue. Two runs are compared here: a device is reset with either of two pasts, and
from there on its driver does the same in both. What a past can leave behind is not only the
state of the firmware the reset is done in, but also what the calls of `prQueue` to come find in
their uninitialized local `desc`; a `Past` has both.

* **The system** (`devStep`): the driver reads and writes registers of the device, changes guest
  memory at any time, and has the queue processed, one step of the loop at a time, so that calls
  that do not return are observed as well.
* **What is observed** (`DevRun.observe`): the register values read, guest memory, the stores to
  buffers and the calls of `sdmmc_sdcard_readsectors`. `ResetErases` says that no sequence of
  actions lets the driver tell the two pasts apart.
* **Lockstep** (`Vdev.SameRun.step`): runs that look the same to the driver go on to look the
  same. A reset leaves such runs (`resetErases_of_same`) unless one of three things differs: the
  leftovers on the stack, `priv`, which `virtQueueReset` leaves alone and the block device keeps
  the current sector in, and `handleSD.total_size`, which `sdmmc_sdcard_init` leaves alone if the
  card does not answer.

That each of the three can be seen is shown in `Remnants`.
-/

namespace Arm9LinuxFw

open ByteMem Transition

/-! ### A device and its driver -/

/-- The place of a device in the table. -/
def Vdev.index : Vdev → ℕ
  | .hwrngDevice => 0
  | .sdmcDevice => 1

/-- What the driver of a device does, and the device: an access to a register of the device, a
change of guest memory, a call of `prQueue` on its queue, a step of that call. -/
inductive DevAction
  | read (reg : U32)
  | write (reg val : U32)
  | driver (f : Mem → Mem)
  | call
  | step

/-- A device with its driver: where the call of `prQueue` stands that is in progress, if one is,
and the values of the registers read so far. -/
structure DevRun where
  fw : Fw World
  call : Option (Pc × VirtJob)
  values : List U32

/-- Guest memory is changed by the driver. -/
def Fw.setMem (w : Fw World) (m : Mem) : Fw World :=
  { w with ext := { w.ext with bus := { w.ext.bus with mem := m } } }

/-- The registers of a device, not of the manager. -/
def IsDevReg (reg : U32) : Prop := reg.toNat % 4 ≠ 3

instance (reg : U32) : Decidable (IsDevReg reg) := inferInstanceAs (Decidable (_ ≠ _))

section Step

variable (env : Env) (sectors : Option U32) (fuel : ℕ) (dev : Vdev)

/-- The firmware answers no register access while a queue is processed. -/
def devStep (s : DevRun) : DevAction → Option DevRun
  | .read reg =>
      if s.call = none ∧ IsDevReg reg then
        let (v, fw) :=
          virtDevReadReg (deviceTable env sectors fuel) s.fw (BitVec.ofNat 32 dev.index) reg
        some { s with fw := fw, values := s.values ++ [v] }
      else none
  | .write reg val =>
      if s.call = none ∧ IsDevReg reg then
        some { s with fw :=
          virtDevWriteReg (deviceTable env sectors fuel) s.fw (BitVec.ofNat 32 dev.index) reg val }
      else none
  | .driver f => some { s with fw := s.fw.setMem (f s.fw.ext.bus.mem) }
  | .call => if s.call = none then some { s with call := some (.fetchNew, ⟨0, 0, 0⟩) } else none
  | .step =>
      match s.call with
      | none => none
      | some (pc, vjob) =>
          let t := dev.prQueue env (s.fw.devs dev.index).id ⟨pc, vjob, s.fw.ctx (dev.index, 0)⟩
          some { s with
            fw := s.fw.withCtx (dev.index, 0) t.ctx
            call := if t.pc = .done then none else some (t.pc, t.vjob) }

/-- A device that was reset in state `w`, with guest memory `m` and the hardware at `tick`. -/
def afterReset (w : Fw World) (m : Mem) (tick : ℕ) : DevRun where
  fw :=
    let w := virtDevReset (deviceTable env sectors fuel) dev.index w
    { w with ext := { w.ext with bus := ⟨m, []⟩, tick := tick } }
  call := none
  values := []

end Step

/-- The stores to buffers and the calls of `sdmmc_sdcard_readsectors`. -/
def Event.isOutput : Event → Bool
  | .store _ _ | .readsectors _ _ _ _ => true
  | _ => false

/-- What a driver sees of a run: the values of the registers it read, guest memory, and what the
device did to buffers and asked of the card. -/
def DevRun.observe (s : DevRun) : List U32 × Mem × List Event :=
  (s.values, s.fw.ext.bus.mem, s.fw.ext.bus.log.filter Event.isOutput)

/-- What is there before a reset: the state of the firmware, and what the calls of `prQueue`
after it will find on the stack. -/
structure Past where
  fw : Fw World
  stack : ℕ → VirtDesc

/-- After a reset the driver can see nothing of which of the two pasts there was. -/
def ResetErases (env : Env) (sectors : Option U32) (fuel : ℕ) (dev : Vdev) (p p' : Past) : Prop :=
  ∀ m tick as,
    (exec (devStep (env.withJunk p.stack) sectors fuel dev)
        (afterReset (env.withJunk p.stack) sectors fuel dev p.fw m tick) as).map
        DevRun.observe =
      (exec (devStep (env.withJunk p'.stack) sectors fuel dev)
        (afterReset (env.withJunk p'.stack) sectors fuel dev p'.fw m tick) as).map
        DevRun.observe

/-! ### Lockstep -/

/-- What device `dev` and its driver can tell of the firmware is the same. -/
structure Vdev.SameFw (dev : Vdev) (w w' : Fw World) : Prop where
  bus : w'.ext.bus = w.ext.bus
  tick : w'.ext.tick = w.ext.tick
  cfg : dev = .sdmcDevice → w'.ext.sdmcBlkConfig = w.ext.sdmcBlkConfig
  regs : ∃ id, w'.devs dev.index = { w.devs dev.index with id := id }
  vq : dev.SameQueue (w.vqs dev.index 0) (w'.vqs dev.index 0)

/-- The runs look the same to the driver. -/
structure Vdev.SameRun (dev : Vdev) (s s' : DevRun) : Prop where
  fw : dev.SameFw s.fw s'.fw
  call : s'.call = s.call
  values : s'.values = s.values

theorem Vdev.SameRun.observe {dev : Vdev} {s s' : DevRun} (h : dev.SameRun s s') :
    s.observe = s'.observe := by
  simp only [DevRun.observe, h.values, h.fw.bus]

section Table

variable (env : Env) (sectors : Option U32) (fuel : ℕ) (dev : Vdev)

theorem deviceTable_dev : (deviceTable env sectors fuel).dev dev.index =
    dev.toClass env sectors fuel := by
  cases dev with
  | hwrngDevice => rfl
  | sdmcDevice => rfl

private theorem Vdev.toClass_vqn : (dev.toClass env sectors fuel).vqn = 1 := rfl

theorem Vdev.index_lt : dev.index < (deviceTable env sectors fuel).count := by
  cases dev with
  | hwrngDevice => exact Nat.zero_lt_two
  | sdmcDevice => exact Nat.one_lt_two

@[simp]
theorem Vdev.toNat_index : (BitVec.ofNat 32 dev.index).toNat = dev.index := by
  cases dev with
  | hwrngDevice => rfl
  | sdmcDevice => rfl

/-- The queue of a device is number 0. -/
theorem hasQueue_index {q : ℕ} :
    (deviceTable env sectors fuel).HasQueue dev.index q ↔ q = 0 := by
  rw [DevTable.HasQueue, deviceTable_dev]
  exact (and_iff_right (dev.index_lt env sectors fuel)).trans Nat.lt_one_iff

end Table

section Lockstep

variable (env env' : Env) (sectors : Option U32) (fuel : ℕ) {dev : Vdev} {w w' : Fw World}

private theorem sdmcReadConfig_congr {x x' : World} (h : x'.sdmcBlkConfig = x.sdmcBlkConfig)
    (offset : U32) : (sdmcReadConfig offset x').1 = (sdmcReadConfig offset x).1 := by
  obtain ⟨_, _, _, _⟩ := x
  obtain ⟨_, _, _, _⟩ := x'
  obtain rfl := h
  rfl

/-- Reading a register of the device changes nothing, and the value is the same. The hardware
behind the queues plays no part. -/
theorem Vdev.SameFw.read (h : dev.SameFw w w') {reg : U32} (hreg : IsDevReg reg) :
    (virtDevReadReg (deviceTable env' sectors fuel) w' (BitVec.ofNat 32 dev.index) reg).1 =
        (virtDevReadReg (deviceTable env sectors fuel) w (BitVec.ofNat 32 dev.index) reg).1 ∧
      (virtDevReadReg (deviceTable env sectors fuel) w (BitVec.ofNat 32 dev.index) reg).2 = w ∧
      (virtDevReadReg (deviceTable env' sectors fuel) w' (BitVec.ofNat 32 dev.index) reg).2 =
        w' := by
  have hT := deviceTable_readOnlyCfg env sectors fuel
  have hT' := deviceTable_readOnlyCfg env' sectors fuel
  have hbank : ∀ m b, ¬ ReadsBank m b reg := fun m b hb => hreg hb.1
  refine ⟨?_, (readIsolated w hT).other hbank, (readIsolated w' hT').other hbank⟩
  have hd := dev.index_lt env sectors fuel
  have hd' := dev.index_lt env' sectors fuel
  have hlt : reg.toNat % 4 < 4 := Nat.mod_lt _ (by decide)
  obtain ⟨id, hid⟩ := h.regs
  simp only [virtDevReadReg, virtManagerDecodeReg_eq, virtDevGet, dev.toNat_index, if_pos hd,
    if_pos hd']
  rcases hr : reg.toNat % 4 with _ | _ | _ | _ | n
  · simp only [reduceCtorEq, if_false, hid, deviceTable_dev]
    rfl
  · simp only [reduceCtorEq, if_false, deviceTable_dev]
    cases dev with
    | hwrngDevice => rfl
    | sdmcDevice => exact congrArg _ (sdmcReadConfig_congr (h.cfg rfl) _)
  · simp only [reduceCtorEq, if_false, virtDevQueueRegRead, virtDevGetQueue, deviceTable_dev,
      Vdev.toClass_vqn, Nat.lt_one_iff]
    split_ifs with hq
    · rw [hq]
      exact h.vq.regRead _
    · rfl
  · exact absurd hr hreg
  · omega

/-- The identifier of a device is not among the registers written. -/
private theorem virtDevInternalRegWrite_id (v : VirtDev) (id reg val : U32) :
    virtDevInternalRegWrite { v with id := id } reg val =
      { virtDevInternalRegWrite v reg val with id := id } := by
  simp only [virtDevInternalRegWrite]
  split
  all_goals rfl

/-- Writing a register of the device changes the same. -/
theorem Vdev.SameFw.write (h : dev.SameFw w w') (reg val : U32) (hreg : IsDevReg reg) :
    dev.SameFw
      (virtDevWriteReg (deviceTable env sectors fuel) w (BitVec.ofNat 32 dev.index) reg val)
      (virtDevWriteReg (deviceTable env' sectors fuel) w' (BitVec.ofNat 32 dev.index) reg val) := by
  have hd := dev.index_lt env sectors fuel
  have hd' := dev.index_lt env' sectors fuel
  have hlt : reg.toNat % 4 < 4 := Nat.mod_lt _ (by decide)
  simp only [virtDevWriteReg, virtManagerDecodeReg_eq, virtDevGet, dev.toNat_index, if_pos hd,
    if_pos hd']
  rcases hr : reg.toNat % 4 with _ | _ | _ | _ | n
  · simp only [reduceCtorEq, if_false]
    refine ⟨h.bus, h.tick, h.cfg, ?_, h.vq⟩
    obtain ⟨id, hid⟩ := h.regs
    refine ⟨id, ?_⟩
    simp only [Fw.setDev, Function.update_self, hid]
    exact virtDevInternalRegWrite_id _ _ _ _
  · simp only [reduceCtorEq, if_false, deviceTable_dev]
    exact h
  · simp only [reduceCtorEq, if_false, virtDevQueueRegWrite, virtDevGetQueue, deviceTable_dev,
      Vdev.toClass_vqn, Nat.lt_one_iff]
    split_ifs with hq
    · rw [hq]
      refine ⟨h.bus, h.tick, h.cfg, h.regs, ?_⟩
      simp only [Fw.setQueue_vqs, and_self, if_true]
      exact h.vq.regWrite _ _ _ _ _
    · exact h
  · exact absurd hr hreg
  · omega

/-- The contexts that a `prQueue` is entered with look the same. -/
theorem Vdev.SameFw.ctx (h : dev.SameFw w w') :
    dev.SameCtx (w.ctx (dev.index, 0)) (w'.ctx (dev.index, 0)) := ⟨h.bus, h.tick, h.vq⟩

theorem Vdev.SameFw.withCtx (h : dev.SameFw w w') {c c' : Ctx} (hc : dev.SameCtx c c') :
    dev.SameFw (w.withCtx (dev.index, 0) c) (w'.withCtx (dev.index, 0) c') := by
  refine ⟨hc.bus, hc.tick, h.cfg, h.regs, ?_⟩
  simp only [Fw.withCtx, Function.update_self]
  exact hc.vq

/-- **Lockstep.** Runs that look the same take the same actions, and look the same after. -/
theorem Vdev.SameRun.step {junk : ℕ → VirtDesc} (hleft : ∀ k, dev.SameLeft (env.junk k) (junk k))
    {s s' : DevRun} (h : dev.SameRun s s') (a : DevAction) :
    Option.Rel dev.SameRun (devStep env sectors fuel dev s a)
      (devStep (env.withJunk junk) sectors fuel dev s' a) := by
  obtain ⟨fw, _, _⟩ := s
  obtain ⟨fw', call, values⟩ := s'
  obtain ⟨hfw, rfl, rfl⟩ := h
  change dev.SameFw fw fw' at hfw
  cases a with
  | read reg =>
    simp only [devStep]
    split_ifs with hreg
    · obtain ⟨hvalue, hw, hw'⟩ := hfw.read env (env.withJunk junk) sectors fuel hreg.2
      refine .some ⟨?_, rfl, ?_⟩
      · rw [hw, hw']
        exact hfw
      · simp only [hvalue]
    · exact .none
  | write reg val =>
    simp only [devStep]
    split_ifs with hreg
    · exact .some ⟨hfw.write env (env.withJunk junk) sectors fuel reg val hreg.2, rfl, rfl⟩
    · exact .none
  | driver f =>
    refine .some ⟨⟨?_, hfw.tick, hfw.cfg, hfw.regs, hfw.vq⟩, rfl, rfl⟩
    simp only [Fw.setMem, hfw.bus]
  | call =>
    simp only [devStep]
    split_ifs
    · exact .some ⟨hfw, rfl, rfl⟩
    · exact .none
  | step =>
    rcases call with _ | ⟨pc, vjob⟩
    · exact .none
    · obtain ⟨hpc, hvjob, hctx⟩ := hfw.ctx.prQueue env hleft (fw.devs dev.index).id
        (fw'.devs dev.index).id pc vjob
      refine .some ⟨hfw.withCtx hctx, ?_, rfl⟩
      simp only [hpc, hvjob]

/-- What a reset leaves looks the same, if the block device is on the same sector and finds out
the size of its card, or remembers the same one. -/
private theorem Vdev.sameRun_afterReset (junk : ℕ → VirtDesc)
    (hpriv : dev = .sdmcDevice → (w'.vqs dev.index 0).priv = (w.vqs dev.index 0).priv)
    (hsize : dev = .sdmcDevice → sectors = none → w'.ext.total_size = w.ext.total_size) (m : Mem)
    (tick : ℕ) :
    dev.SameRun (afterReset env sectors fuel dev w m tick)
      (afterReset (env.withJunk junk) sectors fuel dev w' m tick) := by
  have hq (env : Env) : 0 < ((deviceTable env sectors fuel).dev dev.index).vqn := by
    rw [deviceTable_dev]
    exact Nat.zero_lt_one
  refine ⟨⟨rfl, rfl, ?_, ?_, ?_⟩, rfl, rfl⟩
  · intro hdev
    have hsame := hsize hdev
    subst hdev
    change sdmcHardReset (sectors.getD w'.ext.total_size) =
      sdmcHardReset (sectors.getD w.ext.total_size)
    cases sectors with
    | none => exact congrArg sdmcHardReset (hsame rfl)
    | some size => rfl
  · simp only [afterReset, virtDevReset_devs, if_true]
    exact ⟨_, rfl⟩
  · simp only [afterReset, virtDevReset_vqs, hq, and_self, if_true]
    exact ⟨_, _, _, rfl, hpriv⟩

/-- **Reset.** Pasts that agree on what is left on the stack, on the sector of the block device,
and on the size of the card if it does not answer, cannot be told apart. -/
theorem resetErases_of_same {p p' : Past} (hleft : ∀ k, dev.SameLeft (p.stack k) (p'.stack k))
    (hpriv : dev = .sdmcDevice → (p'.fw.vqs dev.index 0).priv = (p.fw.vqs dev.index 0).priv)
    (hsize : dev = .sdmcDevice → sectors = none →
      p'.fw.ext.total_size = p.fw.ext.total_size) :
    ResetErases env sectors fuel dev p p' := by
  intro m tick as
  exact exec_map_eq (fun _ _ a h => h.step (env.withJunk p.stack) sectors fuel hleft a)
    (fun _ _ h => h.observe)
    (Vdev.sameRun_afterReset (env.withJunk p.stack) sectors fuel p'.stack hpriv hsize m tick) as

end Lockstep

end Arm9LinuxFw
