import Arm9LinuxFw.Manager.Reset

/-!
# What a device remembers across a reset

Three things of a device's past can be seen after a reset, each by a driver that asks for it in
the right way:

* **the size of the card**: the driver reads the capacity from the configuration space. If the
  card does not answer, it is the one that was there before (`exec_capacityReads`);
* **the current sector**: the driver has a chain processed that has no request header, and the
  card is asked for the sector that an earlier request was to go on with (`exec_headerless`);
* **the leftovers on the stack**: the driver publishes a head outside the descriptor table, and
  the device works on what it finds in its local `desc`. The length goes into the used ring, and
  what the block device does with the buffer tells the direction (`exec_stray`).

With the lockstep of `Reset`, which covers all other runs, this makes an equivalence:
`resetErases_iff`. For the entropy source only the leftovers count.

The runs are put together from lemmas on single actions: `DevRun.Idle` describes a device whose
queue is not being processed, `DevRun.Within` one in the middle of a call of `prQueue`.
-/

namespace Arm9LinuxFw

open ByteMem Transition

/-! ### A device with its driver, action by action -/

/-- No call is in progress, the queue of the device is `vq`, and nothing is on record. -/
structure DevRun.Idle (dev : Vdev) (m : Mem) (tick : ℕ) (vq : VirtQueue) (s : DevRun) : Prop where
  call : s.call = none
  vq : s.fw.vqs dev.index 0 = vq
  bus : s.fw.ext.bus = ⟨m, []⟩
  tick : s.fw.ext.tick = tick

/-- A call of `prQueue` stands at `pc`, and works on `c`. -/
structure DevRun.Within (dev : Vdev) (pc : Pc) (vjob : VirtJob) (c : Ctx) (s : DevRun) : Prop where
  call : s.call = some (pc, vjob)
  ctx : s.fw.ctx (dev.index, 0) = c

section Actions

variable (env : Env) (sectors : Option U32) (fuel : ℕ) {dev : Vdev} {m : Mem} {tick : ℕ}
  {vq : VirtQueue} {pc : Pc} {vjob : VirtJob} {c : Ctx} {s : DevRun}

/-- The driver writes a register of the queue. -/
theorem DevRun.Idle.write (h : s.Idle dev m tick vq) (vq' : VirtQueue) (reg val : U32)
    (hreg : reg.toNat % 4 = 2 ∧ reg.toNat / 4 % 128 = 0)
    (hwrite : ∀ l node, (virtQueueRegWrite l node vq (reg >>> 2 >>> 7) val).2 = vq') :
    ∃ t, devStep env sectors fuel dev s (.write reg val) = some t ∧ t.Idle dev m tick vq' := by
  have hisreg : IsDevReg reg := by
    rw [IsDevReg, hreg.1]
    decide
  have hq : (deviceTable env sectors fuel).HasQueue (BitVec.ofNat 32 dev.index).toNat
      (reg.toNat / 4 % 128) := by
    rw [dev.toNat_index]
    exact (hasQueue_index env sectors fuel dev).mpr hreg.2
  refine ⟨_, if_pos ⟨h.call, hisreg⟩, h.call, ?_, ?_, ?_⟩
  · change (virtDevWriteReg _ s.fw (BitVec.ofNat 32 dev.index) reg val).vqs dev.index 0 = vq'
    rw [virtDevWriteReg_queue _ _ hq hreg.1, hreg.2, Fw.setQueue_vqs, dev.toNat_index]
    refine (if_pos ⟨rfl, rfl⟩).trans ?_
    rw [h.vq]
    exact hwrite _ _
  · change (virtDevWriteReg _ s.fw (BitVec.ofNat 32 dev.index) reg val).ext.bus = _
    rw [virtDevWriteReg_queue _ _ hq hreg.1]
    exact h.bus
  · change (virtDevWriteReg _ s.fw (BitVec.ofNat 32 dev.index) reg val).ext.tick = _
    rw [virtDevWriteReg_queue _ _ hq hreg.1]
    exact h.tick

/-- The main loop calls `prQueue`. -/
theorem DevRun.Idle.enter (h : s.Idle dev m tick vq) :
    ∃ t virq, devStep env sectors fuel dev s .call = some t ∧
      t.Within dev .fetchNew ⟨0, 0, 0⟩ ⟨⟨m, []⟩, vq, virq, tick⟩ := by
  refine ⟨_, s.fw.virq, if_pos h.call, rfl, ?_⟩
  change s.fw.ctx (dev.index, 0) = _
  rw [Fw.ctx, h.vq, h.bus, h.tick]

/-- A step of the call, which does not depend on the identifier of the device. -/
theorem DevRun.Within.step (h : s.Within dev pc vjob c) {pc' : Pc} {vjob' : VirtJob} {c' : Ctx}
    (hstep : ∀ id, dev.prQueue env id ⟨pc, vjob, c⟩ = ⟨pc', vjob', c'⟩) (hpc : pc' ≠ .done) :
    ∃ t, devStep env sectors fuel dev s .step = some t ∧ t.Within dev pc' vjob' c' := by
  have hdo : devStep env sectors fuel dev s .step = some
      { s with fw := s.fw.withCtx (dev.index, 0) c', call := some (pc', vjob') } := by
    simp only [devStep, h.call, h.ctx, hstep, if_neg hpc]
  exact ⟨_, hdo, rfl, Fw.ctx_withCtx ..⟩

/-- The driver puts something else into memory while the call is in progress. -/
theorem DevRun.Within.driver (h : s.Within dev pc vjob c) (m : Mem) :
    ∃ t, devStep env sectors fuel dev s (.driver fun _ => m) = some t ∧
      t.Within dev pc vjob { c with mem := m } := by
  refine ⟨_, rfl, h.call, ?_⟩
  rw [← h.ctx]
  rfl

/-- What is observed of memory and of the record, in the middle of a call. -/
theorem DevRun.Within.observe (h : s.Within dev pc vjob c) :
    s.observe.2 = (c.mem, c.log.filter Event.isOutput) := by
  rw [← h.ctx]
  rfl

end Actions

/-! ### The queue of the probes -/

/-- A queue of two entries, with its rings at fixed places. -/
def probeQueue (owner : U8) (id : BitVec 7) (priv : U32) : VirtQueue :=
  { VirtQueue.configured 1 0x20000000 0x20100000 0x20200000 with
    owner := owner, id := id, priv := priv }

/-- The driver sets up the queue of the device. -/
def setupQueue : List DevAction := [
  .write 0x202 2, .write 0x402 1, .write 0x802 0x20000000, .write 0xA02 0x20100000,
  .write 0xC02 0x20200000]

section Setup

variable (env : Env) (sectors : Option U32) (fuel : ℕ) (dev : Vdev)

/-- Setting up the queue anew leaves of the past what a reset leaves, and no more. -/
private theorem exec_setupQueue (w : Fw World) (m : Mem) (tick : ℕ) :
    ∃ s owner id, exec (devStep env sectors fuel dev)
        (afterReset env sectors fuel dev w m tick) setupQueue = some s ∧
      s.Idle dev m tick (probeQueue owner id (w.vqs dev.index 0).priv) := by
  generalize hpriv : (w.vqs dev.index 0).priv = priv
  obtain ⟨owner, howner⟩ : ∃ owner, owner = (w.vqs dev.index 0).owner := ⟨_, rfl⟩
  obtain ⟨id, hid⟩ : ∃ id, id = (w.vqs dev.index 0).id := ⟨_, rfl⟩
  have h₀ : (afterReset env sectors fuel dev w m tick).Idle dev m tick
      ⟨owner, id, 0, 0, 0, 0, 0, 0, 0, priv⟩ := by
    refine ⟨rfl, ?_, rfl, rfl⟩
    have hq : 0 < ((deviceTable env sectors fuel).dev dev.index).vqn := by
      rw [deviceTable_dev]
      exact Nat.zero_lt_one
    simp only [afterReset, virtDevReset_vqs, hq, and_self, if_true, howner, hid, hpriv]
  obtain ⟨s₁, ht₁, h₁⟩ := h₀.write env sectors fuel
    ⟨owner, id, 0, 1, 0, 0, 0, 0, 0, priv⟩ 0x202 2 (by decide) fun _ _ => rfl
  obtain ⟨s₂, ht₂, h₂⟩ := h₁.write env sectors fuel
    ⟨owner, id, 1, 1, 0, 0, 0, 0, 0, priv⟩ 0x402 1 (by decide) fun _ _ => rfl
  obtain ⟨s₃, ht₃, h₃⟩ := h₂.write env sectors fuel
    ⟨owner, id, 1, 1, 0, 0, 0x20000000, 0, 0, priv⟩ 0x802 0x20000000 (by decide) fun _ _ => rfl
  obtain ⟨s₄, ht₄, h₄⟩ := h₃.write env sectors fuel
    ⟨owner, id, 1, 1, 0, 0, 0x20000000, 0x20100000, 0, priv⟩ 0xA02 0x20100000 (by decide)
      fun _ _ => rfl
  obtain ⟨s₅, ht₅, h₅⟩ := h₄.write env sectors fuel (probeQueue owner id priv)
    0xC02 0x20200000 (by decide) fun _ _ => rfl
  refine ⟨s₅, owner, id, ?_, h₅⟩
  simp only [setupQueue, exec, ht₁, ht₂, ht₃, ht₄, ht₅, Option.bind_some]

/-- The queue is set up, and a call of `prQueue` fetches a head. -/
theorem exec_fetch (w : Fw World) (m : Mem) (tick : ℕ) (head : U16)
    (hfetch : virtQueueFetchAvailFirst m (.configured 1 0x20000000 0x20100000 0x20200000) =
      ((head.toNat : ℤ),
        { VirtQueue.configured 1 0x20000000 0x20100000 0x20200000 with availIdx := 1 })) :
    ∃ s owner id virq, exec (devStep env sectors fuel dev)
        (afterReset env sectors fuel dev w m tick) (setupQueue ++ [.call, .step]) = some s ∧
      s.Within dev .body (.start head) ⟨⟨m, [.fetched head.toNat]⟩,
        { probeQueue owner id (w.vqs dev.index 0).priv with availIdx := 1 }, virq, tick⟩ := by
  obtain ⟨s, owner, id, hsetup, hidle⟩ := exec_setupQueue env sectors fuel dev w m tick
  obtain ⟨t, virq, hcall, ht⟩ := hidle.enter env sectors fuel
  have hhead : virtQueueFetchAvailFirst m (probeQueue owner id (w.vqs dev.index 0).priv) =
      ((head.toNat : ℤ),
        { probeQueue owner id (w.vqs dev.index 0).priv with availIdx := 1 }) := by
    rw [probeQueue, virtQueueFetchAvailFirst_hidden, hfetch]
  obtain ⟨u, hu, hwithin⟩ := ht.step env sectors fuel
    (fun vdevId => prQueue_fetchNew_of_head dev env vdevId _ _ hhead) (by decide)
  refine ⟨u, owner, id, virq, exec_append.mpr ⟨s, hsetup, ?_⟩, hwithin⟩
  simp only [exec, hcall, hu, Option.bind_some]

end Setup

/-! ### The size of the card -/

section Size

variable (env : Env) (sectors : Option U32) (fuel : ℕ)

/-- The driver reads the low word of the capacity. -/
def capacityReads : List DevAction := [.read 1, .read 5, .read 9, .read 13]

/-- A byte of the configuration space. -/
private theorem devStep_readConfig (s : DevRun) (hcall : s.call = none) {reg : U32}
    (hreg : reg.toNat % 4 = 1) :
    devStep env sectors fuel .sdmcDevice s (.read reg) = some { s with values := s.values ++
      [((sdmcReadConfig (reg >>> 2) s.fw.ext).1).setWidth 32] } := by
  have hisreg : IsDevReg reg := by
    rw [IsDevReg, hreg]
    decide
  have hread : virtDevReadReg (deviceTable env sectors fuel) s.fw
      (BitVec.ofNat 32 Vdev.sdmcDevice.index) reg =
        (((sdmcReadConfig (reg >>> 2) s.fw.ext).1).setWidth 32, s.fw) := by
    simp only [virtDevReadReg, virtManagerDecodeReg_eq, hreg, virtDevGet, Vdev.toNat_index,
      if_pos (Vdev.sdmcDevice.index_lt env sectors fuel)]
    rfl
  simp only [devStep, hcall, hisreg, and_self, if_true, hread]

/-- The configuration space begins with the capacity. -/
private theorem BlkConfig.capacity_prefix (c : BlkConfig) : leBytes c.capacity <+: c.bytes := by
  unfold bytes
  simp only [List.append_assoc]
  exact List.prefix_append _ _

theorem BlkConfig.bytes_getElem? (c : BlkConfig) {i : ℕ} (hi : i < 8) :
    c.bytes[i]? = some (c.capacity.extractLsb' (8 * i) 8) := by
  have hlen : i < (leBytes c.capacity).length := by
    rw [length_leBytes]
    exact hi
  obtain ⟨rest, hrest⟩ := c.capacity_prefix
  rw [← hrest, List.getElem?_append_left hlen]
  exact leBytes_getElem? c.capacity hi

/-- The low bytes of the capacity are those of the size the device was reset with. -/
private theorem sdmcReadConfig_capacity {x : World} {size : U32}
    (h : x.sdmcBlkConfig = sdmcHardReset size) {offset : U32} (hoff : offset.toNat < 4) :
    (sdmcReadConfig offset x).1 = size.extractLsb' (8 * offset.toNat) 8 := by
  have hlt : offset.toNat < 60 := by omega
  have hbyte := x.sdmcBlkConfig.bytes_getElem? (i := offset.toNat) (by omega)
  have hlen : offset.toNat < x.sdmcBlkConfig.bytes.length := by
    rw [BlkConfig.length_bytes]
    exact hlt
  rw [List.getElem?_eq_getElem hlen, Option.some.injEq] at hbyte
  have hcapacity : x.sdmcBlkConfig.capacity = size.setWidth 64 := by
    rw [h]
    rfl
  simp only [sdmcReadConfig, dif_pos hlt, List.get_eq_getElem]
  rw [hbyte, hcapacity]
  refine BitVec.eq_of_getLsbD_eq fun j hj => ?_
  have hbit : 8 * offset.toNat + j < 64 := by omega
  simp [hbit]

/-- The driver sees the size that the card gives, or the one that was left over. -/
private theorem exec_capacityReads (w : Fw World) (m : Mem) (tick : ℕ) :
    ∃ t, exec (devStep env sectors fuel .sdmcDevice)
        (afterReset env sectors fuel .sdmcDevice w m tick) capacityReads = some t ∧
      t.observe.1 = (leBytes (sectors.getD w.ext.total_size)).map (·.setWidth 32) := by
  generalize hfw : (afterReset env sectors fuel .sdmcDevice w m tick).fw = fw
  have hreset : afterReset env sectors fuel .sdmcDevice w m tick = ⟨fw, none, []⟩ := by
    rw [← hfw]
    rfl
  have hcfg : fw.ext.sdmcBlkConfig = sdmcHardReset (sectors.getD w.ext.total_size) := by
    rw [← hfw]
    rfl
  have hread (values : List U32) {reg : U32} (hreg : reg.toNat % 4 = 1)
      (hoff : (reg >>> 2).toNat < 4) :
      devStep env sectors fuel .sdmcDevice ⟨fw, none, values⟩ (.read reg) =
        some ⟨fw, none, values ++ [((sectors.getD w.ext.total_size).extractLsb'
          (8 * (reg >>> 2).toNat) 8).setWidth 32]⟩ := by
    rw [devStep_readConfig env sectors fuel _ rfl hreg, sdmcReadConfig_capacity hcfg hoff]
  rw [hreset]
  refine ⟨_, exec_cons.mpr ⟨_, hread _ (by decide) (by decide), exec_cons.mpr
    ⟨_, hread _ (by decide) (by decide), exec_cons.mpr ⟨_, hread _ (by decide) (by decide),
      exec_cons.mpr ⟨_, hread _ (by decide) (by decide), rfl⟩⟩⟩⟩, ?_⟩
  rfl

end Size

/-! ### The current sector -/

section Sector

variable (env : Env) (sectors : Option U32) (fuel : ℕ)

/-- Guest memory with a chain of one data buffer, of one sector at `0x22000000`. -/
def headerlessMem : Mem := guestMem [
  (0x20100002, 1), (0x20000003, 0x22), (0x20000009, 2), (0x2000000C, 2)]

/-- The calls of the driver are among the outputs. -/
private theorem sectorReads_filter (es : List Event) :
    sectorReads (es.filter Event.isOutput) = sectorReads es := by
  rw [sectorReads, List.filterMap_filter, sectorReads]
  refine List.filterMap_congr fun e _ => ?_
  cases e
  all_goals rfl

/-- The driver sees which sector was left over. -/
private theorem exec_headerless (w : Fw World) :
    ∃ t, exec (devStep env sectors fuel .sdmcDevice)
        (afterReset env sectors fuel .sdmcDevice w headerlessMem 0)
        (setupQueue ++ [.call, .step] ++ [.step]) = some t ∧
      sectorReads t.observe.2.2 = [((w.vqs 1 0).priv.toNat, 1, 0x22000000)] := by
  obtain ⟨s, owner, id, virq, hs, hwithin⟩ := exec_fetch env sectors fuel .sdmcDevice w
    headerlessMem 0 0 (by decide)
  obtain ⟨t, ht, hbody⟩ := hwithin.step env sectors fuel
    (fun vdevId => prQueue_body .sdmcDevice env vdevId _ _) (by decide)
  refine ⟨t, exec_append.mpr ⟨s, hs, by simp only [exec, ht, Option.bind_some]⟩, ?_⟩
  rw [hbody.observe, sectorReads_filter, descStep_eq]
  have hdesc : jobDesc env (.start 0) ⟨⟨headerlessMem, [.fetched (0 : U16).toNat]⟩,
      { probeQueue owner id (w.vqs 1 0).priv with availIdx := 1 }, virq, 0⟩ =
        ⟨0x22000000, 512, VDEV_TO_HOST⟩ := by
    have htable : (vqDescAt headerlessMem 0x20000000 0).toVirtDesc =
        ⟨0x22000000, 512, VDEV_TO_HOST⟩ := by decide
    have hmask : (0 : U16) ≤ 1 := by decide
    exact (if_pos hmask).trans htable
  have hdir : VDEV_TO_HOST ≠ HOST_TO_VDEV := by decide
  have hlen : ¬ (512 : U32) < 512 := by decide
  have hdesc' := hdesc
  simp only [Vdev.index] at hdesc' ⊢
  rw [hdesc']
  simp only [Vdev.body, sdmcBody, if_neg hdir, if_neg hlen, sdmmcSdcardReadsectors]
  rfl

end Sector

/-! ### The leftovers on the stack -/

section Stack

variable (env : Env) (sectors : Option U32) (fuel : ℕ) (dev : Vdev)

/-- Guest memory with a head pending that is not in the descriptor table. -/
def strayMem : Mem := guestMem [(0x20100002, 1), (0x20100004, 5)]

/-- The length pushed can be read from the used ring. -/
private theorem read32_pushUsed (m : Mem) {vq : VirtQueue} (first : U16) (len : U32)
    (hidx : vq.usedIdx = 0) :
    (virtQueuePushUsed m vq first len).1.read32 (vq.qUsed + BitVec.ofNat 32 8) = len := by
  have hindex : 8 + 8 * (vq.usedIdx &&& vq.sizeMask).toNat = 8 := by
    simp [hidx]
  simp only [virtQueuePushUsed, hindex]
  refine (Mem.read32_of_eqOn_compl (Mem.eqOn_write16 _ _ _) ?_).trans (Mem.read32_write32 ..)
  exact (disjoint_span_add (by omega) (by omega)).symm

/-- The block device does something with any descriptor but a readable one. -/
private theorem sdmcBody_outputs (desc : VirtDesc) (vjob : VirtJob) (c : Ctx) :
    (sdmcBody env desc (vjob, c)).2.log.filter Event.isOutput = c.log.filter Event.isOutput ↔
      desc.dir = HOST_TO_VDEV := by
  by_cases hdir : desc.dir = HOST_TO_VDEV
  · simp only [sdmcBody, if_pos hdir]
    simp [hdir, Event.isOutput]
  · by_cases hlen : desc.length < 512
    · simp only [sdmcBody, if_neg hdir, if_pos hlen]
      simp [hdir, Event.isOutput]
    · simp only [sdmcBody, if_neg hdir, if_neg hlen, sdmmcSdcardReadsectors]
      simp [hdir, Event.isOutput]

/-- The last round of a chain: the descriptor is worked on, and whatever that did to memory, the
driver puts back what ends the chain there. -/
theorem DevRun.Within.lastRound {s : DevRun} {vjob : VirtJob} {c : Ctx}
    (h : s.Within dev .body vjob c) (m : Mem)
    (hlast : nextDesc m (descStep dev.body env vjob c).2.vq.qDesc
      (descStep dev.body env vjob c).1.currentDesc = none) :
    ∃ t, exec (devStep env sectors fuel dev) s [.step, .driver fun _ => m, .step, .step] = some t ∧
      t.observe.2.1 = (virtQueuePushUsed m (descStep dev.body env vjob c).2.vq vjob.firstDesc
        (descStep dev.body env vjob c).1.totalWritten).1 ∧
      t.observe.2.2 = (descStep dev.body env vjob c).2.log.filter Event.isOutput := by
  obtain ⟨t₁, ht₁, h₁⟩ := h.step env sectors fuel
    (fun vdevId => prQueue_body dev env vdevId _ _) (by decide)
  obtain ⟨t₂, ht₂, h₂⟩ := h₁.driver env sectors fuel m
  obtain ⟨t₃, ht₃, h₃⟩ := h₂.step env sectors fuel
    (fun vdevId => prQueue_fetchNext_of_none dev env vdevId _ _ hlast) (by decide)
  obtain ⟨t₄, ht₄, h₄⟩ := h₃.step env sectors fuel
    (fun vdevId => prQueue_push dev env vdevId _ _) (by decide)
  refine ⟨t₄, by simp only [exec, ht₁, ht₂, ht₃, ht₄, Option.bind_some], ?_, ?_⟩
  · rw [h₄.observe, ← descStep_firstDesc dev env vjob c]
    rfl
  · rw [h₄.observe]
    simp [virtQueuePushJob, Event.isOutput]

/-- What a device makes of a leftover: its length is in the used ring, and if the device is the
block device, the record tells its direction. -/
private theorem exec_stray (w : Fw World) (tick : ℕ) :
    ∃ t, exec (devStep env sectors fuel dev)
        (afterReset env sectors fuel dev w strayMem tick)
        (setupQueue ++ [.call, .step] ++ [.step, .driver fun _ => strayMem, .step, .step]) =
          some t ∧
      t.observe.2.1.read32 0x20200008 = dev.credited (env.junk tick) ∧
      (dev = .sdmcDevice → (t.observe.2.2 = [] ↔ (env.junk tick).dir = HOST_TO_VDEV)) := by
  obtain ⟨s, owner, id, virq, hs, hwithin⟩ := exec_fetch env sectors fuel dev w
    strayMem tick 5 (by decide)
  generalize (w.vqs dev.index 0).priv = priv at hwithin
  set c : Ctx := ⟨⟨strayMem, [.fetched (5 : U16).toNat]⟩,
    { probeQueue owner id priv with availIdx := 1 }, virq, tick⟩ with hc
  set d : VirtDesc := { env.junk tick with data := 0 } with hd
  have hdesc : jobDesc env (.start 5) c = d := by
    have hmask : ¬ (5 : U16) ≤ 1 := by decide
    exact if_neg hmask
  have hcredit : dev.credited d = dev.credited (env.junk tick) := by
    cases dev <;> rfl
  obtain ⟨es, hbody⟩ := descStep_spec dev env (.start 5) c
  rw [hdesc] at hbody
  have hlast : nextDesc strayMem (descStep dev.body env (.start 5) c).2.vq.qDesc
      (descStep dev.body env (.start 5) c).1.currentDesc = none := by
    rw [hbody.vq, hbody.vjob]
    change nextDesc strayMem 0x20000000 5 = none
    decide
  obtain ⟨t, ht, hmem, hlog⟩ := hwithin.lastRound env sectors fuel dev strayMem hlast
  refine ⟨t, exec_append.mpr ⟨s, hs, ht⟩, ?_, ?_⟩
  · have hused : (descStep dev.body env (.start 5) c).2.vq.qUsed + BitVec.ofNat 32 8 =
        0x20200008 := by
      rw [hbody.vq]
      rfl
    have hidx : (descStep dev.body env (.start 5) c).2.vq.usedIdx = 0 := by
      rw [hbody.vq]
      rfl
    have hwritten : (descStep dev.body env (.start 5) c).1.totalWritten = dev.credited d := by
      rw [hbody.vjob]
      exact BitVec.zero_add _
    rw [hmem, ← hcredit, ← hused, ← hwritten]
    exact read32_pushUsed strayMem _ _ hidx
  · rintro rfl
    have hnone : (bodyCtx (.start 5) c).log.filter Event.isOutput = [] := rfl
    rw [hlog, descStep_eq, hdesc, ← sdmcBody_outputs env d (.start 5) (bodyCtx (.start 5) c),
      hnone]
    exact Iff.rfl

end Stack
/-! ### The contract -/

section Contract

variable (env : Env) (sectors : Option U32) (fuel : ℕ) {dev : Vdev} {p p' : Past}

/-- Pasts that cannot be told apart have left the same on the stack, as far as the device goes. -/
theorem ResetErases.stack (h : ResetErases env sectors fuel dev p p') (k : ℕ) :
    dev.SameLeft (p.stack k) (p'.stack k) := by
  obtain ⟨t, ht, hlen, hdir⟩ := exec_stray (env.withJunk p.stack) sectors fuel dev p.fw k
  obtain ⟨t', ht', hlen', hdir'⟩ := exec_stray (env.withJunk p'.stack) sectors fuel dev p'.fw k
  have hobserve := h strayMem k (setupQueue ++ [.call, .step] ++
    [.step, .driver fun _ => strayMem, .step, .step])
  rw [ht, ht', Option.map_some, Option.map_some, Option.some.injEq] at hobserve
  rw [hobserve] at hlen hdir
  refine ⟨hlen'.symm.trans hlen, fun hdev => ?_⟩
  exact (hdir' hdev).symm.trans (hdir hdev)

/-- Pasts that cannot be told apart have left the block device on the same sector. -/
theorem ResetErases.priv (h : ResetErases env sectors fuel .sdmcDevice p p') :
    (p.fw.vqs 1 0).priv = (p'.fw.vqs 1 0).priv := by
  obtain ⟨t, ht, hreads⟩ := exec_headerless (env.withJunk p.stack) sectors fuel p.fw
  obtain ⟨t', ht', hreads'⟩ := exec_headerless (env.withJunk p'.stack) sectors fuel p'.fw
  have hobserve := h headerlessMem 0 (setupQueue ++ [.call, .step] ++ [.step])
  rw [ht, ht', Option.map_some, Option.map_some, Option.some.injEq] at hobserve
  rw [hobserve, hreads', List.cons.injEq, Prod.mk.injEq] at hreads
  exact (BitVec.eq_of_toNat_eq hreads.1.1).symm

/-- Pasts that cannot be told apart have left the same size of the card, if it does not answer. -/
theorem ResetErases.total_size (h : ResetErases env none fuel .sdmcDevice p p') :
    p.fw.ext.total_size = p'.fw.ext.total_size := by
  obtain ⟨t, ht, hvalues⟩ := exec_capacityReads (env.withJunk p.stack) none fuel p.fw (fun _ => 0) 0
  obtain ⟨t', ht', hvalues'⟩ :=
    exec_capacityReads (env.withJunk p'.stack) none fuel p'.fw (fun _ => 0) 0
  have hobserve := h (fun _ => 0) 0 capacityReads
  rw [ht, ht', Option.map_some, Option.map_some, Option.some.injEq] at hobserve
  rw [hobserve, hvalues'] at hvalues
  refine (leBytes_injective (List.map_injective_iff.mpr ?_ hvalues)).symm
  exact fun b b' hb => by simpa using congrArg (BitVec.setWidth 8) hb

/-- **Reset** leaves nothing of a device's past that its driver could ever see if and only if what
the stack holds looks the same to the device and, for the block device, the sector it was on is
the same, and the size of the card too unless the card gives it. -/
theorem resetErases_iff (env : Env) (sectors : Option U32) (fuel : ℕ) (dev : Vdev) (p p' : Past) :
    ResetErases env sectors fuel dev p p' ↔
      (∀ k, dev.SameLeft (p.stack k) (p'.stack k)) ∧
        (dev = .sdmcDevice →
          (p.fw.vqs dev.index 0).priv = (p'.fw.vqs dev.index 0).priv ∧
          (sectors = none → p.fw.ext.total_size = p'.fw.ext.total_size)) := by
  constructor
  · intro h
    refine ⟨h.stack, ?_⟩
    rintro rfl
    refine ⟨h.priv, ?_⟩
    rintro rfl
    exact h.total_size
  · rintro ⟨hleft, hsdmc⟩
    exact resetErases_of_same env sectors fuel hleft (fun hdev => (hsdmc hdev).1.symm)
      fun hdev hnone => ((hsdmc hdev).2 hnone).symm

end Contract

/-- Guest memory with a chain of a request header alone, for sector 5. -/
def headerOnlyMem : Mem := guestMem [
  (0x20100002, 1), (0x20000003, 0x21), (0x20000008, 16), (0x21000008, 5)]

/-- The driver sets up the queue of the block device, and has the request processed. -/
def headerOnlyActions : List RegAction := [
  .access (.writeReg 1 0x202 2), .access (.writeReg 1 0x402 1),
  .access (.writeReg 1 0x802 0x20000000), .access (.writeReg 1 0xA02 0x20100000),
  .access (.writeReg 1 0xC02 0x20200000), .access (.writeReg 1 0x602 0), .process]

/-- A block device that was used, and one that was not, can be told apart after a reset, with
nothing on the stack to tell them apart by. -/
theorem resetErases_stale : ∃ w w',
    exec (regStep (deviceTable idleEnv (some 4096) 8)) (virtDevInitAll
      (deviceTable idleEnv (some 4096) 8) (powerOn.setMem headerOnlyMem)) [] = some w ∧
    exec (regStep (deviceTable idleEnv (some 4096) 8)) (virtDevInitAll
      (deviceTable idleEnv (some 4096) 8) (powerOn.setMem headerOnlyMem)) headerOnlyActions =
        some w' ∧
    ¬ ResetErases idleEnv (some 4096) 8 .sdmcDevice ⟨w, idleEnv.junk⟩ ⟨w', idleEnv.junk⟩ := by
  refine ⟨_, _, rfl, rfl, ?_⟩
  intro h
  exact absurd h.priv (by decide)

end Arm9LinuxFw
