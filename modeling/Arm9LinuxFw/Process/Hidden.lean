import Arm9LinuxFw.Process.Loop

/-!
# What queue processing does not depend on

The processing loop never looks at the owner and the number of its queue, at the virtual
interrupts, or at the identifier of its device but to raise one; and of the two devices only the
block device looks at `priv`. Two runs that differ in these alone go in lockstep.

A descriptor index outside the table is a different matter: the loop then works on the local
`desc` as it finds it, with nothing but `data` set, so what an earlier call has left on the stack
can show. `Vdev.SameLeft` says exactly when two such leftovers do not: the entropy source makes
use of the length that it credits, the block device also of the direction. Runs go in lockstep
over two sequences of leftovers that are pairwise alike in this sense.

* **Relations**: `Vdev.SameQueue`, `Vdev.SameCtx` and `Vdev.SameLeft`.
* **Lemmas**: each function on queues, each device, and a step of the loop
  (`Vdev.SameCtx.prQueue`) takes contexts that look the same to contexts that look the same.
-/

namespace Arm9LinuxFw

open ByteMem CircularList

/-- The queues look the same to device `dev`. -/
def Vdev.SameQueue (dev : Vdev) (vq vq' : VirtQueue) : Prop :=
  ∃ owner id priv, vq' = { vq with owner := owner, id := id, priv := priv } ∧
    (dev = .sdmcDevice → priv = vq.priv)

/-- The contexts look the same to device `dev`. -/
structure Vdev.SameCtx (dev : Vdev) (c c' : Ctx) : Prop where
  bus : c'.toBus = c.toBus
  tick : c'.tick = c.tick
  vq : dev.SameQueue c.vq c'.vq

/-- The device does the same with either of two descriptors that it finds on the stack. -/
def Vdev.SameLeft (dev : Vdev) (desc desc' : VirtDesc) : Prop :=
  dev.credited desc' = dev.credited desc ∧
    (dev = .sdmcDevice → (desc'.dir = HOST_TO_VDEV ↔ desc.dir = HOST_TO_VDEV))

instance (dev : Vdev) (desc desc' : VirtDesc) : Decidable (dev.SameLeft desc desc') :=
  inferInstanceAs (Decidable (_ ∧ _))

/-- The hardware with other leftovers on the stack. -/
def Env.withJunk (env : Env) (junk : ℕ → VirtDesc) : Env := { env with junk := junk }

@[simp] theorem Env.withJunk_hot (env : Env) (junk : ℕ → VirtDesc) :
    (env.withJunk junk).hot = env.hot := rfl
@[simp] theorem Env.withJunk_card (env : Env) (junk : ℕ → VirtDesc) :
    (env.withJunk junk).card = env.card := rfl
@[simp] theorem Env.withJunk_junk (env : Env) (junk : ℕ → VirtDesc) :
    (env.withJunk junk).junk = junk := rfl

variable {dev : Vdev} {vq vq' : VirtQueue} {c c' : Ctx}

theorem Vdev.SameLeft.refl (dev : Vdev) (desc : VirtDesc) : dev.SameLeft desc desc :=
  ⟨rfl, fun _ => Iff.rfl⟩

theorem Vdev.SameQueue.sizeMask (h : dev.SameQueue vq vq') : vq'.sizeMask = vq.sizeMask := by
  obtain ⟨_, _, _, rfl, -⟩ := h
  rfl

theorem Vdev.SameQueue.qDesc (h : dev.SameQueue vq vq') : vq'.qDesc = vq.qDesc := by
  obtain ⟨_, _, _, rfl, -⟩ := h
  rfl

theorem Vdev.SameQueue.priv (h : Vdev.SameQueue .sdmcDevice vq vq') : vq'.priv = vq.priv := by
  obtain ⟨_, _, _, rfl, hpriv⟩ := h
  exact hpriv rfl

private theorem Vdev.SameQueue.setPriv (h : dev.SameQueue vq vq') (priv : U32) :
    dev.SameQueue { vq with priv := priv } { vq' with priv := priv } := by
  obtain ⟨_, _, _, rfl, -⟩ := h
  exact ⟨_, _, _, rfl, fun _ => rfl⟩

/-! ### The functions on queues -/

theorem virtQueueFetchAvailFirst_hidden (m : Mem) (vq : VirtQueue) (owner : U8) (id : BitVec 7)
    (priv : U32) :
    virtQueueFetchAvailFirst m { vq with owner := owner, id := id, priv := priv } =
      ((virtQueueFetchAvailFirst m vq).1,
        { (virtQueueFetchAvailFirst m vq).2 with owner := owner, id := id, priv := priv }) := by
  simp only [virtQueueFetchAvailFirst]
  split_ifs
  all_goals rfl

private theorem virtQueueFetchAvailFirst_priv (m : Mem) (vq : VirtQueue) :
    (virtQueueFetchAvailFirst m vq).2.priv = vq.priv := by
  simp only [virtQueueFetchAvailFirst]
  split_ifs
  all_goals rfl

/-- Queues that look the same give the same head. -/
private theorem Vdev.SameQueue.fetchAvailFirst (h : dev.SameQueue vq vq') (m : Mem) :
    (virtQueueFetchAvailFirst m vq').1 = (virtQueueFetchAvailFirst m vq).1 ∧
      dev.SameQueue (virtQueueFetchAvailFirst m vq).2 (virtQueueFetchAvailFirst m vq').2 := by
  obtain ⟨owner, id, priv, rfl, hpriv⟩ := h
  rw [virtQueueFetchAvailFirst_hidden]
  refine ⟨rfl, owner, id, priv, rfl, ?_⟩
  rw [virtQueueFetchAvailFirst_priv]
  exact hpriv

private theorem Vdev.SameQueue.pushUsed (h : dev.SameQueue vq vq') (m : Mem) (first : U16)
    (len : U32) :
    (virtQueuePushUsed m vq' first len).1 = (virtQueuePushUsed m vq first len).1 ∧
      dev.SameQueue (virtQueuePushUsed m vq first len).2 (virtQueuePushUsed m vq' first len).2 := by
  obtain ⟨owner, id, priv, rfl, hpriv⟩ := h
  exact ⟨rfl, owner, id, priv, rfl, hpriv⟩

theorem Vdev.SameQueue.regRead (h : dev.SameQueue vq vq') (reg : U32) :
    virtQueueRegRead vq' reg = virtQueueRegRead vq reg := by
  obtain ⟨owner, id, priv, rfl, -⟩ := h
  rfl

/-- Queues that look the same do so after the same write to a register. -/
theorem Vdev.SameQueue.regWrite (h : dev.SameQueue vq vq') (l l' : Links ListNode)
    (node : ListNode) (reg val : U32) :
    dev.SameQueue (virtQueueRegWrite l node vq reg val).2
      (virtQueueRegWrite l' node vq' reg val).2 := by
  obtain ⟨owner, id, priv, rfl, hpriv⟩ := h
  simp only [virtQueueRegWrite, virtQueueSetDescCount]
  split
  · split_ifs
    · exact ⟨owner, id, priv, rfl, hpriv⟩
    · exact ⟨owner, id, priv, rfl, hpriv⟩
  · split_ifs
    · exact ⟨owner, id, priv, rfl, hpriv⟩
    · exact ⟨owner, id, priv, rfl, hpriv⟩
  all_goals exact ⟨owner, id, priv, rfl, hpriv⟩

/-! ### The devices -/

/-- The entropy source fills what it credits. -/
private theorem hwrngBody_eq (env : Env) (desc : VirtDesc) (vjob : VirtJob) (c : Ctx) :
    hwrngBody env desc (vjob, c) =
      (virtJobAddWritten vjob (Vdev.credited .hwrngDevice desc),
        hwrngFill env desc.data (Vdev.credited .hwrngDevice desc / 4).toNat c) := by
  by_cases hdir : desc.dir = HOST_TO_VDEV
  · rw [Vdev.credited_of_readable hdir, virtJobAddWritten_zero]
    exact if_pos hdir
  · rw [Vdev.credited_hwrng hdir]
    exact if_neg hdir

/-- The same words are drawn, whatever is left on the stack. -/
theorem Vdev.SameCtx.hwrngFill (h : dev.SameCtx c c') (env : Env) (junk : ℕ → VirtDesc)
    (data : U32) (n : ℕ) :
    dev.SameCtx (hwrngFill env data n c) (hwrngFill (env.withJunk junk) data n c') := by
  induction n with
  | zero => exact h
  | succ n ih =>
    obtain ⟨hbus, htick, hvq⟩ := ih
    refine ⟨?_, ?_, hvq⟩
    · simp only [Arm9LinuxFw.hwrngFill, hbus, htick, Env.withJunk_hot]
    · simp only [Arm9LinuxFw.hwrngFill, htick]

/-- A short buffer is one that the block device credits nothing for. -/
private theorem Vdev.credited_sdmc_eq_zero_iff {desc : VirtDesc} (hdir : desc.dir ≠ HOST_TO_VDEV) :
    Vdev.credited .sdmcDevice desc = 0 ↔ desc.length < 512 := by
  constructor
  · intro hzero
    by_contra hlt
    rw [Vdev.credited_sdmc_of_not_lt hdir hlt] at hzero
    rw [hzero] at hlt
    exact hlt (by decide)
  · exact Vdev.credited_sdmc_of_lt

/-- Of the block device's leftovers the direction counts, and for a long writable one the length. -/
theorem Vdev.SameLeft.sdmc {desc desc' : VirtDesc} (h : Vdev.SameLeft .sdmcDevice desc desc') :
    (desc'.dir = HOST_TO_VDEV ∧ desc.dir = HOST_TO_VDEV) ∨
      (desc'.dir ≠ HOST_TO_VDEV ∧ desc.dir ≠ HOST_TO_VDEV ∧
        ((desc'.length < 512 ∧ desc.length < 512) ∨
          (¬ desc'.length < 512 ∧ ¬ desc.length < 512 ∧ desc'.length = desc.length))) := by
  obtain ⟨hcredit, hdir⟩ := h
  have hdir := hdir rfl
  by_cases hr : desc.dir = HOST_TO_VDEV
  · exact Or.inl ⟨hdir.mpr hr, hr⟩
  · have hr' : desc'.dir ≠ HOST_TO_VDEV := fun h' => hr (hdir.mp h')
    refine Or.inr ⟨hr', hr, ?_⟩
    have hshort : desc'.length < 512 ↔ desc.length < 512 := by
      rw [← Vdev.credited_sdmc_eq_zero_iff hr', ← Vdev.credited_sdmc_eq_zero_iff hr, hcredit]
    by_cases hlt : desc.length < 512
    · exact Or.inl ⟨hshort.mpr hlt, hlt⟩
    · have hlt' : ¬ desc'.length < 512 := fun h' => hlt (hshort.mp h')
      rw [Vdev.credited_sdmc_of_not_lt hr' hlt', Vdev.credited_sdmc_of_not_lt hr hlt] at hcredit
      exact Or.inr ⟨hlt', hlt, hcredit⟩

/-- The device does the same with two buffers at one address that it cannot tell apart. -/
theorem Vdev.SameCtx.body (h : dev.SameCtx c c') (env : Env) (junk : ℕ → VirtDesc)
    {desc desc' : VirtDesc} (hdata : desc'.data = desc.data) (hleft : dev.SameLeft desc desc')
    (vjob : VirtJob) :
    (dev.body (env.withJunk junk) desc' (vjob, c')).1 = (dev.body env desc (vjob, c)).1 ∧
      dev.SameCtx (dev.body env desc (vjob, c)).2
        (dev.body (env.withJunk junk) desc' (vjob, c')).2 := by
  cases dev with
  | hwrngDevice =>
    simp only [Vdev.body, hwrngBody_eq, hleft.1, hdata]
    exact ⟨trivial, h.hwrngFill env junk _ _⟩
  | sdmcDevice =>
    obtain ⟨hbus, htick, hvq⟩ := h
    rcases hleft.sdmc with ⟨hr', hr⟩ | ⟨hr', hr, ⟨hlt', hlt⟩ | ⟨hlt', hlt, hlen⟩⟩
    · simp only [Vdev.body, sdmcBody, if_pos hr, if_pos hr', hdata]
      refine ⟨trivial, ?_, htick, ?_⟩
      · rw [hbus]
      · rw [hbus]
        exact hvq.setPriv _
    · simp only [Vdev.body, sdmcBody, if_neg hr, if_neg hr', if_pos hlt, if_pos hlt', hdata]
      exact ⟨trivial, by rw [hbus], htick, hvq⟩
    -- the sector a read starts from is the word that is compared
    · simp only [Vdev.body, sdmcBody, if_neg hr, if_neg hr', if_neg hlt, hdata, hlen]
      refine ⟨trivial, ?_, ?_, ?_⟩
      · simp only [sdmmcSdcardReadsectors, hbus, htick, hvq.priv, Env.withJunk_card]
      · simp only [sdmmcSdcardReadsectors, htick]
      · simp only [sdmmcSdcardReadsectors, hvq.priv]
        exact hvq.setPriv _

/-- Either descriptor comes from the table, and is the same, or is a leftover with its `data`
set to NULL. -/
theorem Vdev.SameCtx.jobDesc (h : dev.SameCtx c c') (env : Env) {junk : ℕ → VirtDesc}
    (hleft : ∀ k, dev.SameLeft (env.junk k) (junk k)) (vjob : VirtJob) :
    (jobDesc (env.withJunk junk) vjob c').data = (jobDesc env vjob c).data ∧
      dev.SameLeft (jobDesc env vjob c) (jobDesc (env.withJunk junk) vjob c') := by
  simp only [Arm9LinuxFw.jobDesc, h.vq.sizeMask, h.vq.qDesc, h.bus, h.tick]
  split_ifs
  · exact ⟨rfl, .refl dev _⟩
  · refine ⟨rfl, ?_⟩
    obtain ⟨hcredit, hdir⟩ := hleft c.tick
    refine ⟨?_, hdir⟩
    cases dev with
    | hwrngDevice => exact hcredit
    | sdmcDevice => exact hcredit

/-- **A round** does the same on what looks the same, also where it goes by the leftovers. -/
theorem Vdev.SameCtx.descStep (h : dev.SameCtx c c') (env : Env) {junk : ℕ → VirtDesc}
    (hleft : ∀ k, dev.SameLeft (env.junk k) (junk k)) (vjob : VirtJob) :
    (descStep dev.body (env.withJunk junk) vjob c').1 = (descStep dev.body env vjob c).1 ∧
      dev.SameCtx (descStep dev.body env vjob c).2
        (descStep dev.body (env.withJunk junk) vjob c').2 := by
  obtain ⟨hdata, hsame⟩ := h.jobDesc env hleft vjob
  have hctx : dev.SameCtx (bodyCtx vjob c) (bodyCtx vjob c') := by
    refine ⟨?_, ?_, h.vq⟩
    · simp only [bodyCtx, getEvents, h.vq.sizeMask, h.bus]
    · simp only [bodyCtx, h.tick]
  rw [descStep_eq, descStep_eq]
  exact hctx.body env junk hdata hsame vjob

/-! ### The loop -/

/-- **Lockstep.** A step of the loop does the same from contexts that look the same, over
leftovers that the device cannot tell apart. -/
theorem Vdev.SameCtx.prQueue (h : dev.SameCtx c c') (env : Env) {junk : ℕ → VirtDesc}
    (hleft : ∀ k, dev.SameLeft (env.junk k) (junk k)) (vdevId vdevId' : U32) (pc : Pc)
    (vjob : VirtJob) :
    (dev.prQueue (env.withJunk junk) vdevId' ⟨pc, vjob, c'⟩).pc =
        (dev.prQueue env vdevId ⟨pc, vjob, c⟩).pc ∧
      (dev.prQueue (env.withJunk junk) vdevId' ⟨pc, vjob, c'⟩).vjob =
        (dev.prQueue env vdevId ⟨pc, vjob, c⟩).vjob ∧
      dev.SameCtx (dev.prQueue env vdevId ⟨pc, vjob, c⟩).ctx
        (dev.prQueue (env.withJunk junk) vdevId' ⟨pc, vjob, c'⟩).ctx := by
  obtain ⟨hbus, htick, hvq⟩ := id h
  rw [dev.prQueue_eq]
  cases pc with
  | fetchNew =>
    obtain ⟨hret, hvq'⟩ := hvq.fetchAvailFirst c.mem
    simp only [processQueue, virtQueueFetchJobNew, hbus, hret]
    exact ⟨rfl, trivial, rfl, htick, hvq'⟩
  | body =>
    obtain ⟨hvjob, hctx⟩ := h.descStep env hleft vjob
    exact ⟨rfl, hvjob, hctx⟩
  | fetchNext =>
    simp only [processQueue, virtQueueFetchJobNext, virtQueueFetchAvailNext_eq, hbus, hvq.qDesc]
    exact ⟨trivial, trivial, rfl, htick, hvq⟩
  | push =>
    obtain ⟨hmem, hvq'⟩ := hvq.pushUsed c.mem vjob.firstDesc vjob.totalWritten
    simp only [processQueue, virtQueuePushJob, hbus]
    exact ⟨trivial, trivial, by rw [hmem], htick, hvq'⟩
  | notify => exact ⟨rfl, rfl, hbus, htick, hvq⟩
  | done => exact ⟨rfl, rfl, h⟩

end Arm9LinuxFw
