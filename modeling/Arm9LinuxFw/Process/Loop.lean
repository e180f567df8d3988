import Arm9LinuxFw.Process.Step

/-!
# The processing loop, step by step

`prQueue` is a function on configurations: where in the two loops it is, the job, and the context
with memory, queue and hardware. There is one equation for every step here, so that invariants of
runs are proved by a case for each, without unfolding the loop.

* `nextDesc` is the link that a table entry has, and `jobDesc` the descriptor that the inner loop
  works on: what `virtQueueGetDesc` makes of the entry at the current index, or, for an index that
  it rejects, NULL with a length and a direction that were never set (`Env.junk`).
* `prQueue_fetchNew_of_head`, `prQueue_body` and so on are the equations. The branches follow the
  source: no head or a head, a link or the end of the chain, push, notify, return.
* `VirtQueue.SameSetup` holds between two states of a queue with the same configuration. No
  step changes that, so the rings and the table stay where they are during a run
  (`iterate_sameSetup`).
* `InUse` are the table entries that a run can come to as long as memory stays as it is: the heads
  that are pending and what they link to.
-/

namespace Arm9LinuxFw

open ByteMem LinkGraph

/-! ### The configuration of a queue -/

/-- `vq` is `vq'` up to the positions in the rings and the device's private word. -/
def VirtQueue.SameSetup (vq vq' : VirtQueue) : Prop :=
  ∃ availIdx usedIdx priv,
    vq = { vq' with availIdx := availIdx, usedIdx := usedIdx, priv := priv }

namespace VirtQueue.SameSetup

variable {vq vq' vq'' : VirtQueue}

theorem refl (vq : VirtQueue) : vq.SameSetup vq := ⟨_, _, _, rfl⟩

theorem trans (h : vq.SameSetup vq') (h' : vq'.SameSetup vq'') : vq.SameSetup vq'' := by
  obtain ⟨_, _, _, rfl⟩ := h
  obtain ⟨_, _, _, rfl⟩ := h'
  exact ⟨_, _, _, rfl⟩

theorem symm (h : vq.SameSetup vq') : vq'.SameSetup vq := by
  obtain ⟨_, _, _, rfl⟩ := h
  exact ⟨_, _, _, rfl⟩

theorem sizeMask (h : vq.SameSetup vq') : vq.sizeMask = vq'.sizeMask := by
  obtain ⟨_, _, _, rfl⟩ := h
  rfl

theorem qDesc (h : vq.SameSetup vq') : vq.qDesc = vq'.qDesc := by
  obtain ⟨_, _, _, rfl⟩ := h
  rfl

theorem qUsed (h : vq.SameSetup vq') : vq.qUsed = vq'.qUsed := by
  obtain ⟨_, _, _, rfl⟩ := h
  rfl

theorem size (h : vq.SameSetup vq') : vq.size = vq'.size := by
  rw [VirtQueue.size, h.sizeMask, VirtQueue.size]

theorem sizePow2 (h : vq.SameSetup vq') (hp : vq'.SizePow2) : vq.SizePow2 := by
  rw [SizePow2, h.size]
  exact hp

theorem availSpan (h : vq.SameSetup vq') : vq.availSpan = vq'.availSpan := by
  obtain ⟨_, _, _, rfl⟩ := h
  rfl

theorem usedSpan (h : vq.SameSetup vq') : vq.usedSpan = vq'.usedSpan := by
  obtain ⟨_, _, _, rfl⟩ := h
  rfl

/-- Which heads are pending depends on the setup and the position in the available ring. -/
theorem pendingHeads (h : vq.SameSetup vq') (ha : vq.availIdx = vq'.availIdx) (m : Mem) :
    pendingHeads m vq = pendingHeads m vq' := by
  obtain ⟨_, _, _, rfl⟩ := h
  obtain rfl : _ = vq'.availIdx := ha
  rfl

end VirtQueue.SameSetup

/-- Only the private word is changed by a device. -/
theorem BodySpec.sameSetup {dev : Vdev} {desc : VirtDesc} {vjob vjob' : VirtJob} {c c' : Ctx}
    {es : List Event} (h : BodySpec dev desc vjob c vjob' c' es) : c'.vq.SameSetup c.vq :=
  ⟨_, _, _, h.vq⟩

/-- Fetching a head advances the position in the ring and nothing else. -/
private theorem virtQueueFetchAvailFirst_sameSetup (m : Mem) (vq : VirtQueue) :
    (virtQueueFetchAvailFirst m vq).2.SameSetup vq := by
  simp only [virtQueueFetchAvailFirst]
  split_ifs
  · exact .refl _
  · exact .refl _
  · exact ⟨_, _, _, rfl⟩

/-! ### Links and descriptors -/

/-- The link of entry `i` of the descriptor table, if it has one. -/
def nextDesc (m : Mem) (qDesc : U32) (i : U16) : Option U16 :=
  let d := vqDescAt m qDesc i
  if d.flags &&& VQ_DESC_F_NEXT ≠ 0 then some d.next else none

/-- The function returns the link of the entry, or -1, and has loaded that one entry. -/
theorem virtQueueFetchAvailNext_eq (b : Bus) (vq : VirtQueue) (prev : U16) :
    virtQueueFetchAvailNext b vq prev =
      ((nextDesc b.mem vq.qDesc prev).elim (-1) fun i => (i.toNat : ℤ), b.emit (.desc prev)) := by
  simp only [virtQueueFetchAvailNext, nextDesc]
  split_ifs <;> rfl

theorem nextDesc_congr {m m' : Mem} {qDesc : U32} {i : U16}
    (h : vqDescAt m' qDesc i = vqDescAt m qDesc i) : nextDesc m' qDesc i = nextDesc m qDesc i := by
  simp only [nextDesc, h]

/-- What the local `desc` of the inner loop holds once `virtQueueGetJobDesc` has returned. -/
def jobDesc (env : Env) (vjob : VirtJob) (c : Ctx) : VirtDesc :=
  if vjob.currentDesc ≤ c.vq.sizeMask then (vqDescAt c.mem c.vq.qDesc vjob.currentDesc).toVirtDesc
  else { env.junk c.tick with data := 0 }

/-- The table accesses of `virtQueueGetJobDesc`. -/
def getEvents (vjob : VirtJob) (c : Ctx) : List Event :=
  if vjob.currentDesc ≤ c.vq.sizeMask then [.desc vjob.currentDesc] else []

/-- The context the device specific part starts in. -/
def bodyCtx (vjob : VirtJob) (c : Ctx) : Ctx :=
  { c with log := c.log ++ getEvents vjob c, tick := c.tick + 1 }

theorem descStep_eq (body : Body) (env : Env) (vjob : VirtJob) (c : Ctx) :
    descStep body env vjob c = body env (jobDesc env vjob c) (vjob, bodyCtx vjob c) := by
  simp only [descStep, virtQueueGetJobDesc, virtQueueGetDesc, jobDesc, bodyCtx, getEvents]
  split_ifs with h
  · rfl
  · simp only [Ctx.withBus, List.append_nil]

/-- What a round of the inner loop does up to its condition. -/
theorem descStep_spec (dev : Vdev) (env : Env) (vjob : VirtJob) (c : Ctx) : ∃ es,
    BodySpec dev (jobDesc env vjob c) vjob (bodyCtx vjob c) (descStep dev.body env vjob c).1
      (descStep dev.body env vjob c).2 es := by
  rw [descStep_eq]
  exact dev.body_spec env (jobDesc env vjob c) vjob (bodyCtx vjob c)

/-- The device does not touch the index that the loop follows the links by. -/
@[simp]
theorem descStep_currentDesc (dev : Vdev) (env : Env) (vjob : VirtJob) (c : Ctx) :
    (descStep dev.body env vjob c).1.currentDesc = vjob.currentDesc := by
  obtain ⟨es, h⟩ := descStep_spec dev env vjob c
  rw [h.vjob]
  rfl

@[simp]
theorem descStep_firstDesc (dev : Vdev) (env : Env) (vjob : VirtJob) (c : Ctx) :
    (descStep dev.body env vjob c).1.firstDesc = vjob.firstDesc := by
  obtain ⟨es, h⟩ := descStep_spec dev env vjob c
  rw [h.vjob]
  rfl

@[simp]
theorem descStep_availIdx (dev : Vdev) (env : Env) (vjob : VirtJob) (c : Ctx) :
    (descStep dev.body env vjob c).2.vq.availIdx = c.vq.availIdx := by
  obtain ⟨es, h⟩ := descStep_spec dev env vjob c
  rw [h.vq]
  rfl

/-! ### The steps -/

section Steps

variable (dev : Vdev) (env : Env) (vdevId : U32) (vjob : VirtJob) (c : Ctx)

/-- The job record that `virtQueueFetchJobNew` sets up for a head. -/
def VirtJob.start (head : U16) : VirtJob := ⟨head, head, 0⟩

theorem ofInt_toNat {w : ℕ} (x : BitVec w) : BitVec.ofInt w (x.toNat : ℤ) = x := by
  rw [BitVec.ofInt_natCast, BitVec.ofNat_toNat, BitVec.setWidth_eq]

/-- With a head to be had, a job starts on it. -/
theorem prQueue_fetchNew_of_head {head : U16} {vq : VirtQueue}
    (h : virtQueueFetchAvailFirst c.mem c.vq = ((head.toNat : ℤ), vq)) :
    dev.prQueue env vdevId ⟨.fetchNew, vjob, c⟩ =
      ⟨.body, .start head, { c with log := c.log ++ [.fetched head.toNat], vq := vq }⟩ := by
  have hpos : (0 : ℤ) ≤ (head.toNat : ℤ) := Int.natCast_nonneg _
  simp only [dev.prQueue_eq, processQueue, virtQueueFetchJobNew, h, ofInt_toNat, if_pos hpos]
  rfl

/-- With none left, the loop is over and the host is told. -/
theorem prQueue_fetchNew_of_none {vq : VirtQueue}
    (h : virtQueueFetchAvailFirst c.mem c.vq = (-1, vq)) :
    dev.prQueue env vdevId ⟨.fetchNew, vjob, c⟩ =
      ⟨.notify, ⟨BitVec.ofInt 16 (-1), BitVec.ofInt 16 (-1), 0⟩,
        { c with log := c.log ++ [.fetched (-1)], vq := vq }⟩ := by
  simp only [dev.prQueue_eq, processQueue, virtQueueFetchJobNew, h]
  rfl

theorem prQueue_body :
    dev.prQueue env vdevId ⟨.body, vjob, c⟩ =
      ⟨.fetchNext, (descStep dev.body env vjob c).1, (descStep dev.body env vjob c).2⟩ := by
  rw [dev.prQueue_eq]
  rfl

/-- An entry with a link: the next round is on the entry it names, whatever that is. -/
theorem prQueue_fetchNext_of_some {i : U16}
    (h : nextDesc c.mem c.vq.qDesc vjob.currentDesc = some i) :
    dev.prQueue env vdevId ⟨.fetchNext, vjob, c⟩ =
      ⟨.body, { vjob with currentDesc := i },
        { c with log := c.log ++ [.desc vjob.currentDesc] }⟩ := by
  have hpos : (0 : ℤ) ≤ (i.toNat : ℤ) := Int.natCast_nonneg _
  simp only [dev.prQueue_eq, processQueue, virtQueueFetchJobNext, virtQueueFetchAvailNext_eq, h,
    Option.elim, ofInt_toNat, if_pos hpos]
  rfl

/-- An entry without one ends the chain. -/
theorem prQueue_fetchNext_of_none
    (h : nextDesc c.mem c.vq.qDesc vjob.currentDesc = none) :
    dev.prQueue env vdevId ⟨.fetchNext, vjob, c⟩ =
      ⟨.push, { vjob with currentDesc := BitVec.ofInt 16 (-1) },
        { c with log := c.log ++ [.desc vjob.currentDesc] }⟩ := by
  simp only [dev.prQueue_eq, processQueue, virtQueueFetchJobNext, virtQueueFetchAvailNext_eq, h,
    Option.elim]
  rfl

/-- One round of the inner loop, to the next descriptor. -/
theorem iterate_round_of_some {i : U16}
    (h : nextDesc (descStep dev.body env vjob c).2.mem (descStep dev.body env vjob c).2.vq.qDesc
      vjob.currentDesc = some i) :
    (dev.prQueue env vdevId)^[2] ⟨.body, vjob, c⟩ =
      ⟨.body, { (descStep dev.body env vjob c).1 with currentDesc := i },
        { (descStep dev.body env vjob c).2 with
          log := (descStep dev.body env vjob c).2.log ++ [.desc vjob.currentDesc] }⟩ := by
  have hcur := descStep_currentDesc dev env vjob c
  rw [← hcur] at h ⊢
  change dev.prQueue env vdevId (dev.prQueue env vdevId ⟨.body, vjob, c⟩) = _
  rw [prQueue_body, prQueue_fetchNext_of_some _ _ _ _ _ h]

/-- The last round of the inner loop. -/
theorem iterate_round_of_none
    (h : nextDesc (descStep dev.body env vjob c).2.mem (descStep dev.body env vjob c).2.vq.qDesc
      vjob.currentDesc = none) :
    (dev.prQueue env vdevId)^[2] ⟨.body, vjob, c⟩ =
      ⟨.push, { (descStep dev.body env vjob c).1 with currentDesc := BitVec.ofInt 16 (-1) },
        { (descStep dev.body env vjob c).2 with
          log := (descStep dev.body env vjob c).2.log ++ [.desc vjob.currentDesc] }⟩ := by
  have hcur := descStep_currentDesc dev env vjob c
  rw [← hcur] at h ⊢
  change dev.prQueue env vdevId (dev.prQueue env vdevId ⟨.body, vjob, c⟩) = _
  rw [prQueue_body, prQueue_fetchNext_of_none _ _ _ _ _ h]

/-- The chain goes to the used ring, and the loop looks for another head. -/
theorem prQueue_push :
    dev.prQueue env vdevId ⟨.push, vjob, c⟩ =
      ⟨.fetchNew, vjob, virtQueuePushJob c vjob⟩ := by
  rw [dev.prQueue_eq]
  rfl

/-- The interrupt of the device is raised, once for all that was processed. -/
theorem prQueue_notify :
    dev.prQueue env vdevId ⟨.notify, vjob, c⟩ =
      ⟨.done, vjob, { c with virq := virtDevNotifyHost c.virq vdevId VIRQ_VQUEUE }⟩ := by
  rw [dev.prQueue_eq]
  rfl

theorem prQueue_done :
    dev.prQueue env vdevId ⟨.done, vjob, c⟩ = ⟨.done, vjob, c⟩ := by
  rw [dev.prQueue_eq]
  rfl

end Steps

/-! ### What a run leaves alone -/

/-- No step touches the configuration of the queue. -/
theorem prQueue_sameSetup (dev : Vdev) (env : Env) (vdevId : U32) (s : Config) :
    (dev.prQueue env vdevId s).ctx.vq.SameSetup s.ctx.vq := by
  rw [dev.prQueue_eq]
  obtain ⟨pc, vjob, c⟩ := s
  cases pc with
  | fetchNew => exact virtQueueFetchAvailFirst_sameSetup c.mem c.vq
  | body =>
    obtain ⟨es, h⟩ := descStep_spec dev env vjob c
    exact h.sameSetup
  | fetchNext => exact .refl _
  | push => exact ⟨_, _, _, rfl⟩
  | notify => exact .refl _
  | done => exact .refl _

/-- So no run does. -/
theorem iterate_sameSetup (dev : Vdev) (env : Env) (vdevId : U32) (s : Config) (n : ℕ) :
    ((dev.prQueue env vdevId)^[n] s).ctx.vq.SameSetup s.ctx.vq := by
  induction n with
  | zero => exact .refl _
  | succ n ih =>
    rw [Function.iterate_succ_apply']
    exact (prQueue_sameSetup dev env vdevId _).trans ih

/-! ### Descriptors a run can meet -/

/-- The descriptors that the links of the pending heads lead to. -/
def InUse (m : Mem) (vq : VirtQueue) (i : U16) : Prop :=
  ∃ head ∈ pendingHeads m vq,
    Relation.ReflTransGen (fun a b => nextDesc m vq.qDesc a = some b) head i

theorem InUse.of_head {m : Mem} {vq : VirtQueue} {head : U16} (h : head ∈ pendingHeads m vq) :
    InUse m vq head := ⟨head, h, .refl⟩

theorem InUse.next {m : Mem} {vq : VirtQueue} {i j : U16} (h : InUse m vq i)
    (hij : nextDesc m vq.qDesc i = some j) : InUse m vq j := by
  obtain ⟨head, hhead, hreach⟩ := h
  exact ⟨head, hhead, hreach.tail hij⟩

end Arm9LinuxFw
