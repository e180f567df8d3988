import Arm9LinuxFw.Process.Completion
import Arm9LinuxFw.Service.Model

/-!
# What the drivers owe

A driver keeps the rings of all queues, the descriptor tables and the buffers of the requests in
flight apart, puts only table entries into its chains, and leaves one slot of the available ring
free.

* `Service.Root` is a table entry that the firmware may start from: a head that is pending, or the
  entry that a call is at. `Service.Busy` are those and what they link to, so what a driver has lent
  to the firmware.
* `Service.Kept` says that memory is in order: busy entries are inside the table, and their buffers
  apart from the rings and tables of both queues. `Service.RingsApart` says so of the rings.
* `stepSpan` is what a step of a `prQueue` stores to, a buffer or the used ring. So a step of a call
  leaves all available rings and tables, and with them everything that is in order
  (`Calls.kept`): a device cannot break what the drivers have kept to.
* The order of things depends on little of the state, which `Kept.mono` says once for the steps of
  both sides.
-/

namespace Arm9LinuxFw

open ByteMem Transition

/-! ### What a step stores to -/

/-- The addresses that a step of the processing loop may store to. -/
def stepSpan (env : Env) (s : Config) : Set U32 :=
  match s.pc with
  | .body => (jobDesc env s.vjob s.ctx).bufferSpan
  | .push => s.ctx.vq.usedSpan
  | _ => ∅

/-- A step stores to the buffer it is at, or to the used ring when it pushes. -/
private theorem prQueue_eqOn (dev : Vdev) (env : Env) (vdevId : U32) (s : Config) :
    Set.EqOn (dev.prQueue env vdevId s).ctx.mem s.ctx.mem (stepSpan env s)ᶜ := by
  obtain ⟨pc, vjob, c⟩ := s
  cases pc with
  | body =>
    obtain ⟨es, hspec⟩ := descStep_spec dev env vjob c
    rw [prQueue_body]
    exact hspec.mem.mono (Set.compl_subset_compl.mpr (storedAt_subset_bufferSpan hspec.through))
  | push =>
    rw [prQueue_push]
    exact virtQueuePushUsed_eqOn _ _ _ _
  | fetchNext =>
    rcases hlink : nextDesc c.mem c.vq.qDesc vjob.currentDesc with _ | i
    · rw [prQueue_fetchNext_of_none _ _ _ _ _ hlink]
      exact Set.eqOn_refl _ _
    · rw [prQueue_fetchNext_of_some _ _ _ _ _ hlink]
      exact Set.eqOn_refl _ _
  | fetchNew | notify | done =>
    rw [dev.prQueue_eq]
    exact Set.eqOn_refl _ _

namespace VirtQueue

/-- The addresses that a queue takes up. -/
def area (vq : VirtQueue) : Set U32 := vq.availSpan ∪ vq.descSpan ∪ vq.usedSpan

theorem SameSetup.area {vq vq' : VirtQueue} (h : vq.SameSetup vq') : vq.area = vq'.area := by
  obtain ⟨_, _, _, rfl⟩ := h
  rfl

theorem SameSetup.descSpan {vq vq' : VirtQueue} (h : vq.SameSetup vq') :
    vq.descSpan = vq'.descSpan := by
  obtain ⟨_, _, _, rfl⟩ := h
  rfl

end VirtQueue

namespace Service

/-! ### Memory in order -/

section Kept

variable (s : Service) (dev : Vdev)

/-- The descriptors that requests in flight start from, or go on with: pending heads, and the
descriptor that a call is at. -/
def Root (i : U16) : Prop :=
  i ∈ pendingHeads s.mem (s.queue dev) ∨
    ∃ c, s.call = some c ∧ c.queue = (dev.index, 0) ∧ (c.pc = .body ∨ c.pc = .fetchNext) ∧
      c.vjob.currentDesc = i

/-- The descriptors that the links lead to from there. -/
def Busy (i : U16) : Prop :=
  ∃ r, s.Root dev r ∧
    Relation.ReflTransGen (fun a b => nextDesc s.mem (s.queue dev).qDesc a = some b) r i

/-- Chains stay inside their table, and buffers apart from what the queues take up. -/
structure Kept : Prop where
  inTable : ∀ i, s.Busy dev i → i.toNat < (s.queue dev).size
  buffer : ∀ i, s.Busy dev i → ∀ dev',
    Disjoint (descOf s.mem (s.queue dev) i).bufferSpan (s.queue dev').area

/-- The rings of the two queues are apart. -/
structure RingsApart : Prop where
  used : ∀ dev dev', Disjoint (s.queue dev).usedSpan
    ((s.queue dev').availSpan ∪ (s.queue dev').descSpan)
  usedUsed : ∀ dev dev', dev ≠ dev' → Disjoint (s.queue dev).usedSpan (s.queue dev').usedSpan
  avail : ∀ dev dev', dev ≠ dev' → Disjoint (s.queue dev).availSpan
    ((s.queue dev').availSpan ∪ (s.queue dev').usedSpan)

end Kept

variable {s t : Service} {dev : Vdev}

theorem Busy.of_root {i : U16} (h : s.Root dev i) : s.Busy dev i := ⟨i, h, .refl⟩

theorem Busy.next {i j : U16} (h : s.Busy dev i)
    (hij : nextDesc s.mem (s.queue dev).qDesc i = some j) : s.Busy dev j := by
  obtain ⟨r, hr, hreach⟩ := h
  exact ⟨r, hr, hreach.tail hij⟩

/-- A step that leaves the descriptor table alone, and starts from no other descriptors, is
busy with no other ones. -/
theorem Kept.busy (h : s.Kept dev) (hsetup : (t.queue dev).SameSetup (s.queue dev))
    (hdesc : Set.EqOn t.mem s.mem (s.queue dev).descSpan)
    (hroot : ∀ i, t.Root dev i → s.Busy dev i) {i : U16} (hi : t.Busy dev i) : s.Busy dev i := by
  obtain ⟨r, hr, hreach⟩ := hi
  -- along the chain, which stays in the table
  induction hreach with
  | refl => exact hroot r hr
  | tail _ hij ih =>
    refine ih.next ?_
    rw [← hij, hsetup.qDesc]
    exact (nextDesc_congr (vqDescAt_congr hdesc (h.inTable _ ih))).symm

/-- Memory stays in order as long as the tables stay and nothing new is started from. -/
theorem Kept.mono (h : s.Kept dev) (hsetup : ∀ dev, (t.queue dev).SameSetup (s.queue dev))
    (hdesc : Set.EqOn t.mem s.mem (s.queue dev).descSpan)
    (hroot : ∀ i, t.Root dev i → s.Busy dev i) : t.Kept dev where
  inTable i hi := by
    rw [(hsetup dev).size]
    exact h.inTable i (h.busy (hsetup dev) hdesc hroot hi)
  buffer i hi dev' := by
    have hbusy := h.busy (hsetup dev) hdesc hroot hi
    rw [(hsetup dev').area, descOf, (hsetup dev).qDesc, vqDescAt_congr hdesc (h.inTable i hbusy)]
    exact h.buffer i hbusy dev'

/-- The rings stay where they are set up. -/
theorem RingsApart.mono (h : s.RingsApart) (hsetup : ∀ dev, (t.queue dev).SameSetup (s.queue dev)) :
    t.RingsApart where
  used dev dev' := by
    rw [(hsetup dev).usedSpan, (hsetup dev').availSpan, (hsetup dev').descSpan]
    exact h.used dev dev'
  usedUsed dev dev' hne := by
    rw [(hsetup dev).usedSpan, (hsetup dev').usedSpan]
    exact h.usedUsed dev dev' hne
  avail dev dev' hne := by
    rw [(hsetup dev).availSpan, (hsetup dev').availSpan, (hsetup dev').usedSpan]
    exact h.avail dev dev' hne

/-! ### A step of a call -/

/-- The call `c` is in progress, for the queue of `dev` and to `dev` itself. -/
structure Calls (s : Service) (dev : Vdev) (c : QueueCall) : Prop where
  call : s.call = some c
  owner : c.owner = dev.index
  queue : c.queue = (dev.index, 0)

section Call

variable {c : QueueCall} {env : Env} {sectors : Option U32}

/-- The state of the processing loop that a call comes to next. -/
def callNext (env : Env) (s : Service) (dev : Vdev) (c : QueueCall) : Config :=
  dev.prQueue env (s.fw.devs dev.index).id ⟨c.pc, c.vjob, s.ctx dev⟩

theorem callNext_sameSetup : (callNext env s dev c).ctx.vq.SameSetup (s.queue dev) :=
  prQueue_sameSetup dev env _ _

theorem advance_sameSetup (dev' : Vdev) :
    ((s.advance dev c (callNext env s dev c)).queue dev').SameSetup (s.queue dev') := by
  rw [advance_queue]
  split_ifs with h
  · rw [h]
    exact callNext_sameSetup
  · exact .refl _

/-- The inner loop is at a descriptor in use. -/
theorem Calls.busy (h : s.Calls dev c) (hpc : c.pc = .body ∨ c.pc = .fetchNext) :
    s.Busy dev c.vjob.currentDesc :=
  .of_root (Or.inr ⟨c, h.call, h.queue, hpc, rfl⟩)

/-- The descriptor that the inner loop works on is one of the table. -/
theorem Calls.jobDesc_eq (h : s.Calls dev c) (hkept : s.Kept dev) (hpc : c.pc = .body) :
    jobDesc env c.vjob (s.ctx dev) = descOf s.mem (s.queue dev) c.vjob.currentDesc := by
  have hlt := hkept.inTable _ (h.busy (Or.inl hpc))
  rw [VirtQueue.size, Nat.lt_succ_iff, ← BitVec.le_def] at hlt
  exact if_pos hlt

/-- A call stores to buffers, and to its own used ring when it pushes. -/
private theorem Calls.stepSpan_disjoint (h : s.Calls dev c) (hkept : s.Kept dev)
    (hrings : s.RingsApart)
    (dev' : Vdev) : Disjoint (stepSpan env ⟨c.pc, c.vjob, s.ctx dev⟩)
      ((s.queue dev').availSpan ∪ (s.queue dev').descSpan) := by
  simp only [stepSpan]
  split
  case h_1 hpc =>
    rw [h.jobDesc_eq hkept hpc]
    exact (hkept.buffer _ (h.busy (Or.inl hpc)) dev').mono_right Set.subset_union_left
  case h_2 => exact hrings.used dev dev'
  case h_3 => exact Set.empty_disjoint _

/-- Used rings change by pushes of their own queue only. -/
private theorem Calls.stepSpan_disjoint_used (h : s.Calls dev c) (hkept : s.Kept dev)
    (hrings : s.RingsApart) {dev' : Vdev} (hpush : c.pc = .push → dev ≠ dev') :
    Disjoint (stepSpan env ⟨c.pc, c.vjob, s.ctx dev⟩) (s.queue dev').usedSpan := by
  simp only [stepSpan]
  split
  case h_1 hpc =>
    rw [h.jobDesc_eq hkept hpc]
    exact (hkept.buffer _ (h.busy (Or.inl hpc)) dev').mono_right Set.subset_union_right
  case h_2 hpc => exact hrings.usedUsed dev dev' (hpush hpc)
  case h_3 => exact Set.empty_disjoint _

theorem Calls.eqOn_ring (h : s.Calls dev c) (hkept : s.Kept dev) (hrings : s.RingsApart)
    (dev' : Vdev) : Set.EqOn (callNext env s dev c).ctx.mem s.mem
      ((s.queue dev').availSpan ∪ (s.queue dev').descSpan) :=
  (prQueue_eqOn dev env _ _).mono
    (Set.subset_compl_iff_disjoint_left.mpr (h.stepSpan_disjoint hkept hrings dev'))

theorem Calls.eqOn_used (h : s.Calls dev c) (hkept : s.Kept dev) (hrings : s.RingsApart)
    {dev' : Vdev} (hpush : c.pc = .push → dev ≠ dev') :
    Set.EqOn (callNext env s dev c).ctx.mem s.mem (s.queue dev').usedSpan :=
  (prQueue_eqOn dev env _ _).mono
    (Set.subset_compl_iff_disjoint_left.mpr (h.stepSpan_disjoint_used hkept hrings hpush))

/-- Steps other than fetches and pushes move neither ring on. -/
theorem callNext_same (hfetch : c.pc ≠ .fetchNew) (hpush : c.pc ≠ .push) :
    (callNext env s dev c).ctx.vq.availIdx = (s.queue dev).availIdx ∧
      (callNext env s dev c).ctx.vq.usedIdx = (s.queue dev).usedIdx ∧
      inFlight (callNext env s dev c) = inFlight ⟨c.pc, c.vjob, s.ctx dev⟩ := by
  obtain ⟨owner, queue, pc, vjob⟩ := c
  simp only [callNext]
  cases pc with
  | fetchNew => exact absurd rfl hfetch
  | push => exact absurd rfl hpush
  | body =>
    obtain ⟨es, hspec⟩ := descStep_spec dev env vjob (s.ctx dev)
    rw [prQueue_body]
    refine ⟨descStep_availIdx .., by rw [hspec.vq]; rfl, ?_⟩
    change [(descStep dev.body env vjob (s.ctx dev)).1.firstDesc] = [vjob.firstDesc]
    rw [descStep_firstDesc]
  | fetchNext =>
    rcases hlink : nextDesc (s.ctx dev).mem (s.ctx dev).vq.qDesc vjob.currentDesc with _ | i
    · rw [prQueue_fetchNext_of_none _ _ _ _ _ hlink]
      exact ⟨rfl, rfl, rfl⟩
    · rw [prQueue_fetchNext_of_some _ _ _ _ _ hlink]
      exact ⟨rfl, rfl, rfl⟩
  | notify =>
    rw [prQueue_notify]
    exact ⟨rfl, rfl, rfl⟩
  | done =>
    rw [prQueue_done]
    exact ⟨rfl, rfl, rfl⟩

/-- No head becomes pending. -/
private theorem callNext_pendingHeads (hpow : (s.queue dev).SizePow2) {i : U16}
    (hi : i ∈ pendingHeads s.mem (callNext env s dev c).ctx.vq) :
    i ∈ pendingHeads s.mem (s.queue dev) := by
  by_cases hfetch : c.pc = .fetchNew
  · rw [callNext, hfetch] at hi
    rcases hheads : pendingHeads s.mem (s.queue dev) with _ | ⟨head, rest⟩
    · rw [prQueue_fetchNew_of_none _ _ _ _ _ (virtQueueFetchAvailFirst_of_nil hpow hheads)] at hi
      exact hheads ▸ hi
    · obtain ⟨hnext, hrest⟩ := virtQueueFetchAvailFirst_of_cons hpow hheads
      rw [prQueue_fetchNew_of_head _ _ _ _ _ hnext] at hi
      exact List.mem_cons_of_mem _ (hrest ▸ hi)
  · have havail : (callNext env s dev c).ctx.vq.availIdx = (s.queue dev).availIdx := by
      by_cases hpush : c.pc = .push
      · rw [callNext, hpush, prQueue_push]
        rfl
      · exact (callNext_same hfetch hpush).1
    rwa [callNext_sameSetup.pendingHeads havail] at hi

/-- The inner loop goes on with a descriptor in use. -/
private theorem Calls.busy_next (h : s.Calls dev c) (hpow : (s.queue dev).SizePow2)
    (hpc : (callNext env s dev c).pc = .body ∨ (callNext env s dev c).pc = .fetchNext) :
    s.Busy dev (callNext env s dev c).vjob.currentDesc := by
  obtain ⟨pc, hc⟩ : ∃ pc, c.pc = pc := ⟨_, rfl⟩
  rw [callNext, hc] at hpc ⊢
  cases pc with
  | fetchNew =>
    rcases hheads : pendingHeads s.mem (s.queue dev) with _ | ⟨head, rest⟩
    · rw [prQueue_fetchNew_of_none _ _ _ _ _ (virtQueueFetchAvailFirst_of_nil hpow hheads)] at hpc
      simp at hpc
    · obtain ⟨hnext, hrest⟩ := virtQueueFetchAvailFirst_of_cons hpow hheads
      rw [prQueue_fetchNew_of_head _ _ _ _ _ hnext]
      exact .of_root (Or.inl (hheads ▸ List.mem_cons_self ..))
  | body =>
    rw [prQueue_body, descStep_currentDesc]
    exact h.busy (Or.inl hc)
  | fetchNext =>
    rcases hlink : nextDesc (s.ctx dev).mem (s.ctx dev).vq.qDesc c.vjob.currentDesc with _ | i
    · rw [prQueue_fetchNext_of_none _ _ _ _ _ hlink] at hpc
      simp at hpc
    · rw [prQueue_fetchNext_of_some _ _ _ _ _ hlink]
      exact (h.busy (Or.inr hc)).next hlink
  | push =>
    rw [prQueue_push] at hpc
    simp at hpc
  | notify =>
    rw [prQueue_notify] at hpc
    simp at hpc
  | done =>
    rw [prQueue_done] at hpc
    simp at hpc

/-- A step starts from nothing that was not busy. -/
theorem Calls.root (h : s.Calls dev c) (hkept : s.Kept dev) (hrings : s.RingsApart)
    (hpow : (s.queue dev).SizePow2) {dev' : Vdev} {i : U16}
    (hi : (s.advance dev c (callNext env s dev c)).Root dev' i) : s.Busy dev' i := by
  rcases hi with hi | ⟨c', hcall, hqueue, hpc, rfl⟩
  · have havail : Set.EqOn (callNext env s dev c).ctx.mem s.mem
        ((s.advance dev c (callNext env s dev c)).queue dev').availSpan := by
      rw [(advance_sameSetup dev').availSpan]
      exact (h.eqOn_ring hkept hrings dev').mono Set.subset_union_left
    rw [advance_mem, pendingHeads_congr havail, advance_queue] at hi
    refine .of_root (Or.inl ?_)
    split_ifs at hi with hdev
    · rw [hdev]
      exact callNext_pendingHeads hpow hi
    · exact hi
  · rw [advance_call] at hcall
    split_ifs at hcall with hdone
    obtain rfl := Option.some.inj hcall
    obtain rfl : dev = dev' :=
      Vdev.index_injective (congrArg Prod.fst (h.queue.symm.trans hqueue))
    exact h.busy_next hpow hpc

/-- **A step of a call** keeps memory in order. -/
theorem Calls.kept (h : s.Calls dev c) (hkept : ∀ dev, s.Kept dev) (hrings : s.RingsApart)
    (hpow : (s.queue dev).SizePow2) (dev' : Vdev) :
    (s.advance dev c (callNext env s dev c)).Kept dev' :=
  (hkept dev').mono advance_sameSetup
    ((h.eqOn_ring (hkept dev) hrings dev').mono Set.subset_union_right)
    fun _ hi => h.root (hkept dev) hrings hpow hi

end Call

end Service

end Arm9LinuxFw
