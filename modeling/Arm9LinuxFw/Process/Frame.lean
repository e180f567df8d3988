import Arm9LinuxFw.Process.Loop

/-!
# What queue processing leaves alone

The loops read the available ring and the descriptor table while they store to buffers and to the
used ring, which a driver may have put anywhere. This module has the case of a driver that keeps
them apart.

* `Intact` says of a state of a run that the memory the loops read is as it was at the call: the
  available ring, and the table entries in use.
* `Separated` is the promise of the driver: indices are inside the table, and the two rings, the
  table and the buffers of the entries in use are apart, as far as a device goes into a buffer.
* `Frame` is the invariant behind it. It says besides where in the rings a run stands: what is still
  pending is a suffix of what was at the call, and the current entry is in use. It is kept by each
  step, with a case for each place in the loops (`Frame.step`), and by a run (`Frame.iterate`).
* `Separated.frame` is the rule that later modules use.

The ends of the module are two pieces of guest memory spelled out, one with a single request and
one with two chains for the block device, which the theorems about runs are applied to.
-/

namespace Arm9LinuxFw

open ByteMem LinkGraph Transition

/-! ### Memory held fixed -/

/-- In state `s`, what the loops read is as it was in `c₀`, the context of the call. -/
structure Intact (c₀ : Ctx) (s : Config) : Prop where
  sameSetup : s.ctx.vq.SameSetup c₀.vq
  avail : Set.EqOn s.ctx.mem c₀.mem c₀.vq.availSpan
  desc : ∀ i, InUse c₀.mem c₀.vq i →
    vqDescAt s.ctx.mem c₀.vq.qDesc i = vqDescAt c₀.mem c₀.vq.qDesc i

namespace Intact

variable {c₀ : Ctx} {s : Config}

theorem nextDesc_eq (h : Intact c₀ s) {i : U16} (hi : InUse c₀.mem c₀.vq i) :
    nextDesc s.ctx.mem s.ctx.vq.qDesc i = nextDesc c₀.mem c₀.vq.qDesc i := by
  rw [h.sameSetup.qDesc]
  exact nextDesc_congr (h.desc i hi)

theorem pendingHeads_eq (h : Intact c₀ s) :
    pendingHeads s.ctx.mem s.ctx.vq = pendingHeads c₀.mem s.ctx.vq := by
  refine pendingHeads_congr ?_
  rw [h.sameSetup.availSpan]
  exact h.avail

/-- The next fetch, seen from the memory of the call: a head and the heads left. -/
theorem fetch_of_cons {vjob : VirtJob} {c : Ctx} {pc : Pc} (h : Intact c₀ ⟨pc, vjob, c⟩)
    (hp : c₀.vq.SizePow2) {head : U16} {rest : List U16}
    (hheads : pendingHeads c₀.mem c.vq = head :: rest) :
    virtQueueFetchAvailFirst c.mem c.vq = ((head.toNat : ℤ), c.vq.advance) ∧
      pendingHeads c₀.mem c.vq.advance = rest := by
  have hpow : c.vq.SizePow2 := h.sameSetup.sizePow2 hp
  rw [← h.pendingHeads_eq] at hheads
  obtain ⟨hfetch, hrest⟩ := virtQueueFetchAvailFirst_of_cons hpow hheads
  refine ⟨hfetch, ?_⟩
  rw [← hrest]
  have havail : Set.EqOn c.mem c₀.mem c.vq.advance.availSpan := by
    rw [show c.vq.advance.availSpan = c.vq.availSpan from rfl, h.sameSetup.availSpan]
    exact h.avail
  exact (pendingHeads_congr havail).symm

theorem fetch_of_nil {vjob : VirtJob} {c : Ctx} {pc : Pc} (h : Intact c₀ ⟨pc, vjob, c⟩)
    (hp : c₀.vq.SizePow2) (hheads : pendingHeads c₀.mem c.vq = []) :
    virtQueueFetchAvailFirst c.mem c.vq = (-1, c.vq) :=
  virtQueueFetchAvailFirst_of_nil (h.sameSetup.sizePow2 hp) (h.pendingHeads_eq.trans hheads)

end Intact

/-! ### Rings and buffers kept apart -/

/-- The descriptor that entry `i` of the table describes. -/
def descOf (m : Mem) (vq : VirtQueue) (i : U16) : VirtDesc := (vqDescAt m vq.qDesc i).toVirtDesc

/-- What a driver keeps to: a power of two for the size, indices inside the table, and the
used ring and the buffers it lends apart from what the loops read. -/
structure Separated (m : Mem) (vq : VirtQueue) : Prop where
  sizePow2 : vq.SizePow2
  inTable : ∀ i, InUse m vq i → i.toNat < vq.size
  usedAvail : Disjoint vq.usedSpan vq.availSpan
  usedDesc : Disjoint vq.usedSpan vq.descSpan
  bufferAvail : ∀ i, InUse m vq i → Disjoint (descOf m vq i).bufferSpan vq.availSpan
  bufferDesc : ∀ i, InUse m vq i → Disjoint (descOf m vq i).bufferSpan vq.descSpan
  bufferUsed : ∀ i, InUse m vq i → Disjoint (descOf m vq i).bufferSpan vq.usedSpan

/-- The invariant of a run over separated memory. -/
structure Frame (c₀ : Ctx) (s : Config) : Prop where
  sameSetup : s.ctx.vq.SameSetup c₀.vq
  avail : Set.EqOn s.ctx.mem c₀.mem c₀.vq.availSpan
  desc : Set.EqOn s.ctx.mem c₀.mem c₀.vq.descSpan
  pending : ∀ i ∈ pendingHeads c₀.mem s.ctx.vq, i ∈ pendingHeads c₀.mem c₀.vq
  inUse : s.pc = .body ∨ s.pc = .fetchNext → InUse c₀.mem c₀.vq s.vjob.currentDesc

section Frame

variable {dev : Vdev} {env : Env} {vdevId : U32} {c₀ : Ctx} {s : Config}

theorem Frame.enter (vjob : VirtJob) (c : Ctx) : Frame c (enter vjob c) where
  sameSetup := .refl _
  avail := Set.eqOn_refl _ _
  desc := Set.eqOn_refl _ _
  pending _ hi := hi
  inUse h := by simp [Arm9LinuxFw.enter] at h

/-- The invariant says that what the loops read has not been overwritten. -/
theorem Frame.intact (h : Frame c₀ s) (hsep : Separated c₀.mem c₀.vq) : Intact c₀ s where
  sameSetup := h.sameSetup
  avail := h.avail
  desc i hi := vqDescAt_congr h.desc (hsep.inTable i hi)

/-- The descriptor the inner loop works on is the one in the table at the call. -/
theorem Frame.jobDesc_eq {vjob : VirtJob} {c : Ctx} (h : Frame c₀ ⟨.body, vjob, c⟩)
    (hsep : Separated c₀.mem c₀.vq) :
    jobDesc env vjob c = descOf c₀.mem c₀.vq vjob.currentDesc := by
  have huse : InUse c₀.mem c₀.vq vjob.currentDesc := h.inUse (Or.inl rfl)
  have hlt := hsep.inTable _ huse
  have hle : vjob.currentDesc ≤ c.vq.sizeMask := by
    rw [show c.vq.sizeMask = c₀.vq.sizeMask from h.sameSetup.sizeMask, BitVec.le_def]
    rw [VirtQueue.size] at hlt
    omega
  rw [jobDesc, if_pos hle, descOf, show c.vq.qDesc = c₀.vq.qDesc from h.sameSetup.qDesc,
    (h.intact hsep).desc _ huse]

/-- What a round of the inner loop stores is in the buffer of a descriptor in use. -/
theorem Frame.descStep_eqOn {vjob : VirtJob} {c : Ctx} (h : Frame c₀ ⟨.body, vjob, c⟩)
    (hsep : Separated c₀.mem c₀.vq) :
    Set.EqOn (descStep dev.body env vjob c).2.mem c.mem
      (descOf c₀.mem c₀.vq vjob.currentDesc).bufferSpanᶜ := by
  obtain ⟨es, hspec⟩ := descStep_spec dev env vjob c
  have hdesc : jobDesc env vjob c = descOf c₀.mem c₀.vq vjob.currentDesc := h.jobDesc_eq hsep
  rw [← hdesc]
  refine hspec.mem.mono (Set.compl_subset_compl.mpr ?_)
  exact storedAt_subset_bufferSpan hspec.through

/-- **A round of the inner loop** stores to the buffer of an entry in use, away from the rings. -/
theorem Frame.body {vjob : VirtJob} {c : Ctx} (h : Frame c₀ ⟨.body, vjob, c⟩)
    (hsep : Separated c₀.mem c₀.vq) :
    Frame c₀ ⟨.fetchNext, (descStep dev.body env vjob c).1, (descStep dev.body env vjob c).2⟩ := by
  have huse : InUse c₀.mem c₀.vq vjob.currentDesc := h.inUse (Or.inl rfl)
  have hmem : Set.EqOn (descStep dev.body env vjob c).2.mem c.mem
      (descOf c₀.mem c₀.vq vjob.currentDesc).bufferSpanᶜ := h.descStep_eqOn hsep
  have hsetup : (descStep dev.body env vjob c).2.vq.SameSetup c.vq := by
    obtain ⟨es, hspec⟩ := descStep_spec dev env vjob c
    exact hspec.sameSetup
  refine ⟨hsetup.trans h.sameSetup, ?_, ?_, ?_, ?_⟩
  -- the buffer of a descriptor in use is apart from the available ring and the table
  · refine Set.EqOn.trans (hmem.mono ?_) h.avail
    exact Set.subset_compl_iff_disjoint_left.mpr (hsep.bufferAvail _ huse)
  · refine Set.EqOn.trans (hmem.mono ?_) h.desc
    exact Set.subset_compl_iff_disjoint_left.mpr (hsep.bufferDesc _ huse)
  · intro i hi
    rw [hsetup.pendingHeads (descStep_availIdx dev env vjob c)] at hi
    exact h.pending i hi
  · intro _
    change InUse _ _ (descStep dev.body env vjob c).1.currentDesc
    rwa [descStep_currentDesc]

/-- **A push** stores to the used ring, away from the available ring and the table. -/
theorem Frame.push {vjob : VirtJob} {c : Ctx} (h : Frame c₀ ⟨.push, vjob, c⟩)
    (hsep : Separated c₀.mem c₀.vq) : Frame c₀ ⟨.fetchNew, vjob, virtQueuePushJob c vjob⟩ := by
  have hmem : Set.EqOn (virtQueuePushJob c vjob).mem c.mem c₀.vq.usedSpanᶜ := by
    rw [← h.sameSetup.usedSpan]
    exact virtQueuePushUsed_eqOn _ _ _ _
  have hsetup : (virtQueuePushJob c vjob).vq.SameSetup c.vq := ⟨_, _, _, rfl⟩
  refine ⟨hsetup.trans h.sameSetup, ?_, ?_, ?_, fun hpc => (by simp at hpc)⟩
  · exact Set.EqOn.trans (hmem.mono (Set.subset_compl_iff_disjoint_left.mpr hsep.usedAvail)) h.avail
  · exact Set.EqOn.trans (hmem.mono (Set.subset_compl_iff_disjoint_left.mpr hsep.usedDesc)) h.desc
  · intro i hi
    rw [hsetup.pendingHeads rfl] at hi
    exact h.pending i hi

/-- One step of the loop keeps the frame. -/
theorem Frame.step (h : Frame c₀ s) (hsep : Separated c₀.mem c₀.vq) :
    Frame c₀ (dev.prQueue env vdevId s) := by
  have hintact := h.intact hsep
  obtain ⟨pc, vjob, c⟩ := s
  cases pc with
  | fetchNew =>
    rcases hheads : pendingHeads c₀.mem c.vq with _ | ⟨head, rest⟩
    · rw [prQueue_fetchNew_of_none _ _ _ _ _ (hintact.fetch_of_nil hsep.sizePow2 hheads)]
      exact { h with inUse := fun hpc => (by simp at hpc) }
    · obtain ⟨hfetch, hrest⟩ := hintact.fetch_of_cons hsep.sizePow2 hheads
      rw [prQueue_fetchNew_of_head _ _ _ _ _ hfetch]
      -- what is pending after the fetch was pending before it, and so at the call
      have hpending : ∀ i ∈ head :: rest, i ∈ pendingHeads c₀.mem c₀.vq := hheads ▸ h.pending
      refine ⟨?_, h.avail, h.desc, ?_, ?_⟩
      · exact VirtQueue.SameSetup.trans ⟨_, _, _, rfl⟩ h.sameSetup
      · intro i hi
        exact hpending i (List.mem_cons_of_mem _ (hrest ▸ hi))
      · intro _
        exact .of_head (hpending head (List.mem_cons_self ..))
  | body =>
    rw [prQueue_body]
    exact h.body hsep
  | fetchNext =>
    have huse : InUse c₀.mem c₀.vq vjob.currentDesc := h.inUse (Or.inr rfl)
    have hnext := hintact.nextDesc_eq huse
    rcases hlink : nextDesc c₀.mem c₀.vq.qDesc vjob.currentDesc with _ | i
    · rw [prQueue_fetchNext_of_none _ _ _ _ _ (hnext.trans hlink)]
      exact { h with inUse := fun hpc => (by simp at hpc) }
    · rw [prQueue_fetchNext_of_some _ _ _ _ _ (hnext.trans hlink)]
      exact { h with inUse := fun _ => huse.next hlink }
  | push =>
    rw [prQueue_push]
    exact h.push hsep
  | notify =>
    rw [prQueue_notify]
    exact { h with inUse := fun hpc => (by simp at hpc) }
  | done =>
    rw [prQueue_done]
    exact h

/-- And so does a run. -/
theorem Frame.iterate (h : Frame c₀ s) (hsep : Separated c₀.mem c₀.vq) (n : ℕ) :
    Frame c₀ ((dev.prQueue env vdevId)^[n] s) := by
  induction n with
  | zero => exact h
  | succ n ih =>
    rw [Function.iterate_succ_apply']
    exact ih.step hsep

end Frame

/-- A driver that keeps rings and buffers apart has the frame in every state of every run. -/
theorem Separated.frame {c : Ctx} (h : Separated c.mem c.vq) (dev : Vdev) (env : Env)
    (vdevId : U32) (vjob : VirtJob) (n : ℕ) :
    Frame c ((dev.prQueue env vdevId)^[n] (Arm9LinuxFw.enter vjob c)) :=
  (Frame.enter vjob c).iterate h n

/-! ### A request spelled out -/

/-- Memory given by its nonzero bytes. -/
def guestMem (bytes : List (U32 × U8)) : Mem := fun a => (bytes.lookup a).getD 0

/-- A queue of two entries with descriptor 0 pending: a buffer of `len` bytes at `0x21000000`
with the given flags, linked to itself. -/
def requestCtx (len flags : U8) : Ctx where
  mem := guestMem [(0x20100002, 1), (0x20000003, 0x21), (0x20000008, len), (0x2000000C, flags)]
  log := []
  vq := .configured 1 0x20000000 0x20100000 0x20200000
  virq := virtIrqReset
  tick := 0

/-- Hardware that always answers zero. -/
def zeroEnv : Env where
  hot _ := 0
  card _ _ count _ := ⟨0, List.replicate (512 * count.toNat) 0⟩
  junk _ := ⟨0, 0, 0⟩
  card_le _ _ _ _ := (List.length_replicate ..).le

section Request

variable (len flags : U8)

theorem requestCtx_sizePow2 : (requestCtx len flags).vq.SizePow2 := ⟨1, rfl⟩

theorem requestCtx_pendingHeads :
    pendingHeads (requestCtx len flags).mem (requestCtx len flags).vq = [0] := by
  simp [requestCtx, guestMem, pendingHeads, pendingCount, vqAvailLast, vqAvailRing, Mem.read16,
    VirtQueue.configured, VirtQueue.size, List.lookup_cons, List.lookup_nil]

private theorem requestCtx_desc :
    vqDescAt (requestCtx len flags).mem (requestCtx len flags).vq.qDesc 0 =
      ⟨0x21000000, len.setWidth 32, flags.setWidth 16, 0⟩ := by
  have hlen : (0#16 ++ (0#8 ++ len) : U32) = len.setWidth 32 := by
    refine BitVec.eq_of_toNat_eq ?_
    rw [BitVec.toNat_append, BitVec.toNat_append]
    simp
    omega
  have hflags : (0#8 ++ flags : U16) = flags.setWidth 16 := by
    refine BitVec.eq_of_toNat_eq ?_
    rw [BitVec.toNat_append]
    simp
    omega
  simp [requestCtx, guestMem, vqDescAt, Mem.read64, Mem.read32, Mem.read16, VirtQueue.configured,
    List.lookup_cons, List.lookup_nil, hlen, hflags]

theorem requestCtx_nextDesc :
    nextDesc (requestCtx len flags).mem (requestCtx len flags).vq.qDesc 0 =
      if flags.setWidth 16 &&& VQ_DESC_F_NEXT ≠ 0 then some 0 else none := by
  simp only [nextDesc, requestCtx_desc]

/-- The one entry of the table that the request uses is the first. -/
private theorem requestCtx_inUse {i : U16}
    (h : InUse (requestCtx len flags).mem (requestCtx len flags).vq i) : i = 0 := by
  obtain ⟨head, hhead, hreach⟩ := h
  rw [requestCtx_pendingHeads, List.mem_singleton] at hhead
  subst hhead
  induction hreach with
  | refl => rfl
  | tail _ hbc ih =>
    subst ih
    rw [requestCtx_nextDesc] at hbc
    split_ifs at hbc
    exact (Option.some.inj hbc).symm

/-- Its ring, its entry and its buffer are apart. -/
theorem requestCtx_separated :
    Separated (requestCtx len flags).mem (requestCtx len flags).vq := by
  have hbuffer : (descOf (requestCtx len flags).mem (requestCtx len flags).vq 0).bufferSpan ⊆
      span 0x21000000 256 := by
    have hlt := len.isLt
    rw [descOf, requestCtx_desc, VirtDesc.bufferSpan]
    split_ifs
    · exact Set.empty_subset _
    · refine span_mono ?_
      simp only [VqDesc.toVirtDesc, BitVec.toNat_setWidth]
      omega
  have havail : (requestCtx len flags).vq.availSpan = span 0x20100000 8 := rfl
  have hdesc : (requestCtx len flags).vq.descSpan = span 0x20000000 32 := rfl
  have hused : (requestCtx len flags).vq.usedSpan = span 0x20200000 20 := rfl
  refine ⟨requestCtx_sizePow2 len flags, ?_, ?_, ?_, ?_, ?_, ?_⟩
  · intro i hi
    rw [requestCtx_inUse len flags hi]
    exact Nat.succ_pos _
  · rw [hused, havail]
    exact disjoint_span (by decide) (by decide)
  · rw [hused, hdesc]
    exact disjoint_span (by decide) (by decide)
  · intro i hi
    rw [requestCtx_inUse len flags hi, havail]
    exact (disjoint_span (by decide) (by decide)).mono_left hbuffer
  · intro i hi
    rw [requestCtx_inUse len flags hi, hdesc]
    exact (disjoint_span (by decide) (by decide)).mono_left hbuffer
  · intro i hi
    rw [requestCtx_inUse len flags hi, hused]
    exact (disjoint_span (by decide) (by decide)).mono_left hbuffer

end Request

/-! ### Two requests spelled out -/

/-- Indices in use stay in a list that has the pending heads and is closed under the links. -/
theorem InUse.mem_of_closed {m : Mem} {vq : VirtQueue} {l : List U16}
    (hheads : ∀ head ∈ pendingHeads m vq, head ∈ l)
    (hlinks : ∀ next ∈ l.map (nextDesc m vq.qDesc), ∀ j ∈ next, j ∈ l) {i : U16}
    (h : InUse m vq i) : i ∈ l := by
  obtain ⟨head, hhead, hreach⟩ := h
  induction hreach with
  | refl => exact hheads head hhead
  | tail _ hbc ih => exact hlinks _ (List.mem_map_of_mem ih) _ hbc

/-- A descriptor's buffer keeps clear of `n` bytes at `a`: it is not stored to, or ends before
them and begins behind them, going round the address space. -/
def VirtDesc.ClearOf (desc : VirtDesc) (a : U32) (n : ℕ) : Prop :=
  desc.dir = HOST_TO_VDEV ∨
    (max desc.length.toNat 1 ≤ (a - desc.data).toNat ∧ n ≤ (desc.data - a).toNat)

instance (desc : VirtDesc) (a : U32) (n : ℕ) : Decidable (desc.ClearOf a n) :=
  inferInstanceAs (Decidable (_ ∨ _))

/-- A buffer that ends before a run of addresses, or starts after it, does not meet it. -/
theorem VirtDesc.ClearOf.disjoint {desc : VirtDesc} {a : U32} {n : ℕ} (h : desc.ClearOf a n) :
    Disjoint desc.bufferSpan (span a n) := by
  rw [VirtDesc.bufferSpan]
  split_ifs with hdir
  · exact Set.empty_disjoint _
  · rcases h with hread | ⟨hbefore, hbehind⟩
    · exact absurd hread hdir
    · exact disjoint_span hbefore hbehind

/-- Separation can be checked on a list of indices. -/
theorem Separated.of_list {m : Mem} {vq : VirtQueue} (l : List U16) (hp : vq.SizePow2)
    (hheads : ∀ head ∈ pendingHeads m vq, head ∈ l)
    (hlinks : ∀ next ∈ l.map (nextDesc m vq.qDesc), ∀ j ∈ next, j ∈ l)
    (hin : ∀ i ∈ l, i.toNat < vq.size) (havail : Disjoint vq.usedSpan vq.availSpan)
    (hdesc : Disjoint vq.usedSpan vq.descSpan)
    (hclear : ∀ d ∈ l.map (descOf m vq), d.ClearOf vq.qAvail (4 + 2 * vq.size) ∧
      d.ClearOf vq.qDesc (16 * vq.size) ∧ d.ClearOf vq.qUsed (4 + 8 * vq.size)) :
    Separated m vq where
  sizePow2 := hp
  inTable i hi := hin i (hi.mem_of_closed hheads hlinks)
  usedAvail := havail
  usedDesc := hdesc
  bufferAvail _ hi := (hclear _ (List.mem_map_of_mem (hi.mem_of_closed hheads hlinks))).1.disjoint
  bufferDesc _ hi := (hclear _ (List.mem_map_of_mem (hi.mem_of_closed hheads hlinks))).2.1.disjoint
  bufferUsed _ hi := (hclear _ (List.mem_map_of_mem (hi.mem_of_closed hheads hlinks))).2.2.disjoint

/-- Guest memory with two chains in a table of 8 entries. Entries 0, 1, 2 are a request header at
`0x21000000` for sector 5, a buffer of 512 bytes at `0x22000000` and a status byte at
`0x23000000`; entries 4, 5, 6 a header at `0x21001000` for sector 7, a buffer of 1024 bytes at
`0x22001000` and a status byte at `0x23001000`. Both heads are published. -/
def chainsMem : Mem := guestMem [
  (0x20100002, 2), (0x20100006, 4),
  (0x20000003, 0x21), (0x20000008, 16), (0x2000000C, 1), (0x2000000E, 1),
  (0x20000013, 0x22), (0x20000019, 2), (0x2000001C, 3), (0x2000001E, 2),
  (0x20000023, 0x23), (0x20000028, 1), (0x2000002C, 2),
  (0x20000041, 0x10), (0x20000043, 0x21), (0x20000048, 16), (0x2000004C, 1), (0x2000004E, 5),
  (0x20000051, 0x10), (0x20000053, 0x22), (0x20000059, 4), (0x2000005C, 3), (0x2000005E, 6),
  (0x20000061, 0x10), (0x20000063, 0x23), (0x20000068, 1), (0x2000006C, 2),
  (0x21000008, 5), (0x21001008, 7)]

/-- The queue of `chainsMem`. -/
def chainsCtx : Ctx where
  mem := chainsMem
  log := []
  vq := .configured 7 0x20000000 0x20100000 0x20200000
  virq := virtIrqReset
  tick := 0

theorem chainsCtx_pendingHeads : pendingHeads chainsCtx.mem chainsCtx.vq = [0, 4] := by decide

private theorem chainsCtx_links :
    [0, 1, 2, 4, 5, 6].map (nextDesc chainsCtx.mem chainsCtx.vq.qDesc) =
      [some 1, some 2, none, some 5, some 6, none] := by decide

/-- Each is a request of the block device: header, data, status. -/
private theorem chainsCtx_descs : [0, 1, 2, 4, 5, 6].map (descOf chainsCtx.mem chainsCtx.vq) =
    [⟨0x21000000, 16, HOST_TO_VDEV⟩, ⟨0x22000000, 512, VDEV_TO_HOST⟩,
      ⟨0x23000000, 1, VDEV_TO_HOST⟩, ⟨0x21001000, 16, HOST_TO_VDEV⟩,
      ⟨0x22001000, 1024, VDEV_TO_HOST⟩, ⟨0x23001000, 1, VDEV_TO_HOST⟩] := by decide

/-- The two requests keep all they use apart. -/
theorem chainsCtx_separated : Separated chainsCtx.mem chainsCtx.vq := by
  refine .of_list [0, 1, 2, 4, 5, 6] ⟨3, rfl⟩ ?_ ?_ ?_ ?_ ?_ ?_
  · simp [chainsCtx_pendingHeads]
  · rw [chainsCtx_links]
    simp
  · have hsize : chainsCtx.vq.size = 8 := rfl
    simp [hsize]
  · exact disjoint_span (by decide) (by decide)
  · exact disjoint_span (by decide) (by decide)
  · rw [chainsCtx_descs]
    change ∀ d ∈ _, VirtDesc.ClearOf d 0x20100000 20 ∧ VirtDesc.ClearOf d 0x20000000 128 ∧
      VirtDesc.ClearOf d 0x20200000 68
    decide

/-- Both chains come to an end. -/
theorem chainsCtx_ends : ∀ head ∈ pendingHeads chainsCtx.mem chainsCtx.vq,
    Ends (nextDesc chainsCtx.mem chainsCtx.vq.qDesc) head := by
  rw [chainsCtx_pendingHeads]
  simp only [List.mem_cons, List.not_mem_nil, or_false]
  rintro head (rfl | rfl)
  · exact ⟨[0, 1, 2], .link (b := 1) (by decide) (.link (b := 2) (by decide) (.last (by decide)))⟩
  · exact ⟨[4, 5, 6], .link (b := 5) (by decide) (.link (b := 6) (by decide) (.last (by decide)))⟩

end Arm9LinuxFw
