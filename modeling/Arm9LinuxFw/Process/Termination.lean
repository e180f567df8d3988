import Arm9LinuxFw.Process.Frame

/-!
# When queue processing ends

The outer loop counts down the pending heads; the inner loop follows the links of a head's
chain and has no other way to stop than a descriptor without the NEXT flag. So with the memory
that the loops read held fixed, processing ends exactly when the chain of every pending head
does, and then within a bound that depends on the size of the queue only.

* `AlwaysIntact` is memory held fixed: in every state of the run, the available ring and the entries
  in use are as they were at the call. It needs no driver that keeps to anything, and says
  nothing of what else the devices store.
* A chain that ends does so in as many rounds as it has entries, which are different, so at most as
  many as the table has (`LinkGraph` of `Lib`): that bounds the inner loop, and the number of heads
  bounds the outer one.
* A chain that runs into a circle keeps the loop between `Pc.body` and `Pc.fetchNext` for ever;
  `Stuck` is the invariant that says so, from the first entry of the circle on.
* `prQueue_terminates_iff` puts both together. The bound is explicit in the size of the queue.
-/

namespace Arm9LinuxFw

open ByteMem LinkGraph Transition

section Run

variable (dev : Vdev) (env : Env) (vdevId : U32)

/-- What the loops read stays as it was in `c₀` throughout the run from `s`. -/
def AlwaysIntact (c₀ : Ctx) (s : Config) : Prop :=
  ∀ n, Intact c₀ ((dev.prQueue env vdevId)^[n] s)

variable {dev env vdevId} {c₀ : Ctx} {s : Config}

theorem AlwaysIntact.now (h : AlwaysIntact dev env vdevId c₀ s) : Intact c₀ s := h 0

theorem AlwaysIntact.iterate (h : AlwaysIntact dev env vdevId c₀ s) (k : ℕ) :
    AlwaysIntact dev env vdevId c₀ ((dev.prQueue env vdevId)^[k] s) := by
  intro n
  rw [← Function.iterate_add_apply]
  exact h (n + k)

theorem AlwaysIntact.step (h : AlwaysIntact dev env vdevId c₀ s) :
    AlwaysIntact dev env vdevId c₀ (dev.prQueue env vdevId s) := h.iterate 1

/-! ### The inner loop -/

/-- The link of the current entry is the one it had at the call, also after the round. -/
private theorem AlwaysIntact.descStep_next {vjob : VirtJob} {c : Ctx}
    (h : AlwaysIntact dev env vdevId c₀ ⟨.body, vjob, c⟩)
    (huse : InUse c₀.mem c₀.vq vjob.currentDesc) :
    nextDesc (descStep dev.body env vjob c).2.mem (descStep dev.body env vjob c).2.vq.qDesc
        vjob.currentDesc = nextDesc c₀.mem c₀.vq.qDesc vjob.currentDesc := by
  have hstep := h.step
  rw [prQueue_body] at hstep
  exact hstep.now.nextDesc_eq huse

/-- A finite chain is followed to its end. -/
private theorem iterate_of_chain {vjob : VirtJob} {c : Ctx} {l : List U16}
    (h : AlwaysIntact dev env vdevId c₀ ⟨.body, vjob, c⟩)
    (huse : InUse c₀.mem c₀.vq vjob.currentDesc)
    (hchain : Chain (nextDesc c₀.mem c₀.vq.qDesc) vjob.currentDesc l) :
    ∃ vjob' c', (dev.prQueue env vdevId)^[2 * l.length] ⟨.body, vjob, c⟩ = ⟨.push, vjob', c'⟩ ∧
      c'.vq.availIdx = c.vq.availIdx := by
  obtain ⟨i, hi⟩ : ∃ i, i = vjob.currentDesc := ⟨_, rfl⟩
  rw [← hi] at hchain
  -- the induction follows the chain; two steps of the run go through one descriptor
  induction hchain generalizing vjob c with
  | last hnone =>
    subst hi
    have htwo := iterate_round_of_none dev env vdevId vjob c ((h.descStep_next huse).trans hnone)
    exact ⟨_, _, htwo, descStep_availIdx dev env vjob c⟩
  | link hsome _ ih =>
    subst hi
    have htwo := iterate_round_of_some dev env vdevId vjob c ((h.descStep_next huse).trans hsome)
    obtain ⟨vjob', c', hrun, havail⟩ := ih (htwo ▸ h.iterate 2) (huse.next hsome) rfl
    refine ⟨vjob', c', ?_, havail.trans (descStep_availIdx dev env vjob c)⟩
    rw [List.length_cons, Nat.mul_succ, Nat.add_comm]
    exact iterate_trans htwo hrun

/-! ### The outer loop -/

/-- A head whose chain ends is fetched, processed and pushed. -/
theorem iterate_of_head {vjob : VirtJob} {c : Ctx}
    (h : AlwaysIntact dev env vdevId c₀ ⟨.fetchNew, vjob, c⟩) (hp : c₀.vq.SizePow2)
    {head : U16} {rest l : List U16} (hheads : pendingHeads c₀.mem c.vq = head :: rest)
    (huse : InUse c₀.mem c₀.vq head) (hchain : Chain (nextDesc c₀.mem c₀.vq.qDesc) head l) :
    ∃ vjob' c', (dev.prQueue env vdevId)^[2 * l.length + 2] ⟨.fetchNew, vjob, c⟩ =
        ⟨.fetchNew, vjob', c'⟩ ∧ pendingHeads c₀.mem c'.vq = rest := by
  obtain ⟨hret, hrest⟩ := h.now.fetch_of_cons hp hheads
  have hfetch := prQueue_fetchNew_of_head dev env vdevId vjob c hret
  obtain ⟨vjob', c', hrun, havail⟩ := iterate_of_chain (hfetch ▸ h.step) huse hchain
  have hpush : (dev.prQueue env vdevId)^[1 + 2 * l.length + 1] ⟨.fetchNew, vjob, c⟩ =
      ⟨.fetchNew, vjob', virtQueuePushJob c' vjob'⟩ :=
    iterate_trans (iterate_trans hfetch hrun) (prQueue_push dev env vdevId vjob' c')
  have hlen : 2 * l.length + 2 = 1 + 2 * l.length + 1 := by omega
  refine ⟨vjob', _, by rw [hlen, hpush], ?_⟩
  have hsetup : (virtQueuePushJob c' vjob').vq.SameSetup c.vq.advance := by
    have hdone := (h.iterate (1 + 2 * l.length + 1)).now.sameSetup
    rw [hpush] at hdone
    exact hdone.trans (hfetch ▸ h.step).now.sameSetup.symm
  rw [← hrest]
  exact hsetup.pendingHeads havail c₀.mem

/-- With chains of at most `L` descriptors, processing ends. -/
private theorem terminates_of_ends (hp : c₀.vq.SizePow2) {L : ℕ} (heads : List U16) {vjob : VirtJob}
    {c : Ctx} (h : AlwaysIntact dev env vdevId c₀ ⟨.fetchNew, vjob, c⟩)
    (hheads : pendingHeads c₀.mem c.vq = heads)
    (hchain : ∀ head ∈ heads, InUse c₀.mem c₀.vq head ∧
      ∃ l, Chain (nextDesc c₀.mem c₀.vq.qDesc) head l ∧ l.length ≤ L) :
    ∃ k ≤ heads.length * (2 * L + 2) + 2,
      ((dev.prQueue env vdevId)^[k] ⟨.fetchNew, vjob, c⟩).pc = .done := by
  induction heads generalizing vjob c with
  | nil =>
    refine ⟨2, by omega, ?_⟩
    change (dev.prQueue env vdevId (dev.prQueue env vdevId ⟨.fetchNew, vjob, c⟩)).pc = _
    rw [prQueue_fetchNew_of_none _ _ _ _ _ (h.now.fetch_of_nil hp hheads), prQueue_notify]
  | cons head rest ih =>
    obtain ⟨huse, l, hl, hlen⟩ := hchain head (List.mem_cons_self ..)
    obtain ⟨vjob', c', hrun, hrest⟩ := iterate_of_head h hp hheads huse hl
    obtain ⟨k, hk, hdone⟩ := ih (hrun ▸ h.iterate _) hrest fun i hi =>
      hchain i (List.mem_cons_of_mem _ hi)
    refine ⟨2 * l.length + 2 + k, ?_, ?_⟩
    · rw [List.length_cons, Nat.add_one_mul rest.length]
      omega
    · rw [iterate_trans hrun rfl]
      exact hdone

/-! ### A chain that does not end -/

/-- In the inner loop, on a descriptor whose links do not end. -/
structure Stuck (c₀ : Ctx) (s : Config) : Prop where
  pc : s.pc = .body ∨ s.pc = .fetchNext
  inUse : InUse c₀.mem c₀.vq s.vjob.currentDesc
  not_ends : ¬ Ends (nextDesc c₀.mem c₀.vq.qDesc) s.vjob.currentDesc

/-- **A step** of a run that is on a circle of links leaves it there. -/
theorem Stuck.step (hs : Stuck c₀ s) (h : AlwaysIntact dev env vdevId c₀ s) :
    Stuck c₀ (dev.prQueue env vdevId s) := by
  obtain ⟨pc, vjob, c⟩ := s
  obtain ⟨rfl | rfl, huse, hnot⟩ := hs
  · rw [prQueue_body]
    refine ⟨Or.inr rfl, ?_, ?_⟩
    · rwa [← descStep_currentDesc dev env vjob c] at huse
    · rwa [← descStep_currentDesc dev env vjob c] at hnot
  · have hnext := h.now.nextDesc_eq huse
    rcases hlink : nextDesc c₀.mem c₀.vq.qDesc vjob.currentDesc with _ | i
    · exact absurd (ends_of_next_eq_none hlink) hnot
    · rw [prQueue_fetchNext_of_some _ _ _ _ _ (hnext.trans hlink)]
      exact ⟨Or.inl rfl, huse.next hlink, fun he =>
        hnot ((ends_iff_of_next_eq_some hlink).mpr he)⟩

/-- So it never leaves. -/
theorem Stuck.iterate (hs : Stuck c₀ s) (h : AlwaysIntact dev env vdevId c₀ s) (n : ℕ) :
    Stuck c₀ ((dev.prQueue env vdevId)^[n] s) := by
  induction n with
  | zero => exact hs
  | succ n ih =>
    rw [Function.iterate_succ_apply']
    exact ih.step (h.iterate n)

/-- Processing gets stuck at the first head whose chain does not end. -/
private theorem exists_stuck (hp : c₀.vq.SizePow2) (heads : List U16) {vjob : VirtJob} {c : Ctx}
    (h : AlwaysIntact dev env vdevId c₀ ⟨.fetchNew, vjob, c⟩)
    (hheads : pendingHeads c₀.mem c.vq = heads)
    (huse : ∀ head ∈ heads, InUse c₀.mem c₀.vq head)
    (hnot : ∃ head ∈ heads, ¬ Ends (nextDesc c₀.mem c₀.vq.qDesc) head) :
    ∃ n, Stuck c₀ ((dev.prQueue env vdevId)^[n] ⟨.fetchNew, vjob, c⟩) := by
  induction heads generalizing vjob c with
  | nil => simp at hnot
  | cons head rest ih =>
    have hin := huse head (List.mem_cons_self ..)
    -- a head whose chain ends is processed first; the one that does not is further on
    by_cases hends : Ends (nextDesc c₀.mem c₀.vq.qDesc) head
    · obtain ⟨l, hl⟩ := hends
      obtain ⟨vjob', c', hrun, hrest⟩ := iterate_of_head h hp hheads hin hl
      have hnot' : ∃ i ∈ rest, ¬ Ends (nextDesc c₀.mem c₀.vq.qDesc) i := by
        obtain ⟨i, hi, hni⟩ := hnot
        rcases List.mem_cons.mp hi with rfl | hi
        · exact absurd ⟨l, hl⟩ hni
        · exact ⟨i, hi, hni⟩
      obtain ⟨n, hn⟩ := ih (hrun ▸ h.iterate _) hrest
        (fun i hi => huse i (List.mem_cons_of_mem _ hi)) hnot'
      exact ⟨2 * l.length + 2 + n, by rwa [iterate_trans hrun rfl]⟩
    · refine ⟨1, ?_⟩
      change Stuck c₀ (dev.prQueue env vdevId ⟨.fetchNew, vjob, c⟩)
      rw [prQueue_fetchNew_of_head _ _ _ _ _ (h.now.fetch_of_cons hp hheads).1]
      exact ⟨Or.inl rfl, hin, hends⟩

/-- A stuck run never returns. -/
private theorem Stuck.not_done {n : ℕ} (hs : Stuck c₀ ((dev.prQueue env vdevId)^[n] s))
    (h : AlwaysIntact dev env vdevId c₀ s) (k : ℕ) :
    ((dev.prQueue env vdevId)^[k] s).pc ≠ .done := by
  intro hdone
  obtain ⟨t, ht⟩ : ∃ t, (dev.prQueue env vdevId)^[k] s = t := ⟨_, rfl⟩
  have hfix : Function.IsFixedPt (dev.prQueue env vdevId) t := by
    obtain ⟨pc, vjob, c⟩ := t
    rw [ht] at hdone
    obtain rfl : pc = .done := hdone
    exact prQueue_done dev env vdevId vjob c
  -- `n` steps after the return the machine still stands at it, and is stuck
  have hlate := hs.iterate (h.iterate n) k
  rw [← Function.iterate_add_apply, Nat.add_comm, Function.iterate_add_apply, ht,
    hfix.iterate n] at hlate
  rw [ht] at hdone
  rcases hlate.pc with hpc | hpc <;> rw [hdone] at hpc <;> cases hpc

/-! ### The bound -/

/-- A chain inside a table of `n` entries has at most `n` descriptors. -/
theorem chain_length_le {next : U16 → Option U16} {a : U16} {l : List U16}
    (h : Chain next a l) {n : ℕ} (hl : ∀ i ∈ l, i.toNat < n) : l.length ≤ n := by
  have hsub : ∀ i ∈ l, i ∈ (Finset.range n).image (BitVec.ofNat 16) := by
    intro i hi
    refine Finset.mem_image.mpr ⟨i.toNat, Finset.mem_range.mpr (hl i hi), ?_⟩
    rw [BitVec.ofNat_toNat, BitVec.setWidth_eq]
  refine (h.length_le_of_subset _ hsub).trans ?_
  exact Finset.card_image_le.trans (Finset.card_range n).le

/-- The chain of a descriptor in use consists of descriptors in use. -/
theorem InUse.of_mem_chain {m : Mem} {vq : VirtQueue} {i j : U16} {l : List U16}
    (h : InUse m vq i) (hl : Chain (nextDesc m vq.qDesc) i l) (hj : j ∈ l) : InUse m vq j := by
  induction hl with
  | last _ =>
    obtain rfl := List.mem_singleton.mp hj
    exact h
  | link hn _ ih =>
    rcases List.mem_cons.mp hj with rfl | hj
    · exact h
    · exact ih (h.next hn) hj

/-- With every chain ending, and every index in use below `L`, processing returns. -/
theorem prQueue_returns (hp : c₀.vq.SizePow2) {vjob : VirtJob}
    (h : AlwaysIntact dev env vdevId c₀ (enter vjob c₀)) {L : ℕ}
    (hL : ∀ i, InUse c₀.mem c₀.vq i → i.toNat < L)
    (hends : ∀ head ∈ pendingHeads c₀.mem c₀.vq, Ends (nextDesc c₀.mem c₀.vq.qDesc) head) :
    ∃ k ≤ c₀.vq.size * (2 * L + 2),
      ((dev.prQueue env vdevId)^[k] (enter vjob c₀)).pc = .done := by
  have hchain : ∀ head ∈ pendingHeads c₀.mem c₀.vq, InUse c₀.mem c₀.vq head ∧
      ∃ l, Chain (nextDesc c₀.mem c₀.vq.qDesc) head l ∧ l.length ≤ L := by
    intro head hhead
    obtain ⟨l, hl⟩ := hends head hhead
    exact ⟨.of_head hhead, l, hl,
      chain_length_le hl fun i hi => hL i (InUse.of_mem_chain (.of_head hhead) hl hi)⟩
  obtain ⟨k, hk, hdone⟩ := terminates_of_ends hp _ h rfl hchain
  refine ⟨k, hk.trans ?_, hdone⟩
  -- at least one slot of the ring is never pending
  have hlt := length_pendingHeads_lt c₀.mem c₀.vq
  calc (pendingHeads c₀.mem c₀.vq).length * (2 * L + 2) + 2
      ≤ (pendingHeads c₀.mem c₀.vq).length * (2 * L + 2) + (2 * L + 2) := by omega
    _ = ((pendingHeads c₀.mem c₀.vq).length + 1) * (2 * L + 2) := (Nat.succ_mul _ _).symm
    _ ≤ c₀.vq.size * (2 * L + 2) := Nat.mul_le_mul_right _ hlt

/-- A head whose chain does not end keeps processing from returning. -/
theorem prQueue_never_returns (hp : c₀.vq.SizePow2) {vjob : VirtJob}
    (h : AlwaysIntact dev env vdevId c₀ (enter vjob c₀))
    (hnot : ∃ head ∈ pendingHeads c₀.mem c₀.vq, ¬ Ends (nextDesc c₀.mem c₀.vq.qDesc) head)
    (k : ℕ) : ((dev.prQueue env vdevId)^[k] (enter vjob c₀)).pc ≠ .done := by
  obtain ⟨n, hn⟩ := exists_stuck hp _ h rfl (fun _ hhead => .of_head hhead) hnot
  exact hn.not_done h k

/-- The memory that the loops read does not change during the processing of a queue: the
available ring, and the descriptor table entries that the links of the pending heads lead to. -/
def HeldFixed (dev : Vdev) (env : Env) (vdevId : U32) (vjob : VirtJob) (c : Ctx) : Prop :=
  ∀ n, let m := ((dev.prQueue env vdevId)^[n] (enter vjob c)).ctx.mem
    Set.EqOn m c.mem c.vq.availSpan ∧
      ∀ i, InUse c.mem c.vq i → vqDescAt m c.vq.qDesc i = vqDescAt c.mem c.vq.qDesc i

theorem HeldFixed.alwaysIntact {vjob : VirtJob} (h : HeldFixed dev env vdevId vjob c₀) :
    AlwaysIntact dev env vdevId c₀ (enter vjob c₀) := fun n =>
  ⟨iterate_sameSetup dev env vdevId (enter vjob c₀) n, (h n).1, (h n).2⟩

/-- Processing does not change what it reads if rings and buffers are kept apart. -/
theorem Separated.heldFixed (h : Separated c₀.mem c₀.vq) (vjob : VirtJob) :
    HeldFixed dev env vdevId vjob c₀ := fun n =>
  have hintact := (h.frame dev env vdevId vjob n).intact h
  ⟨hintact.avail, hintact.desc⟩

end Run

/-- **Termination.** With the memory that the loops read held fixed, processing a queue of `N`
entries returns within a number of steps that depends on `N` only if and only if the chain of
every pending head comes to an end; if one does not, processing never returns. -/
theorem prQueue_terminates_iff (dev : Vdev) (env : Env) (vdevId : U32) (vjob : VirtJob) (c : Ctx)
    (hp : c.vq.SizePow2) (hfixed : HeldFixed dev env vdevId vjob c) :
    ((∃ k ≤ c.vq.size * (2 * 2 ^ 16 + 2),
        ((dev.prQueue env vdevId)^[k] (enter vjob c)).pc = .done) ↔
      ∀ head ∈ pendingHeads c.mem c.vq, Ends (nextDesc c.mem c.vq.qDesc) head) ∧
    ((∃ k, ((dev.prQueue env vdevId)^[k] (enter vjob c)).pc = .done) ↔
      ∀ head ∈ pendingHeads c.mem c.vq, Ends (nextDesc c.mem c.vq.qDesc) head) := by
  have hends : (∃ k, ((dev.prQueue env vdevId)^[k] (enter vjob c)).pc = .done) →
      ∀ head ∈ pendingHeads c.mem c.vq, Ends (nextDesc c.mem c.vq.qDesc) head := by
    rintro ⟨k, hk⟩
    by_contra hnot
    push Not at hnot
    exact prQueue_never_returns hp hfixed.alwaysIntact hnot k hk
  have hreturns := prQueue_returns hp hfixed.alwaysIntact fun i _ => i.isLt
  constructor
  · refine ⟨?_, hreturns⟩
    rintro ⟨k, -, hk⟩
    exact hends ⟨k, hk⟩
  · refine ⟨hends, ?_⟩
    intro h
    obtain ⟨k, -, hk⟩ := hreturns h
    exact ⟨k, hk⟩

/-- The block device gets through two chains of three descriptors each. -/
theorem prQueue_terminates_request :
    ∃ k ≤ 8 * (2 * 2 ^ 16 + 2),
      ((Vdev.prQueue .sdmcDevice zeroEnv 0)^[k] (enter ⟨0, 0, 0⟩ chainsCtx)).pc = .done :=
  (prQueue_terminates_iff .sdmcDevice zeroEnv 0 ⟨0, 0, 0⟩ chainsCtx
    chainsCtx_separated.sizePow2 (chainsCtx_separated.heldFixed _)).1.mpr chainsCtx_ends

/-- A descriptor linked to itself keeps either device in the inner loop for ever, although
neither changes the memory it reads. -/
theorem prQueue_terminates_cycle :
    (HeldFixed .hwrngDevice zeroEnv 0 ⟨0, 0, 0⟩ (requestCtx 8 3) ∧
      ¬ ∃ k, ((Vdev.prQueue .hwrngDevice zeroEnv 0)^[k]
        (enter ⟨0, 0, 0⟩ (requestCtx 8 3))).pc = .done) ∧
    HeldFixed .sdmcDevice zeroEnv 0 ⟨0, 0, 0⟩ (requestCtx 8 3) ∧
      ¬ ∃ k, ((Vdev.prQueue .sdmcDevice zeroEnv 0)^[k]
        (enter ⟨0, 0, 0⟩ (requestCtx 8 3))).pc = .done := by
  have hself : nextDesc (requestCtx 8 3).mem (requestCtx 8 3).vq.qDesc 0 = some 0 :=
    (requestCtx_nextDesc 8 3).trans (by decide)
  have hnot : ∃ head ∈ pendingHeads (requestCtx 8 3).mem (requestCtx 8 3).vq,
      ¬ Ends (nextDesc (requestCtx 8 3).mem (requestCtx 8 3).vq.qDesc) head := by
    refine ⟨0, by simp [requestCtx_pendingHeads], ?_⟩
    rintro ⟨l, hl⟩
    simpa using congrArg List.length ((Chain.link hself hl).unique hl)
  have hfixed (dev : Vdev) : HeldFixed dev zeroEnv 0 ⟨0, 0, 0⟩ (requestCtx 8 3) :=
    (requestCtx_separated 8 3).heldFixed _
  have hforever (dev : Vdev) : ¬ ∃ k, ((dev.prQueue zeroEnv 0)^[k]
      (enter ⟨0, 0, 0⟩ (requestCtx 8 3))).pc = .done := by
    rintro ⟨k, hk⟩
    exact prQueue_never_returns (requestCtx_sizePow2 8 3) (hfixed dev).alwaysIntact hnot k hk
  exact ⟨⟨hfixed _, hforever _⟩, hfixed _, hforever _⟩

end Arm9LinuxFw
