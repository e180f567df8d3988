import Arm9LinuxFw.Process.Frame

/-!
# One job

A job is the run of the inner loop from a head that was fetched to the push of its used entry.

* `JobRun` is the big-step view of it, over the very steps of the loop: the list is the
  descriptors the rounds worked on, as `virtQueueGetDesc` delivered them. Nothing is assumed of
  the memory, which a buffer may share with the rings: the list says what the loop saw.
* `RoundSpec` is one round, put together from the load of the descriptor and the specification of
  the device (`roundSpec`). A round is two steps of the loop, and `round_eq` says which.
* `JobRun.last_inv` and `JobRun.more_inv` take a job apart, `exists_jobRun_cons` and
  `exists_jobRun_singleton` make one.
* The account: `JobRun.log_eq` says what a job adds to the record, `JobRun.totalWritten` what it is
  credited with, the sum over its descriptors, and `JobRun.firstDesc` that the head it reports is
  the one that was fetched.
* `JobRun.linked` ties the list to the driver's table: under the frame of `Frame`, the descriptors
  are those of the entries that the links lead to from the head, as they were at the call.
-/

namespace Arm9LinuxFw

open ByteMem LinkGraph Transition

/-- The inner loop runs from `vjob` and `c` to `virtQueuePushJob` with `vjob'` and `c'`, one
round for each of the descriptors. -/
inductive JobRun (dev : Vdev) (env : Env) (vdevId : U32) :
    VirtJob → Ctx → List VirtDesc → VirtJob → Ctx → Prop
  | last {vjob vjob' : VirtJob} {c c' : Ctx} :
      (dev.prQueue env vdevId)^[2] ⟨.body, vjob, c⟩ = ⟨.push, vjob', c'⟩ →
      JobRun dev env vdevId vjob c [jobDesc env vjob c] vjob' c'
  | more {vjob vjob₁ vjob' : VirtJob} {c c₁ c' : Ctx} {ds : List VirtDesc} :
      (dev.prQueue env vdevId)^[2] ⟨.body, vjob, c⟩ = ⟨.body, vjob₁, c₁⟩ →
      JobRun dev env vdevId vjob₁ c₁ ds vjob' c' →
      JobRun dev env vdevId vjob c (jobDesc env vjob c :: ds) vjob' c'

variable {dev : Vdev} {env : Env} {vdevId : U32} {vjob vjob' : VirtJob} {c c' : Ctx}
  {ds : List VirtDesc}

/-- A job is a run of the machine. -/
theorem JobRun.iterate (h : JobRun dev env vdevId vjob c ds vjob' c') :
    (dev.prQueue env vdevId)^[2 * ds.length] ⟨.body, vjob, c⟩ = ⟨.push, vjob', c'⟩ := by
  induction h with
  | last h => exact h
  | more h _ ih =>
    rw [List.length_cons, Nat.mul_succ, Nat.add_comm]
    exact iterate_trans h ih

/-! ### A round -/

theorem getEvents_desc {e : Event} (h : e ∈ getEvents vjob c) : ∃ j, e = .desc j := by
  rw [getEvents] at h
  split_ifs at h
  · exact ⟨_, List.mem_singleton.mp h⟩
  · simp at h

/-- What a round of the inner loop does; `es` are the events of the device specific part. -/
structure RoundSpec (dev : Vdev) (env : Env) (vjob : VirtJob) (c : Ctx) (vjob' : VirtJob)
    (c' : Ctx) (es : List Event) : Prop where
  log : c'.log = c.log ++ (getEvents vjob c ++ es ++ [.desc vjob.currentDesc])
  firstDesc : vjob'.firstDesc = vjob.firstDesc
  totalWritten : vjob'.totalWritten = vjob.totalWritten + dev.credited (jobDesc env vjob c)
  mem : c'.mem = (descStep dev.body env vjob c).2.mem
  vq : c'.vq = { c.vq with priv := c'.vq.priv }
  through : ∀ e ∈ es, e.Through (jobDesc env vjob c) (dev.readReach (jobDesc env vjob c))
    (dev.writeReach (jobDesc env vjob c))
  body : (descStep dev.body env vjob c).2.log = (bodyCtx vjob c).log ++ es

/-- After a round: the device specific part, the access for the link, and the next index. -/
theorem round_eq {pc : Pc}
    (h : (dev.prQueue env vdevId)^[2] ⟨.body, vjob, c⟩ = ⟨pc, vjob', c'⟩) :
    (∃ i, vjob' = { (descStep dev.body env vjob c).1 with currentDesc := i }) ∧
      c' = { (descStep dev.body env vjob c).2 with
        log := (descStep dev.body env vjob c).2.log ++ [.desc vjob.currentDesc] } := by
  rcases hnext : nextDesc (descStep dev.body env vjob c).2.mem
    (descStep dev.body env vjob c).2.vq.qDesc vjob.currentDesc with _ | i
  · rw [iterate_round_of_none _ _ _ _ _ hnext] at h
    obtain ⟨-, rfl, rfl⟩ := Config.mk.inj h
    exact ⟨⟨_, rfl⟩, rfl⟩
  · rw [iterate_round_of_some _ _ _ _ _ hnext] at h
    obtain ⟨-, rfl, rfl⟩ := Config.mk.inj h
    exact ⟨⟨_, rfl⟩, rfl⟩

/-- **One round**: the device meets its specification on the descriptor it was given. -/
theorem roundSpec {pc : Pc}
    (h : (dev.prQueue env vdevId)^[2] ⟨.body, vjob, c⟩ = ⟨pc, vjob', c'⟩) :
    ∃ es, RoundSpec dev env vjob c vjob' c' es := by
  obtain ⟨es, hspec⟩ := descStep_spec dev env vjob c
  obtain ⟨⟨i, rfl⟩, rfl⟩ := round_eq h
  refine ⟨es, ?_, descStep_firstDesc .., ?_, rfl, hspec.vq, hspec.through, hspec.log⟩
  · rw [hspec.log, bodyCtx]
    simp only [List.append_assoc]
  · rw [hspec.vjob]
    rfl

/-- A round ends at the push or at the next round. -/
theorem iterate_round_pc (dev : Vdev) (env : Env) (vdevId : U32) (vjob : VirtJob) (c : Ctx) :
    ∃ vjob' c', (dev.prQueue env vdevId)^[2] ⟨.body, vjob, c⟩ = ⟨.push, vjob', c'⟩ ∨
      (dev.prQueue env vdevId)^[2] ⟨.body, vjob, c⟩ = ⟨.body, vjob', c'⟩ := by
  rcases hnext : nextDesc (descStep dev.body env vjob c).2.mem
    (descStep dev.body env vjob c).2.vq.qDesc vjob.currentDesc with _ | i
  · exact ⟨_, _, Or.inl (iterate_round_of_none _ _ _ _ _ hnext)⟩
  · exact ⟨_, _, Or.inr (iterate_round_of_some _ _ _ _ _ hnext)⟩

/-- The last round of a job. -/
theorem JobRun.last_inv {d : VirtDesc} (h : JobRun dev env vdevId vjob c [d] vjob' c') :
    jobDesc env vjob c = d ∧
      (dev.prQueue env vdevId)^[2] ⟨.body, vjob, c⟩ = ⟨.push, vjob', c'⟩ := by
  cases h with
  | last h => exact ⟨rfl, h⟩
  | more _ hrest => cases hrest

/-- A round of a job that goes on. -/
theorem JobRun.more_inv {d : VirtDesc} (h : JobRun dev env vdevId vjob c (d :: ds) vjob' c')
    (hds : ds ≠ []) : jobDesc env vjob c = d ∧ ∃ vjob₁ c₁,
      (dev.prQueue env vdevId)^[2] ⟨.body, vjob, c⟩ = ⟨.body, vjob₁, c₁⟩ ∧
      JobRun dev env vdevId vjob₁ c₁ ds vjob' c' := by
  cases h with
  | last h => exact absurd rfl hds
  | more h hrest => exact ⟨rfl, _, _, h, hrest⟩

/-- A job that starts with descriptor `d` and goes on at table entry `i`. -/
theorem exists_jobRun_cons {d : VirtDesc} {i : U16} (hd : jobDesc env vjob c = d)
    (hnext : nextDesc (descStep dev.body env vjob c).2.mem
      (descStep dev.body env vjob c).2.vq.qDesc vjob.currentDesc = some i)
    (hrest : ∃ vjob' c', JobRun dev env vdevId
      { (descStep dev.body env vjob c).1 with currentDesc := i }
      { (descStep dev.body env vjob c).2 with
        log := (descStep dev.body env vjob c).2.log ++ [.desc vjob.currentDesc] } ds vjob' c') :
    ∃ vjob' c', JobRun dev env vdevId vjob c (d :: ds) vjob' c' := by
  obtain ⟨vjob', c', hrest⟩ := hrest
  subst hd
  exact ⟨vjob', c', .more (iterate_round_of_some _ _ _ _ _ hnext) hrest⟩

/-- A job of a single descriptor. -/
theorem exists_jobRun_singleton {d : VirtDesc} (hd : jobDesc env vjob c = d)
    (hnext : nextDesc (descStep dev.body env vjob c).2.mem
      (descStep dev.body env vjob c).2.vq.qDesc vjob.currentDesc = none) :
    ∃ vjob' c', JobRun dev env vdevId vjob c [d] vjob' c' := by
  subst hd
  exact ⟨_, _, .last (iterate_round_of_none _ _ _ _ _ hnext)⟩

/-! ### The job's account -/

/-- The events recorded from `c` to `c'`. -/
def eventsSince (c c' : Ctx) : List Event := c'.log.drop c.log.length

theorem eventsSince_eq {es : List Event} (h : c'.log = c.log ++ es) : eventsSince c c' = es := by
  rw [eventsSince, h, List.drop_left]

/-- A job adds to the record. -/
theorem JobRun.log_eq (h : JobRun dev env vdevId vjob c ds vjob' c') :
    c'.log = c.log ++ eventsSince c c' := by
  obtain ⟨es, hlog⟩ : ∃ es, c'.log = c.log ++ es := by
    induction h with
    | last h => exact ⟨_, (roundSpec h).choose_spec.log⟩
    | more h _ ih =>
      obtain ⟨es, hlog⟩ := ih
      exact ⟨_, by rw [hlog, (roundSpec h).choose_spec.log, List.append_assoc]⟩
  rw [eventsSince_eq hlog, hlog]

/-- What a round adds to the account, a job adds up. -/
theorem JobRun.totalWritten (h : JobRun dev env vdevId vjob c ds vjob' c') :
    vjob'.totalWritten.toNat =
      (vjob.totalWritten.toNat + (ds.map fun d => (dev.credited d).toNat).sum) % 2 ^ 32 := by
  induction h with
  | last h =>
    obtain ⟨es, hspec⟩ := roundSpec h
    rw [hspec.totalWritten, BitVec.toNat_add, List.map_singleton, List.sum_singleton]
  | more h _ ih =>
    obtain ⟨es, hspec⟩ := roundSpec h
    rw [ih, hspec.totalWritten, BitVec.toNat_add, Nat.mod_add_mod, List.map_cons, List.sum_cons,
      Nat.add_assoc]

/-- A job is pushed under the head it was fetched with. -/
theorem JobRun.firstDesc (h : JobRun dev env vdevId vjob c ds vjob' c') :
    vjob'.firstDesc = vjob.firstDesc := by
  induction h with
  | last h => exact (roundSpec h).choose_spec.firstDesc
  | more h _ ih => exact ih.trans (roundSpec h).choose_spec.firstDesc

/-! ### The descriptors of a job

Where rings and buffers are kept apart, what the loop sees in the course of a job is what the table
said at the call: the descriptors of a job are those of the entries linked from its head. -/

section Linked

variable {c₀ : Ctx}

/-- The link that ends a round is the one of the table at the call. -/
theorem Frame.link_eq (h : Frame c₀ ⟨.body, vjob, c⟩) (hsep : Separated c₀.mem c₀.vq) :
    nextDesc (descStep dev.body env vjob c).2.mem (descStep dev.body env vjob c).2.vq.qDesc
      vjob.currentDesc = nextDesc c₀.mem c₀.vq.qDesc vjob.currentDesc :=
  ((h.body hsep).intact hsep).nextDesc_eq (h.inUse (Or.inl rfl))

/-- The descriptors of a job are linked from the entry it starts at. -/
theorem JobRun.linked (hjob : JobRun dev env vdevId vjob c ds vjob' c')
    (h : Frame c₀ ⟨.body, vjob, c⟩) (hsep : Separated c₀.mem c₀.vq) :
    ∃ l, Chain (nextDesc c₀.mem c₀.vq.qDesc) vjob.currentDesc l ∧
      l.map (descOf c₀.mem c₀.vq) = ds := by
  induction hjob with
  | @last vjob vjob' c c' hround =>
    refine ⟨[vjob.currentDesc], .last ?_, ?_⟩
    · rcases hnext : nextDesc c₀.mem c₀.vq.qDesc vjob.currentDesc with _ | i
      · rfl
      · rw [iterate_round_of_some _ _ _ _ _ ((h.link_eq hsep).trans hnext)] at hround
        cases (Config.mk.inj hround).1
    · rw [List.map_singleton, h.jobDesc_eq hsep]
  | @more vjob vjob₁ vjob' c c₁ c' ds hround _ ih =>
    have hframe : Frame c₀ ⟨.body, vjob₁, c₁⟩ := hround ▸ h.iterate hsep 2
    obtain ⟨l, hl, rfl⟩ := ih hframe
    refine ⟨vjob.currentDesc :: l, .link ?_ hl, ?_⟩
    · rcases hnext : nextDesc c₀.mem c₀.vq.qDesc vjob.currentDesc with _ | i
      · rw [iterate_round_of_none _ _ _ _ _ ((h.link_eq hsep).trans hnext)] at hround
        cases (Config.mk.inj hround).1
      · rw [iterate_round_of_some _ _ _ _ _ ((h.link_eq hsep).trans hnext)] at hround
        obtain ⟨-, rfl, -⟩ := Config.mk.inj hround
        rfl
    · rw [List.map_cons, h.jobDesc_eq hsep]

/-- A chain of the table makes a job. -/
theorem Frame.exists_jobRun {l : List U16} (h : Frame c₀ ⟨.body, vjob, c⟩)
    (hsep : Separated c₀.mem c₀.vq)
    (hchain : Chain (nextDesc c₀.mem c₀.vq.qDesc) vjob.currentDesc l) :
    ∃ vjob' c', JobRun dev env vdevId vjob c (l.map (descOf c₀.mem c₀.vq)) vjob' c' := by
  obtain ⟨i, hi⟩ : ∃ i, vjob.currentDesc = i := ⟨_, rfl⟩
  rw [hi] at hchain
  induction hchain generalizing vjob c with
  | last hnext =>
    subst hi
    exact exists_jobRun_singleton (h.jobDesc_eq hsep) ((h.link_eq hsep).trans hnext)
  | @link _ j _ hnext _ ih =>
    subst hi
    have hlink : nextDesc (descStep dev.body env vjob c).2.mem
        (descStep dev.body env vjob c).2.vq.qDesc vjob.currentDesc = some j :=
      (h.link_eq hsep).trans hnext
    have hframe : Frame c₀ ((dev.prQueue env vdevId)^[2] ⟨.body, vjob, c⟩) := h.iterate hsep 2
    rw [iterate_round_of_some _ _ _ _ _ hlink] at hframe
    exact exists_jobRun_cons (h.jobDesc_eq hsep) hlink (ih hframe rfl)

/-- A pending head starts a job. -/
theorem Frame.start {head : U16} (hhead : head ∈ pendingHeads c₀.mem c₀.vq) :
    Frame c₀ ⟨.body, .start head, c₀⟩ where
  sameSetup := .refl _
  avail := Set.eqOn_refl _ _
  desc := Set.eqOn_refl _ _
  pending _ hi := hi
  inUse _ := .of_head hhead

end Linked

end Arm9LinuxFw
