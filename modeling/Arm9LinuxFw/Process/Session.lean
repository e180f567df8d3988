import Arm9LinuxFw.Process.Job

/-!
# Calls one after another

A queue is processed by one call after another, and in between the driver may rewrite its
memory and the registers of the queue.

* `sessionStep` is this system: the loop takes a step, or is called anew when it has returned, with
  any memory, queue and interrupts. The record of events goes on from one call to the next.
* `Session` is the big-step view of its runs, as the list of the chains that were processed, in
  order (`ServedChain`: the head that was fetched, the state at that point, and the job).
* `exists_session` says that every run between two chains has that form, whatever the driver does.
  It goes by `Splits`, the invariant that a run is whole chains and a rest, with a case for
  each place in the loops. `Session.reachable` is the way back, so that the two views are the same.
* What a chain is made of is in `ServedChain.LinkedFrom`: the descriptors are those of the table
  entries that the links lead to from the head. A call over rings and buffers that are kept apart is
  a session of such chains, one for each pending head, in the order of the ring.
-/

namespace Arm9LinuxFw

open ByteMem LinkGraph Transition

/-! ### The system -/

/-- The processing loop takes a step, or is called anew once it has returned: with whatever
memory, queue and interrupts there are by then, and an uninitialized `vjob`. -/
inductive SessionAction
  | step
  | call (vjob : VirtJob) (mem : Mem) (vq : VirtQueue) (virq : VirtIrq) (tick : ℕ)

/-- The record of events goes on from one call to the next. -/
def sessionStep (dev : Vdev) (env : Env) (vdevId : U32) (s : Config) :
    SessionAction → Option Config
  | .step => if s.pc = .done then none else some (dev.prQueue env vdevId s)
  | .call vjob mem vq virq tick =>
      if s.pc = .done then some (enter vjob ⟨⟨mem, s.ctx.log⟩, vq, virq, tick⟩) else none

/-- No chain is being processed. -/
def Config.BetweenChains (s : Config) : Prop := s.pc = .fetchNew ∨ s.pc = .done

/-! ### Sessions -/

/-- A chain that was processed: the context once its head was fetched, its descriptors, and the
job and the context at its push. -/
structure ServedChain where
  start : Ctx
  descs : List VirtDesc
  vjob : VirtJob
  stop : Ctx

/-- The chains processed from `s` to `t`, in order. -/
inductive Session (dev : Vdev) (env : Env) (vdevId : U32) :
    Config → List ServedChain → Config → Prop
  | nil {s : Config} : Session dev env vdevId s [] s
  | chain {vjob vjob₂ : VirtJob} {head : U16} {c c₁ c₂ : Ctx} {ds : List VirtDesc}
      {jobs : List ServedChain} {t : Config} :
      dev.prQueue env vdevId ⟨.fetchNew, vjob, c⟩ = ⟨.body, .start head, c₁⟩ →
      JobRun dev env vdevId (.start head) c₁ ds vjob₂ c₂ →
      Session dev env vdevId ⟨.fetchNew, vjob₂, virtQueuePushJob c₂ vjob₂⟩ jobs t →
      Session dev env vdevId ⟨.fetchNew, vjob, c⟩ (⟨c₁, ds, vjob₂, c₂⟩ :: jobs) t
  | ret {vjob vjob' : VirtJob} {c c' : Ctx} {jobs : List ServedChain} {t : Config} :
      (dev.prQueue env vdevId)^[2] ⟨.fetchNew, vjob, c⟩ = ⟨.done, vjob', c'⟩ →
      Session dev env vdevId ⟨.done, vjob', c'⟩ jobs t →
      Session dev env vdevId ⟨.fetchNew, vjob, c⟩ jobs t
  | call {vjob vjob' : VirtJob} {c : Ctx} {mem : Mem} {vq : VirtQueue} {virq : VirtIrq} {tick : ℕ}
      {jobs : List ServedChain} {t : Config} :
      Session dev env vdevId (enter vjob' ⟨⟨mem, c.log⟩, vq, virq, tick⟩) jobs t →
      Session dev env vdevId ⟨.done, vjob, c⟩ jobs t

variable {dev : Vdev} {env : Env} {vdevId : U32}

/-! ### Runs are sessions -/

/-- What a run that ends between two chains has gone through, by where it starts. -/
def Splits (dev : Vdev) (env : Env) (vdevId : U32) (s t : Config) : Prop :=
  match s.pc with
  | .fetchNew | .done => ∃ jobs, Session dev env vdevId s jobs t
  | .body => ∃ ds vjob' c' jobs, JobRun dev env vdevId s.vjob s.ctx ds vjob' c' ∧
      Session dev env vdevId ⟨.fetchNew, vjob', virtQueuePushJob c' vjob'⟩ jobs t
  | .push => ∃ jobs, Session dev env vdevId (dev.prQueue env vdevId s) jobs t
  | .notify => ∃ jobs, Session dev env vdevId (dev.prQueue env vdevId s) jobs t
  | .fetchNext => True

/-- The fetch of a head leads into a job, or on to the notification. -/
theorem prQueue_fetchNew_cases (dev : Vdev) (env : Env) (vdevId : U32) (vjob : VirtJob) (c : Ctx) :
    (∃ head c₁, dev.prQueue env vdevId ⟨.fetchNew, vjob, c⟩ = ⟨.body, .start head, c₁⟩) ∨
      ∃ vjob₁ c₁, dev.prQueue env vdevId ⟨.fetchNew, vjob, c⟩ = ⟨.notify, vjob₁, c₁⟩ := by
  have hfetch : virtQueueFetchAvailFirst c.mem c.vq = (-1, c.vq) ∨
      ∃ (head : U16) (vq : VirtQueue),
        virtQueueFetchAvailFirst c.mem c.vq = ((head.toNat : ℤ), vq) := by
    simp only [virtQueueFetchAvailFirst]
    split_ifs
    · exact Or.inl rfl
    · exact Or.inl rfl
    · exact Or.inr ⟨_, _, rfl⟩
  rcases hfetch with hnone | ⟨head, vq, hhead⟩
  · exact Or.inr ⟨_, _, prQueue_fetchNew_of_none dev env vdevId vjob c hnone⟩
  · exact Or.inl ⟨head, _, prQueue_fetchNew_of_head dev env vdevId vjob c hhead⟩

/-- In the middle of a call the only action is a step of the loop. -/
private theorem exec_sessionStep_cons {s t : Config} {a : SessionAction} {as : List SessionAction}
    (hpc : s.pc ≠ .done) (h : exec (sessionStep dev env vdevId) s (a :: as) = some t) :
    exec (sessionStep dev env vdevId) (dev.prQueue env vdevId s) as = some t := by
  obtain ⟨u, hu, hrun⟩ := exec_cons.mp h
  cases a with
  | step =>
    simp only [sessionStep, if_neg hpc, Option.some.injEq] at hu
    rwa [hu]
  | call => simp [sessionStep, hpc] at hu

private theorem Splits.of_between {t : Config} (ht : t.BetweenChains) :
    Splits dev env vdevId t t := by
  obtain ⟨pc, vjob, c⟩ := t
  rcases ht with rfl | rfl
  · exact ⟨[], .nil⟩
  · exact ⟨[], .nil⟩

/-- A fetch puts the job it leads into before what follows. -/
theorem Splits.fetchNew {t : Config} {vjob : VirtJob} {c : Ctx}
    (h : Splits dev env vdevId (dev.prQueue env vdevId ⟨.fetchNew, vjob, c⟩) t) :
    Splits dev env vdevId ⟨.fetchNew, vjob, c⟩ t := by
  obtain ⟨head, c₁, hfetch⟩ | ⟨vjob₁, c₁, hfetch⟩ := prQueue_fetchNew_cases dev env vdevId vjob c
  · rw [hfetch] at h
    obtain ⟨ds, vjob', c', jobs, hjob, hjobs⟩ := h
    exact ⟨_, .chain hfetch hjob hjobs⟩
  · rw [hfetch] at h
    obtain ⟨jobs, hjobs⟩ := h
    rw [prQueue_notify] at hjobs
    refine ⟨jobs, .ret ?_ hjobs⟩
    rw [Function.iterate_succ_apply, hfetch, Function.iterate_one, prQueue_notify]

/-- A round of the inner loop, two steps, puts its descriptor before those that follow. -/
theorem Splits.body {t : Config} {vjob : VirtJob} {c : Ctx}
    (h : Splits dev env vdevId ((dev.prQueue env vdevId)^[2] ⟨.body, vjob, c⟩) t) :
    Splits dev env vdevId ⟨.body, vjob, c⟩ t := by
  obtain ⟨vjob₁, c₁, hround | hround⟩ := iterate_round_pc dev env vdevId vjob c
  · rw [hround] at h
    obtain ⟨jobs, hjobs⟩ := h
    rw [prQueue_push] at hjobs
    exact ⟨_, _, _, jobs, .last hround, hjobs⟩
  · rw [hround] at h
    obtain ⟨ds, vjob', c', jobs, hjob, hjobs⟩ := h
    exact ⟨_, _, _, jobs, .more hround hjob, hjobs⟩

/-- A run that ends between two chains is made up of whole ones, one after the other. -/
private theorem splits_of_exec {s t : Config} {as : List SessionAction} (ht : t.BetweenChains)
    (h : exec (sessionStep dev env vdevId) s as = some t) : Splits dev env vdevId s t := by
  -- a round of the inner loop is two actions, so the induction is on the length of the run
  induction hn : as.length using Nat.strong_induction_on generalizing s as with
  | h n ih =>
    obtain ⟨pc, vjob, c⟩ := s
    rcases as with _ | ⟨a, as⟩
    · obtain rfl : _ = t := Option.some.inj h
      exact .of_between ht
    have hlt : as.length < n := by
      rw [← hn]
      exact Nat.lt_succ_self _
    cases pc with
    | fetchNew => exact .fetchNew (ih _ hlt (exec_sessionStep_cons (by simp) h) rfl)
    | body =>
      have hnext := exec_sessionStep_cons (by simp) h
      rw [prQueue_body] at hnext
      rcases as with _ | ⟨b, as⟩
      · obtain rfl : _ = t := Option.some.inj hnext
        rcases ht with ht | ht <;> cases ht
      · have htwo := exec_sessionStep_cons (by simp) hnext
        rw [← prQueue_body] at htwo
        exact .body (ih _ ((Nat.lt_succ_self _).trans hlt) htwo rfl)
    | fetchNext => trivial
    | push =>
      have hrest := ih _ hlt (exec_sessionStep_cons (by simp) h) rfl
      rw [prQueue_push] at hrest
      rw [Splits, prQueue_push]
      exact hrest
    | notify =>
      have hrest := ih _ hlt (exec_sessionStep_cons (by simp) h) rfl
      rw [prQueue_notify] at hrest
      rw [Splits, prQueue_notify]
      exact hrest
    | done =>
      obtain ⟨u, hu, hrun⟩ := exec_cons.mp h
      cases a with
      | step => simp [sessionStep] at hu
      | call vjob' mem vq virq tick =>
        obtain rfl : _ = u := Option.some.inj hu
        obtain ⟨jobs, hjobs⟩ := ih _ hlt hrun rfl
        exact ⟨jobs, .call hjobs⟩

/-- **Every run** that starts and ends between two chains is a session. -/
theorem exists_session {s t : Config} {as : List SessionAction} (hs : s.BetweenChains)
    (ht : t.BetweenChains) (h : exec (sessionStep dev env vdevId) s as = some t) :
    ∃ jobs, Session dev env vdevId s jobs t := by
  obtain ⟨pc, vjob, c⟩ := s
  have hsplits := splits_of_exec ht h
  rcases hs with rfl | rfl
  · exact hsplits
  · exact hsplits

/-! ### Sessions are runs -/

/-- The loop runs on its own as long as it has not returned. -/
private theorem reachable_iterate (dev : Vdev) (env : Env) (vdevId : U32) {s : Config} {n : ℕ}
    (h : ∀ k < n, ((dev.prQueue env vdevId)^[k] s).pc ≠ .done) :
    Reachable (sessionStep dev env vdevId) s ((dev.prQueue env vdevId)^[n] s) := by
  induction n with
  | zero => exact .refl s
  | succ n ih =>
    have hstep : sessionStep dev env vdevId ((dev.prQueue env vdevId)^[n] s) .step =
        some (dev.prQueue env vdevId ((dev.prQueue env vdevId)^[n] s)) :=
      if_neg (h n (Nat.lt_succ_self n))
    rw [Function.iterate_succ_apply']
    exact (ih fun k hk => h k (Nat.lt_succ_of_lt hk)).tail hstep

/-- A loop that has returned stays so. -/
private theorem iterate_pc_ne_done {s : Config} {k n : ℕ} (hkn : k ≤ n)
    (h : ((dev.prQueue env vdevId)^[n] s).pc ≠ .done) :
    ((dev.prQueue env vdevId)^[k] s).pc ≠ .done := by
  obtain ⟨j, rfl⟩ := Nat.exists_eq_add_of_le' hkn
  intro hdone
  refine h ?_
  rw [Function.iterate_add_apply]
  generalize (dev.prQueue env vdevId)^[k] s = u at hdone ⊢
  obtain ⟨pc, vjob, c⟩ := u
  obtain rfl : pc = .done := hdone
  have hfix : Function.IsFixedPt (dev.prQueue env vdevId) ⟨.done, vjob, c⟩ :=
    prQueue_done dev env vdevId vjob c
  rw [hfix.iterate j]

/-- A session is a run. -/
theorem Session.reachable {s t : Config} {jobs : List ServedChain}
    (h : Session dev env vdevId s jobs t) : Reachable (sessionStep dev env vdevId) s t := by
  induction h with
  | nil => exact .refl _
  | @chain vjob vjob₂ head c c₁ c₂ ds jobs t hfetch hjob _ ih =>
    have hpush : (dev.prQueue env vdevId)^[1 + 2 * ds.length + 1] ⟨.fetchNew, vjob, c⟩ =
        ⟨.fetchNew, vjob₂, virtQueuePushJob c₂ vjob₂⟩ :=
      iterate_trans (iterate_trans hfetch hjob.iterate) (prQueue_push dev env vdevId vjob₂ c₂)
    have hrun := reachable_iterate dev env vdevId
      (s := ⟨.fetchNew, vjob, c⟩) (n := 1 + 2 * ds.length + 1) fun k hk =>
        iterate_pc_ne_done hk.le (by rw [hpush]; simp)
    rw [hpush] at hrun
    exact hrun.trans ih
  | @ret vjob vjob' c c' jobs t hret _ ih =>
    have hrun := reachable_iterate dev env vdevId
      (s := ⟨.fetchNew, vjob, c⟩) (n := 2) ?_
    · rw [hret] at hrun
      exact hrun.trans ih
    · intro k hk
      refine iterate_pc_ne_done (n := 1) (by omega) ?_
      obtain ⟨head, c₁, hfetch⟩ | ⟨vjob₁, c₁, hfetch⟩ :=
        prQueue_fetchNew_cases dev env vdevId vjob c
      · rw [Function.iterate_one, hfetch]
        simp
      · rw [Function.iterate_one, hfetch]
        simp
  | @call vjob vjob' c mem vq virq tick jobs t _ ih =>
    have hcall : sessionStep dev env vdevId ⟨.done, vjob, c⟩ (.call vjob' mem vq virq tick) =
        some (enter vjob' ⟨⟨mem, c.log⟩, vq, virq, tick⟩) := rfl
    exact ((Reachable.refl _).tail hcall).trans ih

/-! ### The session of a call -/

/-- A chain that was processed is the one of a head in the table at the call. -/
def ServedChain.LinkedFrom (c₀ : Ctx) (head : U16) (job : ServedChain) : Prop :=
  ∃ l, Chain (nextDesc c₀.mem c₀.vq.qDesc) head l ∧ l.map (descOf c₀.mem c₀.vq) = job.descs

/-- A job leaves the position in the available ring alone. -/
theorem JobRun.availIdx {vjob vjob' : VirtJob} {c c' : Ctx} {ds : List VirtDesc}
    (h : JobRun dev env vdevId vjob c ds vjob' c') : c'.vq.availIdx = c.vq.availIdx := by
  induction h with
  | last h =>
    obtain ⟨es, hspec⟩ := roundSpec h
    rw [hspec.vq]
  | more h _ ih =>
    obtain ⟨es, hspec⟩ := roundSpec h
    rw [ih, hspec.vq]

/-- The rest of a call, by induction on the heads that are still pending. -/
theorem Frame.exists_session {c₀ c : Ctx} {vjob : VirtJob} {heads : List U16}
    (h : Frame c₀ ⟨.fetchNew, vjob, c⟩) (hsep : Separated c₀.mem c₀.vq)
    (hheads : pendingHeads c₀.mem c.vq = heads)
    (hends : ∀ head ∈ heads, Ends (nextDesc c₀.mem c₀.vq.qDesc) head) :
    ∃ jobs vjob' c', Session dev env vdevId ⟨.fetchNew, vjob, c⟩ jobs ⟨.done, vjob', c'⟩ ∧
      List.Forall₂ (ServedChain.LinkedFrom c₀) heads jobs := by
  induction heads generalizing vjob c with
  | nil =>
    have hfetch := prQueue_fetchNew_of_none dev env vdevId vjob c
      ((h.intact hsep).fetch_of_nil hsep.sizePow2 hheads)
    have hret : (dev.prQueue env vdevId)^[2] ⟨.fetchNew, vjob, c⟩ = _ :=
      (congrArg (dev.prQueue env vdevId) hfetch).trans (prQueue_notify ..)
    exact ⟨[], _, _, .ret hret .nil, .nil⟩
  | cons head heads ih =>
    rw [List.forall_mem_cons] at hends
    obtain ⟨⟨l, hchain⟩, hends⟩ := hends
    obtain ⟨hfirst, hrest⟩ := (h.intact hsep).fetch_of_cons hsep.sizePow2 hheads
    have hfetch := prQueue_fetchNew_of_head dev env vdevId vjob c hfirst
    have hbody : Frame c₀ (dev.prQueue env vdevId ⟨.fetchNew, vjob, c⟩) := h.step hsep
    rw [hfetch] at hbody
    obtain ⟨vjob₂, c₂, hjob⟩ : ∃ vjob₂ c₂, JobRun dev env vdevId (.start head) _
      (l.map (descOf c₀.mem c₀.vq)) vjob₂ c₂ := hbody.exists_jobRun hsep hchain
    have hpush : Frame c₀ ⟨.push, vjob₂, c₂⟩ := hjob.iterate ▸ hbody.iterate hsep _
    -- the heads behind this one are still pending after the push
    have hpending : pendingHeads c₀.mem (virtQueuePushJob c₂ vjob₂).vq = heads := by
      have hsetup : (virtQueuePushJob c₂ vjob₂).vq.SameSetup c.vq.advance :=
        VirtQueue.SameSetup.trans ⟨_, _, _, rfl⟩ (hpush.sameSetup.trans hbody.sameSetup.symm)
      rw [hsetup.pendingHeads hjob.availIdx, hrest]
    obtain ⟨jobs, vjob', c', hsession, hlinked⟩ := ih (hpush.push hsep) hpending hends
    exact ⟨_, vjob', c', .chain hfetch hjob hsession, .cons ⟨l, hchain, rfl⟩ hlinked⟩

/-- **A call as a session.** If rings and buffers are kept apart and every chain ends, a call
processes the chains of the pending heads, in their order, and returns. -/
theorem Separated.exists_session {c : Ctx} (hsep : Separated c.mem c.vq)
    (hends : ∀ head ∈ pendingHeads c.mem c.vq, Ends (nextDesc c.mem c.vq.qDesc) head)
    (vjob : VirtJob) :
    ∃ jobs vjob' c', Session dev env vdevId (enter vjob c) jobs ⟨.done, vjob', c'⟩ ∧
      List.Forall₂ (ServedChain.LinkedFrom c) (pendingHeads c.mem c.vq) jobs :=
  (Frame.enter vjob c).exists_session hsep rfl hends

end Arm9LinuxFw
