import Arm9LinuxFw.Service.Checks

/-!
# The manager, in one step and in many

In the service a `prQueue` is run step by step, so that the host may come in between; the
function of the firmware that calls it, `virtManagerProcessPending`, has it as one callback. This
module connects the two.

* `QueueCall.config_withCtx` says that a step of a call and the putting back of its context do not
  get in each other's way, so that `n` steps of the call are `n` steps of the loop.
* `exec_processPending_eq`: when nothing comes between them, the steps of the firmware from one test
  of the pending list to the next add up to `virtManagerProcessPending` of the device table. With
  it, whatever is said of runs of the service is said of the function.
-/

namespace Arm9LinuxFw

open ByteMem Transition

private theorem QueueCall.config_withCtx (c : QueueCall) (w : Fw World) (t : Config) :
    ({ c with pc := t.pc, vjob := t.vjob } : QueueCall).config (w.withCtx c.queue t.ctx) = t := by
  simp [config]

/-- The steps of a call, up to its `n`-th, which may be its last. -/
private theorem exec_process (env : Env) (sectors : Option U32) (n : ℕ) {s : Service}
    {c : QueueCall}
    {t : Config}
    (hcall : s.call = some c)
    (hrun : ((Vdev.ofIndex c.owner).prQueue env (s.fw.devs c.owner).id)^[n + 1] (c.config s.fw) = t)
    (hbusy : ∀ k < n + 1,
      (((Vdev.ofIndex c.owner).prQueue env (s.fw.devs c.owner).id)^[k] (c.config s.fw)).pc ≠
        .done) :
    ∃ s', exec (serviceStep env sectors) s (List.replicate (n + 1) .process) = some s' ∧
      s'.fw = s.fw.withCtx c.queue t.ctx ∧
      s'.call = if t.pc = .done then none else some { c with pc := t.pc, vjob := t.vjob } := by
  induction n generalizing s c with
  | zero =>
    subst hrun
    exact ⟨_, exec_cons.mpr ⟨_, by rw [serviceStep, hcall], rfl⟩, rfl, rfl⟩
  | succ n ih =>
    obtain ⟨u, hu⟩ : ∃ u, c.next env s.fw = u := ⟨_, rfl⟩
    have hmore : u.pc ≠ .done := by
      rw [← hu]
      exact hbusy 1 (by omega)
    let s₁ : Service :=
      { s with
        fw := s.fw.withCtx c.queue u.ctx
        call := some { c with pc := u.pc, vjob := u.vjob } }.setAccount (.ofIndex c.owner)
          ((s.account (.ofIndex c.owner)).record c)
    have hstep : serviceStep env sectors s .process = some s₁ := by
      simp only [serviceStep, hcall, callStep, hu, if_neg hmore, s₁]
    have hconfig : ({ c with pc := u.pc, vjob := u.vjob } : QueueCall).config s₁.fw = u :=
      c.config_withCtx s.fw u
    obtain ⟨s', hs', hfw, hcall'⟩ := ih (s := s₁) rfl
      (by rw [hconfig, ← hu]; exact hrun)
      (by
        intro k hk
        rw [hconfig, ← hu]
        exact hbusy (k + 1) (by omega))
    refine ⟨s', exec_cons.mpr ⟨s₁, hstep, hs'⟩, ?_, hcall'⟩
    rw [hfw]
    exact Fw.withCtx_withCtx ..

private theorem deviceTable_ofIndex (env : Env) (sectors : Option U32) (fuel d : ℕ) :
    (deviceTable env sectors fuel).dev d = (Vdev.ofIndex d).toClass env sectors fuel := by
  simp only [deviceTable, Vdev.ofIndex]
  split_ifs <;> rfl

/-- `virtManagerProcessPending` makes the call that `beginCall` comes to, if any. -/
private theorem virtManagerProcessPending_eq (T : DevTable World) (w : Fw World) :
    (virtManagerProcessPending T w).2 =
      match (beginCall w).2 with
      | none => (beginCall w).1
      | some c => (T.dev c.owner).prQueue c.owner c.queue (beginCall w).1 := by
  simp only [virtManagerProcessPending, beginCall]
  split_ifs
  · rfl
  · rcases listHead w.links .vqueuePendingList with _ | ⟨d, q⟩ <;> rfl

/-- The call starts as `prQueue` is entered. -/
private theorem beginCall_config {w : Fw World} {c : QueueCall} (h : (beginCall w).2 = some c)
    (w' : Fw World) : c.config w' = enter ⟨0, 0, 0⟩ (w'.ctx c.queue) := by
  simp only [beginCall] at h
  split_ifs at h
  rcases hhead : listHead w.links .vqueuePendingList with _ | ⟨d, q⟩ <;> rw [hhead] at h
  · cases h
  · obtain rfl := Option.some.inj h
    rfl

/-- **The manager.** With nothing in between, the steps of the firmware from one test of the
pending list to the next are `virtManagerProcessPending`, if the call returns. -/
theorem exec_processPending_eq (env : Env) (sectors : Option U32) {fuel : ℕ} {s : Service}
    (hidle : s.call = none)
    (hret : ∀ c, (beginCall s.fw).2 = some c →
      (((Vdev.ofIndex c.owner).prQueue env ((beginCall s.fw).1.devs c.owner).id)^[fuel]
        (c.config (beginCall s.fw).1)).pc = .done) :
    ∃ n s', exec (serviceStep env sectors) s (List.replicate n .process) = some s' ∧
      s'.call = none ∧
      s'.fw = (virtManagerProcessPending (deviceTable env sectors fuel) s.fw).2 := by
  obtain ⟨w, hw⟩ : ∃ w, (beginCall s.fw).1 = w := ⟨_, rfl⟩
  have hbegin : serviceStep env sectors s .process =
      some { s with fw := w, call := (beginCall s.fw).2 } := by
    simp only [serviceStep, hidle, hw]
  rw [virtManagerProcessPending_eq, hw]
  rw [hw] at hret
  rcases hcall : (beginCall s.fw).2 with _ | c
  · exact ⟨1, _, exec_cons.mpr ⟨_, hbegin, rfl⟩, hcall, rfl⟩
  · have hconfig := beginCall_config hcall w
    have hreturns : ∃ k, (((Vdev.ofIndex c.owner).prQueue env (w.devs c.owner).id)^[k]
        (c.config w)).pc = .done := ⟨fuel, hret c hcall⟩
    -- the call returns with its `n + 1`-st step
    obtain ⟨n, hn⟩ : ∃ n, Nat.find hreturns = n + 1 := by
      refine Nat.exists_eq_add_one.mpr ((Nat.find_pos hreturns).mpr ?_)
      rw [hconfig]
      exact Pc.noConfusion
    have hdone := Nat.find_spec hreturns
    have hle : n + 1 ≤ fuel := hn ▸ Nat.find_min' hreturns (hret c hcall)
    rw [hn] at hdone
    obtain ⟨t, ht⟩ : ∃ t, ((Vdev.ofIndex c.owner).prQueue env (w.devs c.owner).id)^[n + 1]
        (c.config w) = t := ⟨_, rfl⟩
    rw [ht] at hdone
    obtain ⟨s', hs', hfw, hcall'⟩ := exec_process env sectors n
      (s := { s with fw := w, call := (beginCall s.fw).2 }) hcall ht
      (fun k hk => Nat.find_min hreturns (hn ▸ hk))
    rw [if_pos hdone] at hcall'
    refine ⟨n + 1 + 1, s', exec_cons.mpr ⟨_, hbegin, hs'⟩, hcall', ?_⟩
    obtain ⟨pc, vjob, ctx⟩ := t
    obtain rfl : pc = .done := hdone
    rw [hconfig] at ht
    change s'.fw = ((deviceTable env sectors fuel).dev c.owner).prQueue c.owner c.queue w
    rw [hfw, deviceTable_ofIndex]
    exact (Vdev.callback_of_returns _ env hle ht).symm

/-- Both requests for entropy are processed, as `virtManagerProcessPending` would. -/
theorem exec_processPending_boot :
    ∃ n s', exec (serviceStep idleEnv (some 4096)) (serviceAt 4) (List.replicate n .process) =
        some s' ∧
      s'.call = none ∧
      s'.fw =
        (virtManagerProcessPending (deviceTable idleEnv (some 4096) 10) (serviceAt 4).fw).2 := by
  have hidle : (serviceAt 4).call.isNone := by decide +kernel
  refine exec_processPending_eq idleEnv (some 4096) (Option.isNone_iff_eq_none.mp hidle)
    fun c hc => ?_
  have hret : (beginCall (serviceAt 4).fw).2.all fun c =>
      (((Vdev.ofIndex c.owner).prQueue idleEnv
        ((beginCall (serviceAt 4).fw).1.devs c.owner).id)^[10]
          (c.config (beginCall (serviceAt 4).fw).1)).pc = .done := by decide +kernel
  rw [hc] at hret
  exact of_decide_eq_true hret

end Arm9LinuxFw
