import Arm9LinuxFw.Process.Termination
import Arm9LinuxFw.Service.Agreement

/-!
# Repeated calls of the manager come to rest

If the chain of every request comes to an end, a call returns, and the pending list gets shorter by
one queue with every call. So from every state that service can be in, repeated calls of
`virtManagerProcessPending` get through with everything announced, whatever the host has done
before and wherever a call is when it starts.

* `Service.ChainsEnd` is the condition: the links of every table entry in use come to an end. It is
  kept by the steps of the firmware.
* `Remaining` counts the descriptors that a call has left of the chain it is at; with the heads
  that are pending this is a weight that every step lessens (`Calls.weight_lt`), so that the call
  returns (`Calls.returns`).
* `exists_settled` goes through the pending list, one call for each queue on it.
* `service_progress`: no queue is left on the list, every head announced is served, and a driver
  that has not read all of its entries has an interrupt pending, or is reading.

That the firmware makes these calls is not said here: its main loop sleeps once a call has found
nothing (`Manager/MainLoop`).
-/

namespace Arm9LinuxFw

open ByteMem Transition CircularList LinkGraph

namespace Service

variable {env : Env} {sectors : Option U32} {s t : Service} {dev : Vdev} {c : QueueCall}

/-! ### Chains -/

/-- The links of every descriptor that is in use come to an end. -/
def ChainsEnd (s : Service) : Prop :=
  ∀ dev i, s.Busy dev i → Ends (nextDesc s.mem (s.queue dev).qDesc) i

/-- A step of a call leaves the links that are in use as they are. -/
theorem Calls.nextDesc_eq (h : s.Calls dev c) (hinv : ServiceInv env sectors s) {dev' : Vdev}
    {i : U16} (hi : s.Busy dev' i) :
    nextDesc (callNext env s dev c).ctx.mem
        ((s.advance dev c (callNext env s dev c)).queue dev').qDesc i =
      nextDesc s.mem (s.queue dev').qDesc i := by
  have hmem : Set.EqOn (callNext env s dev c).ctx.mem s.mem _ :=
    h.eqOn_ring (hinv.kept dev) hinv.apart dev'
  rw [(advance_sameSetup dev').qDesc]
  exact nextDesc_congr (vqDescAt_congr (hmem.mono Set.subset_union_right)
    ((hinv.kept dev').inTable i hi))

theorem Busy.of_mem_chain {i j : U16} {l : List U16} (h : s.Busy dev i)
    (hl : Chain (nextDesc s.mem (s.queue dev).qDesc) i l) (hj : j ∈ l) : s.Busy dev j := by
  obtain ⟨r, hr, hreach⟩ := h
  exact ⟨r, hr, hreach.trans (hl.reach hj)⟩

variable (env) in
/-- The rest of a chain is the same after a step. -/
theorem Calls.chain (h : s.Calls dev c) (hinv : ServiceInv env sectors s) {dev' : Vdev} {i : U16}
    {l : List U16} (hi : s.Busy dev' i) (hl : Chain (nextDesc s.mem (s.queue dev').qDesc) i l) :
    Chain (nextDesc (s.advance dev c (callNext env s dev c)).mem
      ((s.advance dev c (callNext env s dev c)).queue dev').qDesc) i l :=
  hl.congr fun _ hj => h.nextDesc_eq hinv (hi.of_mem_chain hl hj)

/-- Chains still end after a step of a call, as the tables stay. -/
private theorem Calls.chainsEnd (h : s.Calls dev c) (hinv : ServiceInv env sectors s)
    (hends : s.ChainsEnd) : (s.advance dev c (callNext env s dev c)).ChainsEnd := by
  intro dev' i hi
  have hpow : (s.queue dev).SizePow2 := (hinv.rings dev).avail.sizePow2
  have hmem : Set.EqOn (callNext env s dev c).ctx.mem s.mem _ :=
    h.eqOn_ring (hinv.kept dev) hinv.apart dev'
  have hbusy : s.Busy dev' i := (hinv.kept dev').busy (advance_sameSetup dev')
    (hmem.mono Set.subset_union_right) (fun _ => h.root (hinv.kept dev) hinv.apart hpow) hi
  obtain ⟨l, hl⟩ := hends dev' i hbusy
  exact ⟨l, h.chain env hinv hbusy hl⟩

/-! ### How much a call has left -/

/-- The number of descriptors left of the chain that a call is at, being at descriptor `i`. -/
def Remaining (s : Service) (dev : Vdev) (pc : Pc) (i : U16) (r : ℕ) : Prop :=
  match pc with
  | .body | .fetchNext => ∃ l, Chain (nextDesc s.mem (s.queue dev).qDesc) i l ∧ l.length = r
  | _ => r = 0

/-- No chain is longer than this. -/
def maxChain : ℕ := 2 ^ 16

/-- A bound on the steps of a call with `k` heads pending. -/
def callWeight (k r : ℕ) (pc : Pc) : ℕ :=
  k * (2 * maxChain + 4) +
    match pc with
    | .body => 2 * r + 4
    | .fetchNext => 2 * r + 3
    | .push => 3
    | .fetchNew => 2
    | .notify => 1
    | .done => 0

/-- Only a fetch takes a head off the pending ones. -/
theorem Calls.pendingHeads_eq (h : s.Calls dev c) (hinv : ServiceInv env sectors s)
    (hfetch : c.pc ≠ .fetchNew) :
    pendingHeads (s.advance dev c (callNext env s dev c)).mem
        ((s.advance dev c (callNext env s dev c)).queue dev) =
      pendingHeads s.mem (s.queue dev) := by
  have havail : (callNext env s dev c).ctx.vq.availIdx = (s.queue dev).availIdx := by
    by_cases hpush : c.pc = .push
    · rw [callNext, hpush, prQueue_push]
      rfl
    · exact (callNext_same hfetch hpush).1
  have hmem : Set.EqOn (callNext env s dev c).ctx.mem s.mem _ :=
    h.eqOn_ring (hinv.kept dev) hinv.apart dev
  rw [advance_queue, if_pos rfl, callNext_sameSetup.pendingHeads havail]
  exact pendingHeads_congr (hmem.mono Set.subset_union_left)

/-- After the next step of a call fewer than `w` steps are left to it. -/
def Nearer (env : Env) (s : Service) (dev : Vdev) (c : QueueCall) (w : ℕ) : Prop :=
  ∃ r', (s.advance dev c (callNext env s dev c)).Remaining dev (callNext env s dev c).pc
      (callNext env s dev c).vjob.currentDesc r' ∧
    callWeight (pendingHeads (s.advance dev c (callNext env s dev c)).mem
        ((s.advance dev c (callNext env s dev c)).queue dev)).length r'
        (callNext env s dev c).pc < w

/-- A fetch: of nothing, or of a head whose chain is yet to be gone through. -/
private theorem Calls.nearer_fetchNew (h : s.Calls dev c) (hinv : ServiceInv env sectors s)
    (hends : s.ChainsEnd) (hfetch : c.pc = .fetchNew) :
    Nearer env s dev c (callWeight (pendingHeads s.mem (s.queue dev)).length 0 .fetchNew) := by
  have hpow : (s.queue dev).SizePow2 := (hinv.rings dev).avail.sizePow2
  rcases hheads : pendingHeads s.mem (s.queue dev) with _ | ⟨head, rest⟩
  · have hnext := prQueue_fetchNew_of_none dev env (s.fw.devs dev.index).id c.vjob (s.ctx dev)
      (virtQueueFetchAvailFirst_of_nil hpow hheads)
    rw [← hfetch] at hnext
    change callNext env s dev c = _ at hnext
    refine ⟨0, by rw [hnext]; rfl, ?_⟩
    rw [advance_mem, advance_queue, if_pos rfl, hnext]
    change callWeight (pendingHeads s.mem (s.queue dev)).length 0 .notify < _
    rw [hheads]
    decide
  · obtain ⟨hret, hrest⟩ := virtQueueFetchAvailFirst_of_cons hpow hheads
    have hnext := prQueue_fetchNew_of_head dev env (s.fw.devs dev.index).id c.vjob (s.ctx dev) hret
    rw [← hfetch] at hnext
    change callNext env s dev c = _ at hnext
    have hroot : s.Busy dev head := .of_root (Or.inl (hheads ▸ List.mem_cons_self ..))
    obtain ⟨l, hl⟩ := hends dev head hroot
    have hlen : l.length ≤ maxChain := chain_length_le hl fun i _ => i.isLt
    have hafter := h.chain env hinv hroot hl
    refine ⟨l.length, ?_, ?_⟩
    · rw [hnext] at hafter ⊢
      exact ⟨l, hafter, rfl⟩
    · rw [advance_mem, advance_queue, if_pos rfl, hnext]
      change callWeight (pendingHeads s.mem (s.queue dev).advance).length l.length .body < _
      rw [hrest, List.length_cons]
      simp only [callWeight, Nat.add_one_mul]
      omega

/-- The work on a descriptor: the chain from there on is to be gone through still. -/
private theorem Calls.nearer_body (h : s.Calls dev c) (hinv : ServiceInv env sectors s)
    (hpc : c.pc = .body) {l : List U16}
    (hl : Chain (nextDesc s.mem (s.queue dev).qDesc) c.vjob.currentDesc l) :
    Nearer env s dev c (callWeight (pendingHeads s.mem (s.queue dev)).length l.length .body) := by
  have hnext : callNext env s dev c =
      dev.prQueue env (s.fw.devs dev.index).id ⟨.body, c.vjob, s.ctx dev⟩ := by
    rw [callNext, hpc]
  have hafter := h.chain env hinv (h.busy (Or.inl hpc)) hl
  have hcur := descStep_currentDesc dev env c.vjob (s.ctx dev)
  rw [prQueue_body] at hnext
  refine ⟨l.length, ?_, ?_⟩
  · rw [hnext, ← hcur] at hafter
    rw [hnext]
    exact ⟨l, hafter, rfl⟩
  · rw [h.pendingHeads_eq hinv (by simp [hpc]), hnext]
    simp [callWeight]

/-- The link of a descriptor: it ends the chain, or leads on to a shorter one. -/
private theorem Calls.nearer_fetchNext (h : s.Calls dev c) (hinv : ServiceInv env sectors s)
    (hpc : c.pc = .fetchNext) {l : List U16}
    (hl : Chain (nextDesc s.mem (s.queue dev).qDesc) c.vjob.currentDesc l) :
    Nearer env s dev c
      (callWeight (pendingHeads s.mem (s.queue dev)).length l.length .fetchNext) := by
  have hnext : callNext env s dev c =
      dev.prQueue env (s.fw.devs dev.index).id ⟨.fetchNext, c.vjob, s.ctx dev⟩ := by
    rw [callNext, hpc]
  have hbusy := h.busy (Or.inr hpc)
  rw [Nearer, h.pendingHeads_eq hinv (by simp [hpc])]
  cases hl with
  | last hlink =>
    rw [prQueue_fetchNext_of_none _ _ _ _ (s.ctx dev) hlink] at hnext
    refine ⟨0, by rw [hnext]; rfl, ?_⟩
    rw [hnext]
    simp [callWeight]
  | @link _ j l hlink htail =>
    rw [prQueue_fetchNext_of_some _ _ _ _ (s.ctx dev) hlink] at hnext
    have hafter := h.chain env hinv (hbusy.next hlink) htail
    refine ⟨l.length, ?_, ?_⟩
    · rw [hnext] at hafter ⊢
      exact ⟨l, hafter, rfl⟩
    · rw [hnext]
      simp only [callWeight, List.length_cons]
      omega

/-- **A step** brings the end of the call nearer. -/
theorem Calls.weight_lt (h : s.Calls dev c) (hinv : ServiceInv env sectors s)
    (hends : s.ChainsEnd) (hbusy : c.pc ≠ .done) {r : ℕ}
    (hr : s.Remaining dev c.pc c.vjob.currentDesc r) :
    Nearer env s dev c (callWeight (pendingHeads s.mem (s.queue dev)).length r c.pc) := by
  obtain ⟨pc, hpc⟩ : ∃ pc, c.pc = pc := ⟨_, rfl⟩
  have hnext : callNext env s dev c =
      dev.prQueue env (s.fw.devs dev.index).id ⟨pc, c.vjob, s.ctx dev⟩ := by
    rw [callNext, hpc]
  rw [hpc] at hr ⊢
  cases pc with
  | fetchNew =>
    obtain rfl : r = 0 := hr
    exact h.nearer_fetchNew hinv hends hpc
  | body =>
    obtain ⟨l, hl, rfl⟩ := hr
    exact h.nearer_body hinv hpc hl
  | fetchNext =>
    obtain ⟨l, hl, rfl⟩ := hr
    exact h.nearer_fetchNext hinv hpc hl
  | push =>
    rw [prQueue_push] at hnext
    refine ⟨0, by rw [hnext]; rfl, ?_⟩
    rw [h.pendingHeads_eq hinv (by simp [hpc]), hnext]
    simp [callWeight]
  | notify =>
    rw [prQueue_notify] at hnext
    refine ⟨0, by rw [hnext]; rfl, ?_⟩
    rw [h.pendingHeads_eq hinv (by simp [hpc]), hnext]
    simp [callWeight]
  | done => exact absurd hpc hbusy

/-! ### Calls return -/

/-- What service is about, between two steps of the firmware that push nothing. -/
structure Settles (env : Env) (sectors : Option U32) (s t : Service) : Prop where
  inv : ServiceInv env sectors t
  ends : t.ChainsEnd
  sent : ∀ dev, (t.account dev).sent = (s.account dev).sent
  announced : ∀ dev, (t.account dev).announced = (s.account dev).announced

theorem Settles.trans {u : Service} (h : Settles env sectors s u) (h' : Settles env sectors u t) :
    Settles env sectors s t where
  inv := h'.inv
  ends := h'.ends
  sent dev := (h'.sent dev).trans (h.sent dev)
  announced dev := (h'.announced dev).trans (h.announced dev)

/-- A step of a call only adds to what is done. -/
theorem Settles.advance (h : s.Calls dev c) (hinv : ServiceInv env sectors s)
    (hends : s.ChainsEnd) :
    Settles env sectors s (s.advance dev c (callNext env s dev c)) where
  inv := hinv.advance h
  ends := h.chainsEnd hinv hends
  sent dev' := by rw [advance_account_eq]
  announced dev' := by rw [advance_account_eq]

/-- A call that has `r` descriptors left of its chain returns, with the pending list as it was. -/
theorem Calls.returns (h : s.Calls dev c) (hinv : ServiceInv env sectors s) (hends : s.ChainsEnd)
    {r : ℕ} (hr : s.Remaining dev c.pc c.vjob.currentDesc r) :
    ∃ n t, exec (serviceStep env sectors) s (List.replicate n .process) = some t ∧
      t.call = none ∧ t.fw.links = s.fw.links ∧ Settles env sectors s t := by
  obtain ⟨k, hk⟩ : ∃ k, callWeight (pendingHeads s.mem (s.queue dev)).length r c.pc = k := ⟨_, rfl⟩
  induction k using Nat.strong_induction_on generalizing s c r with
  | h k ih =>
    obtain ⟨queue, hsig⟩ := hinv.signals
    have hbusy := (hsig.call c h.call).2
    obtain ⟨r', hr', hlt⟩ := h.weight_lt hinv hends hbusy hr
    have hstep := serviceStep_call env sectors h.call h.owner h.queue
    change _ = some (s.advance dev c (callNext env s dev c)) at hstep
    have hstep' : Settles env sectors s (s.advance dev c (callNext env s dev c)) :=
      .advance h hinv hends
    by_cases hdone : (callNext env s dev c).pc = .done
    · exact ⟨1, _, exec_cons.mpr ⟨_, hstep, rfl⟩, by rw [advance_call, if_pos hdone], rfl, hstep'⟩
    · have hcalls : (s.advance dev c (callNext env s dev c)).Calls dev
          { c with pc := (callNext env s dev c).pc, vjob := (callNext env s dev c).vjob } :=
        ⟨by rw [advance_call, if_neg hdone], h.owner, h.queue⟩
      obtain ⟨n, t, hrun, hidle, hlinks, hsettles⟩ :=
        ih _ (hk ▸ hlt) hcalls hstep'.inv hstep'.ends hr' rfl
      exact ⟨n + 1, t, exec_cons.mpr ⟨_, hstep, hrun⟩, hidle, hlinks, hstep'.trans hsettles⟩

/-- A call has some number of entries left in its chain. -/
private theorem Calls.exists_remaining (h : s.Calls dev c) (hends : s.ChainsEnd) :
    ∃ r, s.Remaining dev c.pc c.vjob.currentDesc r := by
  by_cases hpc : c.pc = .body ∨ c.pc = .fetchNext
  · obtain ⟨l, hl⟩ := hends dev _ (h.busy hpc)
    refine ⟨l.length, ?_⟩
    rcases hpc with hpc | hpc
    all_goals
      rw [hpc]
      exact ⟨l, hl, rfl⟩
  · refine ⟨0, ?_⟩
    rw [Remaining.eq_def]
    split
    · exact absurd (Or.inl ‹_›) hpc
    · exact absurd (Or.inr ‹_›) hpc
    · rfl

/-! ### The pending list gets empty -/

/-- And when a call begins. -/
theorem ChainsEnd.begun (h : s.ChainsEnd) (hinv : ServiceInv env sectors s) :
    s.begun.ChainsEnd := by
  obtain ⟨hmem, hqueue, hpc⟩ := begun_spec s
  intro dev i hi
  have hbusy : s.Busy dev i := by
    refine (hinv.kept dev).busy ?_ ?_ (fun i hi => .of_root ?_) hi
    · rw [hqueue]
      exact .refl _
    · rw [hmem]
      exact Set.eqOn_refl _ _
    · exact hi.congr hmem hqueue fun c hc => Or.inl (hpc c hc)
  rw [hmem, hqueue]
  exact h dev i hbusy

/-- Between two calls, with the queues `queue` pending. -/
private theorem exists_settled (hinv : ServiceInv env sectors s) (hends : s.ChainsEnd)
    (hidle : s.call = none) {queue : List ListNode}
    (hrep : Represents (pendingNodes (deviceTable env sectors 0)) s.fw.links .vqueuePendingList
      queue) :
    ∃ n t, exec (serviceStep env sectors) s (List.replicate n .process) = some t ∧
      t.call = none ∧ listEmpty t.fw.links .vqueuePendingList ∧ Settles env sectors s t := by
  induction queue generalizing s with
  | nil =>
    exact ⟨0, s, rfl, hidle, (listEmpty_iff hrep).mpr rfl, hinv, hends, fun _ => rfl, fun _ => rfl⟩
  | cons node rest ih =>
    obtain ⟨dev, rfl, hbegin⟩ := beginCall_of_cons hrep
    have hstep : serviceStep env sectors s .process = some s.begun := by
      simp only [serviceStep, hidle]
      rfl
    obtain ⟨queue, hsig⟩ := hinv.signals
    have hcalls : s.begun.Calls dev
        ⟨virtQueueOwner (s.fw.vqs dev.index 0), (dev.index, 0), .fetchNew, ⟨0, 0, 0⟩⟩ :=
      ⟨by rw [Service.begun, hbegin], hsig.owner dev, rfl⟩
    have hlinks : s.begun.fw.links = listRemove s.fw.links (.vq dev.index 0) := by
      rw [Service.begun, hbegin]
    obtain ⟨n, u, hrun, hreturned, hsame, hsettles⟩ :=
      hcalls.returns (hinv.begin hidle) (hends.begun hinv) (r := 0) rfl
    have hrest : Represents (pendingNodes (deviceTable env sectors 0)) u.fw.links
        .vqueuePendingList rest := by
      rw [hsame, hlinks]
      exact represents_listRemove_head hrep
    obtain ⟨k, t, hrun', hidle', hempty, hdone⟩ := ih hsettles.inv hsettles.ends hreturned hrest
    have hbegun : Settles env sectors s s.begun :=
      ⟨hinv.begin hidle, hends.begun hinv, fun _ => rfl, fun _ => rfl⟩
    refine ⟨n + 1 + k, t, ?_, hidle', hempty, (hbegun.trans hsettles).trans hdone⟩
    rw [List.replicate_add, exec_append]
    exact ⟨u, exec_cons.mpr ⟨_, hstep, hrun⟩, hrun'⟩

/-- A call in progress is no obstacle. -/
private theorem exists_settled_of_inv (hinv : ServiceInv env sectors s) (hends : s.ChainsEnd) :
    ∃ n t, exec (serviceStep env sectors) s (List.replicate n .process) = some t ∧
      t.call = none ∧ listEmpty t.fw.links .vqueuePendingList ∧ Settles env sectors s t := by
  obtain ⟨queue, hsig⟩ := hinv.signals
  rcases hcall : s.call with _ | c
  · exact exists_settled hinv hends hcall hsig.represents
  · obtain ⟨⟨dev, hcalls⟩, -⟩ := hsig.call c hcall
    obtain ⟨r, hr⟩ := hcalls.exists_remaining hends
    obtain ⟨n, u, hrun, hreturned, -, hsettles⟩ := hcalls.returns hinv hends hr
    obtain ⟨queue', hsig'⟩ := hsettles.inv.signals
    obtain ⟨k, t, hrun', hidle, hempty, hdone⟩ :=
      exists_settled hsettles.inv hsettles.ends hreturned hsig'.represents
    refine ⟨n + k, t, ?_, hidle, hempty, hsettles.trans hdone⟩
    rw [List.replicate_add, exec_append]
    exact ⟨u, hrun, hrun'⟩

end Service

/-- **Progress.** Whatever was done before in a disciplined run, if all chains come to an end then
repeated calls of `virtManagerProcessPending`, with nothing more from the host, lead to a state
with no queue left on the pending list, in which all heads that were announced have been served,
and in which a driver that has not read all of its entries has an interrupt pending, or is
reading. -/
theorem service_progress (env : Env) (sectors : Option U32) (s t : Service)
    (as : List ServiceAction) (h : s.Initial env sectors)
    (has : Along (serviceStep env sectors) (Service.Disciplined env sectors) s as)
    (ht : exec (serviceStep env sectors) s as = some t) (hends : t.ChainsEnd) :
    ∃ n u, exec (serviceStep env sectors) t (List.replicate n .process) = some u ∧
      u.call = none ∧ listEmpty u.fw.links .vqueuePendingList ∧
      ∀ dev, ((t.account dev).announced →
          (u.account dev).done.map Prod.fst = (t.account dev).sent) ∧
        ((u.account dev).got.length < (u.account dev).done.length →
          (u.fw.virq.pendingVirq 0 0).getLsbD dev.index ∨ (u.account dev).draining) := by
  obtain ⟨n, u, hrun, hidle, hempty, hsettles⟩ :=
    Service.exists_settled_of_inv (h.inv_of_exec has ht) hends
  obtain ⟨queue, hsig⟩ := hsettles.inv.signals
  obtain rfl : queue = [] := (listEmpty_iff hsig.represents).mp hempty
  refine ⟨n, u, hrun, hidle, hempty, fun dev => ⟨fun hann => ?_, fun hlt => ?_⟩⟩
  · rw [← hsettles.announced] at hann
    rcases hsig.announced dev hann with hall | hmem | ⟨c, hc, -⟩
    · rw [← hsettles.sent, ← hall, Service.fetched, Service.flight, hidle, List.append_nil]
    · cases hmem
    · rw [hidle] at hc
      cases hc
  · rcases hsig.told dev hlt with hbit | hdraining | ⟨c, hc, -⟩
    · exact Or.inl hbit
    · exact Or.inr hdraining
    · rw [hidle] at hc
      cases hc

/-- In the middle of the first request the requests for entropy get served. -/
theorem service_progress_boot :
    ∃ t, exec (serviceStep idleEnv (some 4096)) serviceBoot (serviceRun.take 8) = some t ∧
      ∃ n u, exec (serviceStep idleEnv (some 4096)) t (List.replicate n .process) = some u ∧
        (u.account .hwrngDevice).done.map Prod.fst = [0, 1] := by
  have hrun := exec_serviceAt (n := 8) (by decide +kernel)
  have hclosed : ∀ dev ∈ [Vdev.hwrngDevice, Vdev.sdmcDevice],
      Service.closedOn (serviceAt 8) dev (serviceEntries dev) := by decide +kernel
  have hlinks (dev : Vdev) : (serviceEntries dev).map
      (nextDesc (serviceAt 8).mem ((serviceAt 8).queue dev).qDesc) =
        if dev = .hwrngDevice then [none, none] else [some 1, some 2, none] := by
    cases dev <;> decide +kernel
  have hends : (serviceAt 8).ChainsEnd := by
    intro dev i hi
    cases dev with
    | hwrngDevice =>
      have hmem := Service.mem_of_closedOn (hclosed .hwrngDevice (by simp)) hi
      obtain ⟨h0, h1⟩ := List.cons_eq_cons.mp (hlinks .hwrngDevice)
      simp only [serviceEntries, List.mem_cons, List.not_mem_nil, or_false] at hmem
      rcases hmem with rfl | rfl
      · exact ends_of_next_eq_none h0
      · exact ends_of_next_eq_none (List.cons_eq_cons.mp h1).1
    | sdmcDevice =>
      have hmem := Service.mem_of_closedOn (hclosed .sdmcDevice (by simp)) hi
      obtain ⟨h0, h⟩ := List.cons_eq_cons.mp (hlinks .sdmcDevice)
      obtain ⟨h1, h⟩ := List.cons_eq_cons.mp h
      have h2 := ends_of_next_eq_none (List.cons_eq_cons.mp h).1
      simp only [serviceEntries, List.mem_cons, List.not_mem_nil, or_false] at hmem
      rcases hmem with rfl | rfl | rfl
      · exact (ends_iff_of_next_eq_some h0).mpr ((ends_iff_of_next_eq_some h1).mpr h2)
      · exact (ends_iff_of_next_eq_some h1).mpr h2
      · exact h2
  obtain ⟨n, u, hprocess, -, -, hserved⟩ := service_progress idleEnv (some 4096) serviceBoot _ _
    serviceBoot_initial (serviceAt_disciplined 8) hrun hends
  have hann : ((serviceAt 8).account .hwrngDevice).announced ∧
      ((serviceAt 8).account .hwrngDevice).sent = [0, 1] := by decide +kernel
  exact ⟨_, hrun, n, u, hprocess, ((hserved .hwrngDevice).1 hann.1).trans hann.2⟩

end Arm9LinuxFw
