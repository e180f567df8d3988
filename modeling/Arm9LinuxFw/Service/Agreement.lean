import Arm9LinuxFw.Service.Checks

/-!
# Every request, once

What the two drivers can rely on, in every interleaving of host and firmware.

* `Service.begun` is the state after the manager has taken a queue off the list and entered its
  `prQueue`. Beginning a call touches neither memory nor the rings.
* `serviceInv_step`: the steps of the firmware, and the disciplined ones of the host, keep
  `ServiceInv`. The steps of the host are in `Host`, those of a call in `Rings`, `Signals` and
  `Discipline`; here they are put together, one case for each action.
* `service_inOrder`: a driver gets each request back at most once, in the order in which it
  published them, each in an entry that carries its head.
* `service_atRest`: when everybody has gone to rest, the pending list empty, no call under way, no
  interrupt pending and no driver reading, it has got every request back that it had announced.

`serviceRun` of `Checks` is a run of both drivers that the two are applied to.
-/

namespace Arm9LinuxFw

open ByteMem Transition CircularList

namespace Service

variable {env : Env} {sectors : Option U32} {s t : Service} {dev : Vdev}

/-! ### The manager -/

/-- The state after the test of the pending list. -/
def begun (s : Service) : Service :=
  { s with fw := (beginCall s.fw).1, call := (beginCall s.fw).2 }

/-- The test of the pending list changes the list only, and a call starts with a fetch. -/
private theorem beginCall_spec (w : Fw World) :
    (beginCall w).1.vqs = w.vqs ∧ (beginCall w).1.ext = w.ext ∧
      ∀ c, (beginCall w).2 = some c → c.pc = .fetchNew := by
  rcases hempty : listEmpty w.links .vqueuePendingList with _ | _
  · rcases hhead : listHead w.links .vqueuePendingList with _ | ⟨d, q⟩
    all_goals
      simp only [beginCall, hempty, hhead, if_neg, Bool.false_eq_true, not_false_iff, true_and]
      intro c hc
    · cases hc
    · obtain rfl := Option.some.inj hc
      rfl
  · simp only [beginCall, hempty, if_pos, true_and]
    intro c hc
    cases hc

theorem begun_spec (s : Service) : s.begun.mem = s.mem ∧
    (∀ dev, s.begun.queue dev = s.queue dev) ∧ ∀ c, s.begun.call = some c → c.pc = .fetchNew := by
  obtain ⟨hvqs, hext, hpc⟩ := beginCall_spec s.fw
  refine ⟨?_, fun dev => ?_, hpc⟩
  · simp only [begun, mem, hext]
  · simp only [begun, Service.queue, hvqs]

/-- **The manager** takes a queue off the list and calls, or finds nothing. -/
theorem ServiceInv.begin (h : ServiceInv env sectors s) (hidle : s.call = none) :
    ServiceInv env sectors s.begun := by
  obtain ⟨queue, hsig⟩ := h.signals
  obtain ⟨hmem, hqueue, hpc⟩ := begun_spec s
  refine ⟨h.apart.congr hqueue, fun dev => ?_, fun dev => ?_, hsig.begin hidle⟩
  · exact (h.kept dev).congr hmem hqueue fun c hc => Or.inl (hpc c hc)
  · refine (h.rings dev).congr (by rw [hqueue]; exact .refl _) (by rw [hqueue]) (by rw [hqueue])
      (by rw [hmem]; exact Set.eqOn_refl _ _) rfl rfl rfl rfl ?_
    simp only [flight, hidle]
    rcases hcall : s.begun.call with _ | c
    · rfl
    · simp [hpc c hcall, inFlight]

/-! ### All steps -/

/-- **A step of a call** keeps the invariant. -/
theorem ServiceInv.advance (h : ServiceInv env sectors s) {c : QueueCall} (hc : s.Calls dev c) :
    ServiceInv env sectors (s.advance dev c (callNext env s dev c)) := by
  obtain ⟨queue, hsig⟩ := h.signals
  obtain ⟨hrings, hleave⟩ := hc.ringInv env (h.kept dev) h.apart (h.rings dev)
  have hpow : (s.queue dev).SizePow2 := (h.rings dev).avail.sizePow2
  refine ⟨h.apart.mono advance_sameSetup, ?_, fun dev' => ?_, queue, hsig.advance hc hleave⟩
  · exact hc.kept h.kept h.apart hpow
  · by_cases hdev : dev' = dev
    · rw [hdev]
      exact hrings
    · exact hc.ringInv_of_ne (h.kept dev) h.apart hdev (h.rings dev')

/-- **The service.** Each step keeps the invariant, the host's as long as it is disciplined. -/
theorem serviceInv_step (s : Service) (a : ServiceAction) (t : Service)
    (h : ServiceInv env sectors s) (ha : s.Disciplined env sectors a)
    (ht : serviceStep env sectors s a = some t) : ServiceInv env sectors t := by
  cases a with
  | fill m =>
    obtain rfl := Option.some.inj ht
    exact h.fill ha.1 ha.2
  | publish dev head =>
    obtain rfl := Option.some.inj ht
    exact h.publish ha.1 ha.2
  | consume dev =>
    obtain rfl := Option.some.inj ht
    exact h.consume
  | command c =>
    simp only [serviceStep] at ht
    split_ifs at ht with hidle
    obtain rfl := Option.some.inj ht
    exact h.command (Option.isNone_iff_eq_none.mp hidle) ha
  | process =>
    rcases hcall : s.call with _ | c
    · have hstep : serviceStep env sectors s .process = some s.begun := by
        simp only [serviceStep, hcall]
        rfl
      obtain rfl := Option.some.inj (hstep.symm.trans ht)
      exact h.begin hcall
    · obtain ⟨queue, hsig⟩ := h.signals
      obtain ⟨⟨dev, hc⟩, -⟩ := hsig.call c hcall
      have hstep := serviceStep_call env sectors hc.call hc.owner hc.queue
      obtain rfl := Option.some.inj (hstep.symm.trans ht)
      exact h.advance hc

/-! ### Main results -/

section Main

variable {as : List ServiceAction}

theorem Initial.inv_of_exec (h : s.Initial env sectors)
    (has : Along (serviceStep env sectors) (Disciplined env sectors) s as)
    (ht : exec (serviceStep env sectors) s as = some t) : ServiceInv env sectors t :=
  exec_invariant_of_along (fun s a t hs ha => serviceInv_step s a t hs ha) h.inv has ht

end Main

end Service

/-- **In order, and once.** However the steps of the drivers, of the interrupt handler and of the
firmware are interleaved, each driver has read, without loss or repetition, the first of the
entries pushed to its queue, and these are for the first of the heads it has published, in the
order in which it did. -/
theorem service_inOrder (env : Env) (sectors : Option U32) (s t : Service) (as : List ServiceAction)
    (h : s.Initial env sectors)
    (has : Along (serviceStep env sectors) (Service.Disciplined env sectors) s as)
    (ht : exec (serviceStep env sectors) s as = some t) (dev : Vdev) :
    (t.account dev).got <+: (t.account dev).done.map Service.entry ∧
      (t.account dev).done.map Prod.fst <+: (t.account dev).sent ∧
      (t.account dev).got.map Prod.fst <+: (t.account dev).sent.map (BitVec.setWidth 32) := by
  have hinv := (h.inv_of_exec has ht).rings dev
  have hgot : (t.account dev).got <+: (t.account dev).done.map Service.entry :=
    hinv.used.window.got_prefix
  have hdone : (t.account dev).done.map Prod.fst <+: (t.account dev).sent :=
    (List.prefix_append _ _).trans hinv.avail.window.got_prefix
  refine ⟨hgot, hdone, ?_⟩
  have hfst := (hgot.map Prod.fst).trans (?_ : _ <+: (t.account dev).sent.map (BitVec.setWidth 32))
  · exact hfst
  · rw [List.map_map]
    have hheads := hdone.map (BitVec.setWidth 32)
    rwa [List.map_map] at hheads

/-- The requests of both drivers come back in order. -/
theorem service_inOrder_boot :
    ∃ t, exec (serviceStep idleEnv (some 4096)) serviceBoot (serviceRun.take 34) = some t ∧
      (t.account .hwrngDevice).got.map Prod.fst <+: [0, 1] ∧
      (t.account .sdmcDevice).got.map Prod.fst <+: [0] := by
  obtain ⟨hsome, -, -, hsent⟩ := serviceAt_end
  have hrun := exec_serviceAt hsome
  have horder := service_inOrder idleEnv (some 4096) _ _ _ serviceBoot_initial
    (serviceAt_disciplined 34) hrun
  obtain ⟨-, -, -, hhwrng⟩ := hsent .hwrngDevice (by simp)
  obtain ⟨-, -, -, hsdmc⟩ := hsent .sdmcDevice (by simp)
  have hfirst := (horder .hwrngDevice).2.2
  have hsecond := (horder .sdmcDevice).2.2
  rw [hhwrng] at hfirst
  rw [hsdmc] at hsecond
  exact ⟨_, hrun, hfirst, hsecond⟩

/-- **At rest.** When the firmware has nothing to do, and the driver of a device has announced
its requests and found its used ring empty since the last interrupt, every request has come
back: nothing is ever stuck between them. -/
theorem service_atRest (env : Env) (sectors : Option U32) (s t : Service) (as : List ServiceAction)
    (h : s.Initial env sectors)
    (has : Along (serviceStep env sectors) (Service.Disciplined env sectors) s as)
    (ht : exec (serviceStep env sectors) s as = some t) (dev : Vdev) (hidle : t.call = none)
    (hlist : listEmpty t.fw.links .vqueuePendingList)
    (hbit : (t.fw.virq.pendingVirq 0 0).getLsbD dev.index = false)
    (hann : (t.account dev).announced) (hdrained : (t.account dev).draining = false) :
    (t.account dev).got = (t.account dev).done.map Service.entry ∧
      (t.account dev).done.map Prod.fst = (t.account dev).sent := by
  have hinv := h.inv_of_exec has ht
  obtain ⟨queue, hsig⟩ := hinv.signals
  obtain rfl : queue = [] := (listEmpty_iff hsig.represents).mp hlist
  have hfetched : t.fetched dev = (t.account dev).sent := by
    rcases hsig.announced dev hann with hall | hmem | ⟨c, hc, -⟩
    · exact hall
    · cases hmem
    · rw [hidle] at hc
      cases hc
  have hgot : ¬ (t.account dev).got.length < (t.account dev).done.length := by
    intro hlt
    rcases hsig.told dev hlt with hpending | hdraining | ⟨c, hc, -⟩
    · rw [hbit] at hpending
      cases hpending
    · rw [hdrained] at hdraining
      cases hdraining
    · rw [hidle] at hc
      cases hc
  constructor
  · refine (hinv.rings dev).used.window.got_prefix.eq_of_length ?_
    have hle := (hinv.rings dev).used.window.length_le
    simp only [Service.usedSys, List.length_map] at hle ⊢
    omega
  · rw [← hfetched, Service.fetched, Service.flight, hidle, List.append_nil]

/-- All requests of both drivers have come back. -/
theorem service_atRest_boot :
    ∃ t, exec (serviceStep idleEnv (some 4096)) serviceBoot (serviceRun.take 34) = some t ∧
      (t.account .hwrngDevice).done.map Prod.fst = [0, 1] ∧
      (t.account .sdmcDevice).done.map Prod.fst = [0] := by
  obtain ⟨hsome, hidle, hlist, hdev⟩ := serviceAt_end
  have hrun := exec_serviceAt hsome
  have hrest := service_atRest idleEnv (some 4096) _ _ _ serviceBoot_initial
    (serviceAt_disciplined 34) hrun
  obtain ⟨hbit, hann, hdrained, hsent⟩ := hdev .hwrngDevice (by simp)
  obtain ⟨hbit', hann', hdrained', hsent'⟩ := hdev .sdmcDevice (by simp)
  have hidle := Option.isNone_iff_eq_none.mp hidle
  have hall := (hrest .hwrngDevice hidle hlist hbit hann hdrained).2
  have hall' := (hrest .sdmcDevice hidle hlist hbit' hann' hdrained').2
  exact ⟨_, hrun, hall.trans hsent, hall'.trans hsent'⟩

end Arm9LinuxFw
