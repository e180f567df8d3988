import Arm9LinuxFw.Manager.Pending

/-!
# The main loop and its sleep

The main loop of `arm9linuxfwEntry`, one atomic step at a time, with the receive interrupt:

    while(1) {
      DBG_ASSERT(!armInCritical());
      if (!virtManagerProcessPending()) armWaitForInterrupt();
    }

The interrupt may be taken between any two steps at which it is not masked; its handler
executes the commands that have arrived. The loop is a schedule of the pending queue system
(`machineStep_refines`), so what holds of every run there holds here (`machine_faithful`).

The loop must not sleep while a queue is listed. It does when the interrupt is taken after the
critical section has found the list empty and before the sleep: the answer the loop branches
on is old by then. `sleepsIdle_iff` says that this is the only way.
-/

namespace Arm9LinuxFw

open CircularList Transition History

variable {ω : Type*} (T : DevTable ω)

/-! ### The machine -/

/-- Where the main loop stands. -/
inductive MainPc
  /-- at `DBG_ASSERT(!armInCritical())` -/
  | check
  /-- at `armEnterCritical` -/
  | enter
  /-- in the critical section -/
  | process
  /-- at `armLeaveCritical` -/
  | leave
  /-- `virtManagerProcessPending` has returned `ret` -/
  | branch (ret : Bool)
  /-- at `armWaitForInterrupt` -/
  | wait
  /-- asleep in it -/
  | asleep
  /-- the assertion has failed -/
  | trap
  deriving DecidableEq

/-- The main loop, the interrupt line, and the firmware. -/
structure Machine (ω : Type*) where
  pc : MainPc
  irqPending : Bool
  pend : Pend ω

/-- The main loop takes a step, an interrupt becomes pending, or it is taken and its handler
executes commands. -/
inductive MachineAction
  | main
  | raise
  | irq (cmds : List PxiCmd)
  deriving DecidableEq

/-- What the call in progress will return. -/
def PendCall.ret : PendCall → Bool
  | .processed _ ret => ret
  | _ => true

/-- The next step of the main loop. -/
def mainStep (s : Machine ω) : Option (Machine ω) :=
  match s.pc with
  | .check => some { s with pc := if s.pend.masked then .trap else .enter }
  | .enter => (pendStep T s.pend .enter).map fun p => { s with pc := .process, pend := p }
  | .process => (pendStep T s.pend .process).map fun p => { s with pc := .leave, pend := p }
  | .leave => (pendStep T s.pend .leave).map fun p =>
      { s with pc := .branch s.pend.call.ret, pend := p }
  | .branch ret => some { s with pc := if ret then .check else .wait }
  -- the processor does not sleep while an interrupt is pending
  | .wait => some { s with pc := if s.irqPending then .check else .asleep }
  | .asleep => if s.irqPending then some { s with pc := .check } else none
  | .trap => none

/-- Where the main loop goes on after an interrupt, which ends the sleep. -/
def MainPc.afterIrq : MainPc → MainPc
  | .asleep => .check
  | pc => pc

/-- One step of the machine. -/
def machineStep (s : Machine ω) : MachineAction → Option (Machine ω)
  | .main => mainStep T s
  | .raise => some { s with irqPending := true }
  -- a taken interrupt runs its handler to the end
  | .irq cmds =>
      if s.irqPending ∧ s.pend.masked = false then
        (exec (pendStep T) s.pend (cmds.map .command)).map fun p =>
          { pc := s.pc.afterIrq, irqPending := false, pend := p }
      else none

/-- The main loop is entered. -/
def machineBoot (w : Fw ω) : Machine ω where
  pc := .check
  irqPending := false
  pend := pendBoot T w

/-- Asleep with no interrupt pending, the machine has no work. -/
def SleepsIdle (s : Machine ω) : Prop :=
  s.pc = .asleep → s.irqPending = false → listEmpty s.pend.fw.links .vqueuePendingList = true

/-- The interrupt is not taken between a critical section that found the list empty and the
sleep, or its handler notifies no queue then. -/
def Undisturbed (s : Machine ω) : MachineAction → Prop
  | .irq cmds => (s.pc = .branch false ∨ s.pc = .wait) → s.irqPending = true →
      ∀ c ∈ cmds, c.notifies T = none
  | .main | .raise => True

/-! ### Refinement -/

/-- The machine is a schedule of the pending queue system. -/
theorem machineStep_refines {s t : Machine ω} {a : MachineAction}
    (hstep : machineStep T s a = some t) : Reachable (pendStep T) s.pend t.pend := by
  have hone {b : PendAction} {p : Pend ω} (h : pendStep T s.pend b = some p) :
      Reachable (pendStep T) s.pend p := (Reachable.refl _).tail h
  cases a with
  | main =>
    simp only [machineStep, mainStep] at hstep
    cases hpc : s.pc
    all_goals rw [hpc] at hstep
    case enter | process | leave =>
      obtain ⟨p, hp, rfl⟩ := Option.map_eq_some_iff.mp hstep
      exact hone hp
    case asleep =>
      obtain ⟨-, heq⟩ := Option.ite_none_right_eq_some.mp hstep
      obtain rfl := Option.some.inj heq
      exact .refl _
    case trap => cases hstep
    all_goals
      obtain rfl := Option.some.inj hstep
      exact .refl _
  | raise =>
    obtain rfl := Option.some.inj hstep
    exact .refl _
  | irq cmds =>
    obtain ⟨-, hirq⟩ := Option.ite_none_right_eq_some.mp hstep
    obtain ⟨p, hp, rfl⟩ := Option.map_eq_some_iff.mp hirq
    exact ⟨_, hp⟩

/-! ### The handler -/

/-- The handler executes all its commands. -/
theorem exec_commands {s : Pend ω} (hmask : s.masked = false) (cmds : List PxiCmd) :
    exec (pendStep T) s (cmds.map .command) = some (cmds.foldl (Pend.command T) s) := by
  induction cmds generalizing s with
  | nil => rfl
  | cons c cmds ih =>
    have hone : pendStep T s (.command c) = some (s.command T c) := by
      simp [pendStep, hmask]
    have hnext : (s.command T c).masked = false := hmask
    rw [List.map_cons, exec, hone, Option.bind_some, ih hnext, List.foldl_cons]

/-- An interrupt is taken if it is pending and not masked, and runs the commands. -/
private theorem machineStep_irq {s t : Machine ω} {cmds : List PxiCmd}
    (hstep : machineStep T s (.irq cmds) = some t) :
    s.irqPending = true ∧ s.pend.masked = false ∧
      t = ⟨s.pc.afterIrq, false, cmds.foldl (Pend.command T) s.pend⟩ := by
  simp only [machineStep] at hstep
  split_ifs at hstep with hirq
  rw [exec_commands T hirq.2] at hstep
  exact ⟨hirq.1, hirq.2, (Option.some.inj hstep).symm⟩

/-- Commands do not touch the call of `virtManagerProcessPending` that they interrupt. -/
private theorem foldl_command_call (cmds : List PxiCmd) (s : Pend ω) :
    (cmds.foldl (Pend.command T) s).call = s.call := by
  induction cmds generalizing s with
  | nil => rfl
  | cons c cmds ih => exact ih (s.command T c)

/-- A handler that notifies no queue leaves the list alone. -/
private theorem foldl_command_links {cmds : List PxiCmd} (h : ∀ c ∈ cmds, c.notifies T = none)
    (s : Pend ω) : (cmds.foldl (Pend.command T) s).fw.links = s.fw.links := by
  induction cmds generalizing s with
  | nil => rfl
  | cons c cmds ih =>
    have hc : (s.command T c).fw.links = s.fw.links := by
      change (c.access T.traced s.fw).links = _
      rw [c.access_links, c.notifies_traced, h c (List.mem_cons_self ..)]
    rw [List.foldl_cons, ih fun c' hc' => h c' (List.mem_cons_of_mem c hc'), hc]

/-- The calls made since a queue was notified are not made by the handler. -/
private theorem foldl_command_since {cmds : List PxiCmd} {d q : ℕ} (s : Pend ω)
    (h : (∃ c ∈ cmds, c.notifies T = some (d, q)) ∨
      Since (· = .notified d q) (CalledWith d q) s.history) :
    Since (· = .notified d q) (CalledWith d q) (cmds.foldl (Pend.command T) s).history := by
  induction cmds generalizing s with
  | nil =>
    rcases h with ⟨c, hc, -⟩ | h
    · exact absurd hc List.not_mem_nil
    · exact h
  | cons c cmds ih =>
    rw [List.foldl_cons]
    refine ih (s.command T c) ?_
    rw [Pend.command_history]
    rcases hc : c.notifies T with _ | ⟨d', q'⟩
    · simp only [Option.toList_none, List.map_nil, List.append_nil]
      refine h.imp_left ?_
      rintro ⟨c', hc', hnotif⟩
      rcases List.mem_cons.mp hc' with rfl | hc'
      · rw [hc] at hnotif
        cases hnotif
      · exact ⟨c', hc', hnotif⟩
    · simp only [Option.toList_some, List.map_cons, List.map_nil]
      have hnot : ¬ CalledWith d q (.notified d' q') := by simp [CalledWith]
      rw [since_append_singleton, and_iff_right hnot]
      rcases h with ⟨c', hc', hnotif⟩ | h
      · rcases List.mem_cons.mp hc' with rfl | hc'
        · rw [hc] at hnotif
          obtain ⟨rfl, rfl⟩ := Prod.mk.inj (Option.some.inj hnotif)
          exact Or.inr (Or.inl rfl)
        · exact Or.inl ⟨c', hc', hnotif⟩
      · exact Or.inr (Or.inr h)

/-! ### The invariant of all runs -/

/-- The call in progress, as far as the place in the main loop tells it. -/
def MainPc.CallAt : MainPc → PendCall → Prop
  | .process, call => ∃ critSection, call = .entered critSection
  | .leave, call => ∃ critSection ret, call = .processed critSection ret
  | _, call => call = .idle

/-- What holds of every state of the machine. In particular the assertion never fails. -/
structure MachineInv (s : Machine ω) : Prop where
  pend : ∃ queue, PendInv T s.pend queue
  call : s.pc.CallAt s.pend.call
  noTrap : s.pc ≠ .trap

private theorem machineInv_boot (w : Fw ω) : MachineInv T (machineBoot T w) where
  pend := ⟨[], pendInv_boot T w⟩
  call := rfl
  noTrap := by simp [machineBoot]

variable {T}

section Steps

variable {s t : Machine ω}

/-- Interrupts are masked in the critical section only. -/
private theorem MachineInv.masked_iff (h : MachineInv T s) :
    s.pend.masked = false ↔ s.pend.call = .idle := by
  obtain ⟨queue, hpend⟩ := h.pend
  exact hpend.unmasked

/-- The pending list is as sound after the step as before. -/
private theorem MachineInv.pend_step (h : MachineInv T s) {a : MachineAction}
    (hstep : machineStep T s a = some t) : ∃ queue, PendInv T t.pend queue := by
  have hkeep : ∀ p b p', (∃ queue, PendInv T p queue) → pendStep T p b = some p' →
      ∃ queue, PendInv T p' queue := by
    rintro p b p' ⟨queue, hp⟩ hb
    exact hp.step hb
  exact Reachable.invariant hkeep h.pend (machineStep_refines T hstep)

/-- What the pending list owes the host, it owes under every schedule of the main loop. -/
theorem machine_faithful {w : Fw ω} {as : List MachineAction}
    (hrun : exec (machineStep T) (machineBoot T w) as = some s) : PendFaithful T s.pend := by
  have hstep : ∀ s a t, machineStep T s a = some t → Reachable (pendStep T) s.pend t.pend :=
    fun s a t ht => machineStep_refines T ht
  obtain ⟨bs, hbs⟩ : Reachable (pendStep T) (pendBoot T w) s.pend := exec_refines hstep hrun
  obtain ⟨queue, h⟩ := exists_pendInv hbs
  exact h.faithful

/-- The assertion of the loop is never reached in a critical section. -/
theorem MachineInv.main (h : MachineInv T s) (hstep : mainStep T s = some t) :
    t.pc.CallAt t.pend.call ∧ t.pc ≠ .trap := by
  have hcall := h.call
  simp only [mainStep] at hstep
  cases hpc : s.pc
  all_goals rw [hpc] at hcall hstep
  case check =>
    -- the assertion holds, for interrupts are masked in the critical section only
    have hmask : s.pend.masked = false := h.masked_iff.mpr hcall
    obtain rfl := Option.some.inj hstep
    simp only [hmask, Bool.false_eq_true, if_false]
    exact ⟨hcall, by simp⟩
  case enter =>
    obtain ⟨p, hp, rfl⟩ := Option.map_eq_some_iff.mp hstep
    obtain ⟨-, heq⟩ := Option.ite_none_right_eq_some.mp hp
    obtain rfl := Option.some.inj heq
    exact ⟨⟨_, rfl⟩, by simp⟩
  case process =>
    obtain ⟨critSection, hcall⟩ := hcall
    obtain ⟨p, hp, rfl⟩ := Option.map_eq_some_iff.mp hstep
    simp only [pendStep, hcall] at hp
    obtain rfl := Option.some.inj hp
    exact ⟨⟨_, _, rfl⟩, by simp⟩
  case leave =>
    obtain ⟨critSection, ret, hcall⟩ := hcall
    obtain ⟨p, hp, rfl⟩ := Option.map_eq_some_iff.mp hstep
    simp only [pendStep, hcall] at hp
    obtain rfl := Option.some.inj hp
    exact ⟨rfl, by simp⟩
  case branch ret =>
    obtain rfl := Option.some.inj hstep
    cases ret with
    | false => exact ⟨hcall, by simp⟩
    | true => exact ⟨hcall, by simp⟩
  case wait =>
    obtain rfl := Option.some.inj hstep
    split_ifs
    · exact ⟨hcall, by simp⟩
    · exact ⟨hcall, by simp⟩
  case asleep =>
    obtain ⟨-, heq⟩ := Option.ite_none_right_eq_some.mp hstep
    obtain rfl := Option.some.inj heq
    exact ⟨hcall, by simp⟩
  case trap => cases hstep

/-- The interrupt is taken outside the critical section, and the main loop stays outside. -/
theorem MachineInv.irq (h : MachineInv T s) (hidle : s.pend.call = .idle) :
    s.pc ≠ .process ∧ s.pc ≠ .leave ∧ s.pc.afterIrq.CallAt .idle ∧ s.pc.afterIrq ≠ .trap := by
  have hcall := h.call
  have htrap := h.noTrap
  rw [hidle] at hcall
  cases hpc : s.pc
  all_goals rw [hpc] at hcall htrap
  case process =>
    obtain ⟨critSection, hcall⟩ := hcall
    cases hcall
  case leave =>
    obtain ⟨critSection, ret, hcall⟩ := hcall
    cases hcall
  case trap => exact absurd rfl htrap
  all_goals exact ⟨by simp, by simp, rfl, by simp [MainPc.afterIrq]⟩

theorem MachineInv.step (h : MachineInv T s) {a : MachineAction}
    (hstep : machineStep T s a = some t) : MachineInv T t := by
  have hpend := h.pend_step hstep
  cases a with
  | main =>
    obtain ⟨hcall, htrap⟩ := h.main hstep
    exact ⟨hpend, hcall, htrap⟩
  | raise =>
    obtain rfl := Option.some.inj hstep
    exact ⟨hpend, h.call, h.noTrap⟩
  | irq cmds =>
    obtain ⟨-, hmask, rfl⟩ := machineStep_irq T hstep
    have hidle := h.masked_iff.mp hmask
    obtain ⟨-, -, hcall, htrap⟩ := h.irq hidle
    refine ⟨hpend, ?_, htrap⟩
    rw [foldl_command_call, hidle]
    exact hcall

/-! ### Undisturbed runs -/

/-- The critical section found the list empty, and the loop is on its way to sleep. -/
def FoundEmpty (s : Machine ω) : Prop :=
  (s.pc = .leave ∧ s.pend.call.ret = false) ∨ s.pc = .branch false ∨ s.pc = .wait ∨
    s.pc = .asleep

/-- What was found is still true. -/
def StillEmpty (s : Machine ω) : Prop :=
  FoundEmpty s → listEmpty s.pend.fw.links .vqueuePendingList = true

private theorem StillEmpty.sleepsIdle (h : StillEmpty s) : SleepsIdle s :=
  fun hpc _ => h (Or.inr (Or.inr (Or.inr hpc)))

/-- The answer `false` means that the list was empty and nothing was done. -/
private theorem virtManagerProcessPending_false {w : Fw ω}
    (h : (virtManagerProcessPending T w).1 = false) :
    listEmpty w.links .vqueuePendingList = true ∧ (virtManagerProcessPending T w).2 = w := by
  simp only [virtManagerProcessPending] at h ⊢
  split_ifs at h ⊢ with hempty
  · exact ⟨hempty, rfl⟩
  · split at h <;> cases h

/-- The main loop only sets out to sleep when the list is empty. -/
theorem StillEmpty.main (h : StillEmpty s) (hinv : MachineInv T s)
    (hstep : mainStep T s = some t) : StillEmpty t := by
  intro hfound
  have hcall := hinv.call
  simp only [mainStep] at hstep
  cases hpc : s.pc
  all_goals rw [hpc] at hcall hstep
  case check =>
    obtain rfl := Option.some.inj hstep
    rw [hinv.masked_iff.mpr hcall] at hfound
    simp [FoundEmpty] at hfound
  case enter =>
    obtain ⟨p, hp, rfl⟩ := Option.map_eq_some_iff.mp hstep
    simp [FoundEmpty] at hfound
  case process =>
    obtain ⟨critSection, hcall⟩ := hcall
    obtain ⟨p, hp, rfl⟩ := Option.map_eq_some_iff.mp hstep
    simp only [pendStep, hcall] at hp
    obtain rfl := Option.some.inj hp
    have hret : (virtManagerProcessPending T.traced s.pend.fw).1 = false := by
      simpa [FoundEmpty, PendCall.ret] using hfound
    obtain ⟨hempty, hsame⟩ := virtManagerProcessPending_false hret
    simpa only [hsame] using hempty
  case leave =>
    obtain ⟨critSection, ret, hcall⟩ := hcall
    obtain ⟨p, hp, rfl⟩ := Option.map_eq_some_iff.mp hstep
    have hret : s.pend.call.ret = false := by simpa [FoundEmpty] using hfound
    simp only [pendStep, hcall] at hp
    obtain rfl := Option.some.inj hp
    exact h (Or.inl ⟨hpc, hret⟩)
  case branch ret =>
    obtain rfl := Option.some.inj hstep
    cases ret with
    | false => exact h (Or.inr (Or.inl hpc))
    | true => simp [FoundEmpty] at hfound
  case wait =>
    obtain rfl := Option.some.inj hstep
    exact h (Or.inr (Or.inr (Or.inl hpc)))
  case asleep =>
    obtain ⟨-, heq⟩ := Option.ite_none_right_eq_some.mp hstep
    obtain rfl := Option.some.inj heq
    simp [FoundEmpty] at hfound
  case trap => cases hstep

/-- **A step that is no interrupt in the gap** keeps what the loop found true. -/
theorem StillEmpty.step (h : StillEmpty s) (hinv : MachineInv T s) {a : MachineAction}
    (hquiet : Undisturbed T s a) (hstep : machineStep T s a = some t) : StillEmpty t := by
  cases a with
  | main => exact h.main hinv hstep
  | raise =>
    obtain rfl := Option.some.inj hstep
    exact h
  | irq cmds =>
    obtain ⟨hirq, hmask, rfl⟩ := machineStep_irq T hstep
    obtain ⟨-, hleave, -⟩ := hinv.irq (hinv.masked_iff.mp hmask)
    intro hfound
    cases hpc : s.pc
    all_goals rw [hpc] at hfound hleave
    case leave => exact absurd rfl hleave
    case branch ret =>
      obtain rfl : ret = false := by simpa [FoundEmpty, MainPc.afterIrq] using hfound
      rw [foldl_command_links T (hquiet (Or.inl hpc) hirq)]
      exact h (Or.inr (Or.inl hpc))
    case wait =>
      rw [foldl_command_links T (hquiet (Or.inr hpc) hirq)]
      exact h (Or.inr (Or.inr (Or.inl hpc)))
    -- elsewhere the loop is not on its way to sleep, or the interrupt has ended the sleep
    all_goals simp [FoundEmpty, MainPc.afterIrq] at hfound

/-! ### Disturbed runs -/

/-- An interrupt that notifies a queue on the way to sleep: the loop, left alone, sleeps. -/
private theorem exists_sleep_of_disturbed (hinv : MachineInv T s) {cmds : List PxiCmd}
    (hquiet : ¬ Undisturbed T s (.irq cmds)) :
    ∃ k t, exec (machineStep T) s (.irq cmds :: List.replicate k .main) = some t ∧
      ¬ SleepsIdle t := by
  simp only [Undisturbed, not_forall] at hquiet
  obtain ⟨hpc, hirq, c, hc, hnotif⟩ := hquiet
  obtain ⟨⟨d, q⟩, hdq⟩ := Option.ne_none_iff_exists'.mp hnotif
  have hidle : s.pend.call = .idle := by
    have hcall := hinv.call
    rcases hpc with hpc | hpc <;> rwa [hpc] at hcall
  have hmask := hinv.masked_iff.mpr hidle
  have hirqStep : machineStep T s (.irq cmds) =
      some ⟨s.pc.afterIrq, false, cmds.foldl (Pend.command T) s.pend⟩ := by
    simp only [machineStep, hirq, hmask, and_self, if_true, exec_commands T hmask, Option.map_some]
  have hlisted : listEmpty (cmds.foldl (Pend.command T) s.pend).fw.links
      .vqueuePendingList ≠ true := by
    obtain ⟨queue, hpend⟩ := hinv.pend_step hirqStep
    have hmem : ListNode.vq d q ∈ queue := (hpend.pending d q).mpr
      (foldl_command_since T s.pend (Or.inl ⟨c, hc, hdq⟩))
    rw [Ne, listEmpty_iff hpend.represents]
    exact List.ne_nil_of_mem hmem
  rcases hpc with hpc | hpc
  · refine ⟨2, ⟨.asleep, false, cmds.foldl (Pend.command T) s.pend⟩, ?_, ?_⟩
    · rw [exec, hirqStep, hpc]
      rfl
    · exact fun h => hlisted (h rfl rfl)
  · refine ⟨1, ⟨.asleep, false, cmds.foldl (Pend.command T) s.pend⟩, ?_, ?_⟩
    · rw [exec, hirqStep, hpc]
      rfl
    · exact fun h => hlisted (h rfl rfl)

end Steps

/-! ### The contract -/

/-- **Sleeping with work.** In every state of a run, and in every state the main loop goes on to
from there if left alone, the machine sleeps with an empty list only, if and only if no
interrupt of the run notified a queue on the loop's way to sleep. -/
theorem sleepsIdle_iff (T : DevTable ω) (w : Fw ω) (as : List MachineAction) :
    Along (machineStep T) (Undisturbed T) (machineBoot T w) as ↔
      ∀ pre, pre <+: as → ∀ k t,
        exec (machineStep T) (machineBoot T w) (pre ++ List.replicate k .main) = some t →
          SleepsIdle t := by
  constructor
  · intro h pre hpre k t hrun
    have hquiet : Along (machineStep T) (Undisturbed T) (machineBoot T w)
        (pre ++ List.replicate k .main) := by
      refine (h.of_prefix hpre).append fun b hb s => ?_
      rw [List.eq_of_mem_replicate hb]
      exact trivial
    have hkeep : ∀ s a t, MachineInv T s ∧ StillEmpty s → Undisturbed T s a →
        machineStep T s a = some t → MachineInv T t ∧ StillEmpty t :=
      fun s a t ⟨hinv, hempty⟩ ha hstep => ⟨hinv.step hstep, hempty.step hinv ha hstep⟩
    have hboot : MachineInv T (machineBoot T w) ∧ StillEmpty (machineBoot T w) :=
      ⟨machineInv_boot T w, fun hfound => by simp [FoundEmpty, machineBoot] at hfound⟩
    exact (exec_invariant_of_along hkeep hboot hquiet hrun).2.sleepsIdle
  · intro h
    rw [along_iff]
    intro pre a post s has hrun
    have hinv : MachineInv T s :=
      exec_invariant (fun _ _ _ hs hstep => hs.step hstep) (machineInv_boot T w) hrun
    cases a with
    | main => exact trivial
    | raise => exact trivial
    | irq cmds =>
      by_contra hquiet
      obtain ⟨k, t, hsleep, hbad⟩ := exists_sleep_of_disturbed hinv hquiet
      refine hbad (h (pre ++ [.irq cmds]) ⟨post, by rw [has]; simp⟩ k t ?_)
      rw [List.append_assoc, List.singleton_append]
      exact exec_append.mpr ⟨s, hrun, hsleep⟩

/-- The interrupt comes when the list was found empty and the loop is about to branch; the
block device is notified, and the loop goes to sleep on it. -/
theorem sleepsIdle_lostWakeup :
    ∃ s, exec (machineStep (deviceTable zeroEnv (some 0) 2))
        (machineBoot (deviceTable zeroEnv (some 0) 2) powerOn)
        [.main, .main, .main, .main, .raise, .irq [.writeReg 1 0x602 0], .main, .main] = some s ∧
      s.pc = .asleep ∧ s.irqPending = false ∧
      listEmpty s.pend.fw.links .vqueuePendingList = false := by
  have hasleep : (exec (machineStep (deviceTable zeroEnv (some 0) 2))
      (machineBoot (deviceTable zeroEnv (some 0) 2) powerOn)
      [.main, .main, .main, .main, .raise, .irq [.writeReg 1 0x602 0], .main, .main]).map
        (fun s => (s.pc, s.irqPending, listEmpty s.pend.fw.links .vqueuePendingList)) =
      some (.asleep, false, false) := by
    decide
  obtain ⟨s, hrun, hs⟩ := Option.map_eq_some_iff.mp hasleep
  obtain ⟨hpc, hrest⟩ := Prod.mk.inj hs
  obtain ⟨hirq, hempty⟩ := Prod.mk.inj hrest
  exact ⟨s, hrun, hpc, hirq, hempty⟩

end Arm9LinuxFw
