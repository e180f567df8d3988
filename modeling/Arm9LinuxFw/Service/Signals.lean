import Arm9LinuxFw.Manager.Interrupts
import Arm9LinuxFw.Service.Rings

/-!
# Who is waiting for whom

A request does not get stuck as long as somebody has been told of it.

* On the way to the firmware: heads that are published and announced are fetched, or their queue is
  on the pending list, or a call is in its loop and will look at the ring again.
* On the way back: entries that are pushed are read, or the bit of the device is pending and the
  host has been triggered, or its driver is draining the ring, or a call is yet to notify.

`SignalInv` says so of a state, `queue` being the pending list. It is kept by the commands of a
driver, which notify or acknowledge (`SignalInv.command`), by the manager that takes a queue off the
list (`SignalInv.begin`), and by the steps of a call (`SignalInv.advance`): a call leaves its
loop only with the ring found empty, and notifies the host after its last push. The order of these
two, and that a queue is taken off the list before it is processed, are what the proof rests on.

`PxiCmd.Operates` are the commands that do not set a queue up; only those are allowed once the
service runs.
-/

namespace Arm9LinuxFw

open ByteMem Transition CircularList

/-! ### Commands -/

/-- A queue is its registers, its number and its private word. -/
private theorem VirtQueue.ext_value {vq vq' : VirtQueue}
    (h : ∀ f : QueueField, f.value vq = f.value vq') : vq = vq' := by
  have hcut {w : ℕ} (hw : w ≤ 32) {x y : BitVec w} (hxy : x.setWidth 32 = y.setWidth 32) :
      x = y := by
    have hback := congrArg (BitVec.setWidth w) hxy
    rwa [BitVec.setWidth_setWidth_of_le _ hw, BitVec.setWidth_setWidth_of_le _ hw,
      BitVec.setWidth_eq, BitVec.setWidth_eq] at hback
  obtain ⟨owner, id, ready, sizeMask, availIdx, usedIdx, qDesc, qAvail, qUsed, priv⟩ := vq
  obtain ⟨owner', id', ready', sizeMask', availIdx', usedIdx', qDesc', qAvail', qUsed', priv'⟩ :=
    vq'
  rw [VirtQueue.mk.injEq]
  exact ⟨hcut (by decide) (h .owner), hcut (by decide) (h .id), hcut (by decide) (h .ready),
    hcut (by decide) (h .sizeMask), hcut (by decide) (h .availIdx), hcut (by decide) (h .usedIdx),
    h .qDesc, h .qAvail, h .qUsed, h .priv⟩

/-- The command does not set up a queue. -/
def PxiCmd.Operates (T : DevTable World) : PxiCmd → Prop
  | .readReg _ _ => True
  | .writeReg dev reg _ => ∀ d q f, regTarget T dev reg ≠ some (.cell (.queue d q f))

section Commands

variable {env : Env} {sectors : Option U32} {w : Fw World}

/-- Such a command leaves the queues, memory and the identifiers alone. -/
theorem PxiCmd.Operates.keeps {c : PxiCmd} (h : c.Operates (deviceTable env sectors 0))
    (hrep : ∃ queue, Represents (pendingNodes (deviceTable env sectors 0)) w.links
      .vqueuePendingList queue) :
    (c.access (deviceTable env sectors 0) w).vqs = w.vqs ∧
      (c.access (deviceTable env sectors 0) w).ext = w.ext ∧
      ∀ d, ((c.access (deviceTable env sectors 0) w).devs d).id = (w.devs d).id := by
  have hT := deviceTable_readOnlyCfg env sectors 0
  cases c with
  | readReg dev reg =>
    have hiso : ReadIsolated (deviceTable env sectors 0) w dev reg := readIsolated w hT
    by_cases hbank : ∃ m b, ReadsBank m b reg
    · obtain ⟨m, b, hb⟩ := hbank
      rw [access, hiso.bank m b hb]
      exact ⟨rfl, rfl, fun _ => rfl⟩
    · rw [access, hiso.other fun m b hb => hbank ⟨m, b, hb⟩]
      exact ⟨rfl, rfl, fun _ => rfl⟩
  | writeReg dev reg val =>
    have hiso : WriteIsolated (deviceTable env sectors 0) w dev reg val :=
      writeIsolated w val hT hrep
    refine ⟨?_, hiso.ext, fun d => ?_⟩
    · refine funext fun d => funext fun q => VirtQueue.ext_value fun f => ?_
      exact hiso.fields (.queue d q f) (h d q f)
    · refine hiso.fields (.dev d .id) fun htarget => ?_
      rcases regTarget_cell htarget with ⟨f, hc, -, -, hf⟩ | ⟨f, hc, -⟩
      · obtain ⟨-, rfl⟩ := RegCell.dev.inj hc
        unfold DevField.written at hf
        split at hf <;> cases hf
      · cases hc

/-- A bit that a command takes away was read by it. -/
private theorem PxiCmd.access_bit (c : PxiCmd) (hrep : ∃ queue,
      Represents (pendingNodes (deviceTable env sectors 0)) w.links .vqueuePendingList queue)
    {dev : Vdev} (hbit : (w.virq.pendingVirq 0 0).getLsbD dev.index) :
    ((c.access (deviceTable env sectors 0) w).virq.pendingVirq 0 0).getLsbD dev.index ∨
      c.tells w dev := by
  have hT := deviceTable_readOnlyCfg env sectors 0
  cases c with
  | writeReg dev' reg val =>
    left
    rw [access, (writeIsolated w val hT hrep).virq]
    exact hbit
  | readReg dev' reg =>
    have hiso : ReadIsolated (deviceTable env sectors 0) w dev' reg := readIsolated w hT
    by_cases hbank : ∃ m b, ReadsBank m b reg
    · obtain ⟨m, b, hb⟩ := hbank
      by_cases hfirst : m = 0 ∧ b = 0
      · right
        obtain ⟨rfl, rfl⟩ := hfirst
        simp only [tells, hbit, and_true, decide_eq_true_eq]
        exact hb
      · left
        rw [access, hiso.bank m b hb]
        simp only [update_bank_apply]
        rw [if_neg fun h => hfirst ⟨h.1.symm, h.2.symm⟩]
        exact hbit
    · left
      rw [access, hiso.other fun m b hb => hbank ⟨m, b, hb⟩]
      exact hbit

end Commands

/-! ### The invariant -/

namespace Service

/-- A call is in the loop over the available ring of the queue. -/
def AtLoop (s : Service) (dev : Vdev) : Prop :=
  ∃ c, s.call = some c ∧ c.queue = (dev.index, 0) ∧ c.pc ≠ .notify

structure SignalInv (env : Env) (sectors : Option U32) (s : Service) (queue : List ListNode) :
    Prop where
  represents : Represents (pendingNodes (deviceTable env sectors 0)) s.fw.links
    .vqueuePendingList queue
  owner : ∀ dev, virtQueueOwner (s.queue dev) = dev.index
  id : ∀ dev : Vdev, (s.fw.devs dev.index).id = BitVec.ofNat 32 dev.index
  call : ∀ c, s.call = some c → (∃ dev, s.Calls dev c) ∧ c.pc ≠ .done
  announced : ∀ dev, (s.account dev).announced →
    s.fetched dev = (s.account dev).sent ∨ .vq dev.index 0 ∈ queue ∨ s.AtLoop dev
  told : ∀ dev, (s.account dev).got.length < (s.account dev).done.length →
    (s.fw.virq.pendingVirq 0 0).getLsbD dev.index ∨ (s.account dev).draining ∨
      ∃ c, s.call = some c ∧ c.queue = (dev.index, 0)

variable {env : Env} {sectors : Option U32} {s : Service} {dev : Vdev} {c : QueueCall}
  {queue : List ListNode}

/-- The table has the two queues. -/
private theorem hasQueue_cases {d q : ℕ} (h : (deviceTable env sectors 0).HasQueue d q) :
    ∃ dev : Vdev, d = dev.index ∧ q = 0 := by
  obtain ⟨dev, rfl⟩ : ∃ dev : Vdev, d = dev.index := by
    have hd : d < 2 := h.1
    rcases Nat.lt_succ_iff_lt_or_eq.mp hd with hlt | rfl
    · exact ⟨.hwrngDevice, Nat.lt_one_iff.mp hlt⟩
    · exact ⟨.sdmcDevice, rfl⟩
  exact ⟨dev, rfl, (hasQueue_index env sectors 0 dev).mp h⟩

/-! ### Commands -/

/-- A command leaves on the pending list what is there, and adds the queue that it notifies. -/
private theorem SignalInv.exists_queue (h : SignalInv env sectors s queue) (c : PxiCmd) :
    ∃ queue', Represents (pendingNodes (deviceTable env sectors 0))
        (c.access (deviceTable env sectors 0) s.fw).links .vqueuePendingList queue' ∧
      queue ⊆ queue' ∧
      ∀ d q, c.notifies (deviceTable env sectors 0) = some (d, q) → .vq d q ∈ queue' := by
  have hlinks := c.access_links (deviceTable env sectors 0) s.fw
  rcases hnotify : c.notifies (deviceTable env sectors 0) with _ | ⟨d, q⟩ <;> rw [hnotify] at hlinks
  · exact ⟨queue, hlinks ▸ h.represents, List.Subset.refl _, fun _ _ heq => nomatch heq⟩
  · have hq : (deviceTable env sectors 0).HasQueue d q := PxiCmd.hasQueue_of_notifies _ hnotify
    refine ⟨if .vq d q ∈ queue then queue else queue ++ [.vq d q], ?_, ?_, ?_⟩
    · rw [hlinks]
      exact represents_listAppendIfNotEmbedded h.represents (mem_pendingNodes hq) (by simp)
    · split_ifs
      · exact List.Subset.refl _
      · exact List.subset_append_left _ _
    · rintro _ _ ⟨⟩
      split_ifs with hmem
      · exact hmem
      · simp

/-- **A command** of a driver tells the firmware, or acknowledges an interrupt. -/
theorem SignalInv.command (h : SignalInv env sectors s queue) (hidle : s.call = none)
    {c : PxiCmd} (hc : c.Operates (deviceTable env sectors 0)) :
    ∃ queue', SignalInv env sectors
      { s with
        fw := c.access (deviceTable env sectors 0) s.fw
        account := fun dev => (s.account dev).command (deviceTable env sectors 0) s.fw dev c }
      queue' := by
  obtain ⟨hvqs, hext, hid⟩ := hc.keeps ⟨queue, h.represents⟩
  obtain ⟨queue', hrep, hold, hnew⟩ := h.exists_queue c
  refine ⟨queue', hrep, ?_, ?_, ?_, ?_, ?_⟩
  · intro dev
    simp only [Service.queue, hvqs]
    exact h.owner dev
  · intro dev
    rw [hid]
    exact h.id dev
  · intro c' hc'
    rw [hidle] at hc'
    cases hc'
  · intro dev hann
    simp only [Account.command, Bool.or_eq_true, decide_eq_true_eq] at hann
    rcases hann with hann | hnotify
    · rcases h.announced dev hann with hall | hmem | ⟨c', hc', -⟩
      · left
        simp only [fetched, flight, hidle] at hall ⊢
        exact hall
      · exact Or.inr (Or.inl (hold hmem))
      · rw [hidle] at hc'
        cases hc'
    · exact Or.inr (Or.inl (hnew _ _ hnotify))
  -- what has been told so far stays told, by the bit or by the command that took it away
  · intro dev hlt
    simp only [Account.command, Bool.or_eq_true]
    rcases h.told dev hlt with hbit | hdraining | hcall
    · rcases c.access_bit ⟨queue, h.represents⟩ hbit with hbit | htells
      · exact Or.inl hbit
      · exact Or.inr (Or.inl (Or.inr htells))
    · exact Or.inr (Or.inl (Or.inl hdraining))
    · exact Or.inr (Or.inr hcall)

/-! ### The manager -/

private theorem beginCall_of_nil {w : Fw World}
    (r : Represents (pendingNodes (deviceTable env sectors 0)) w.links .vqueuePendingList []) :
    beginCall w = (w, none) := by
  rw [beginCall, if_pos ((listEmpty_iff r).mpr rfl)]

/-- The first queue of the list is removed, and its owner called. -/
theorem beginCall_of_cons {w : Fw World} {n : ListNode} {rest : List ListNode}
    (r : Represents (pendingNodes (deviceTable env sectors 0)) w.links .vqueuePendingList
      (n :: rest)) :
    ∃ dev : Vdev, n = .vq dev.index 0 ∧ beginCall w =
      ({ w with links := listRemove w.links (.vq dev.index 0) },
        some ⟨virtQueueOwner (w.vqs dev.index 0), (dev.index, 0), .fetchNew, ⟨0, 0, 0⟩⟩) := by
  have hempty : ¬ listEmpty w.links .vqueuePendingList = true := by
    rw [listEmpty_iff r]
    simp
  have hmem : n ∈ pendingNodes (deviceTable env sectors 0) := r.mem n (by simp)
  cases n with
  | vqueuePendingList => exact absurd (List.mem_cons_self ..) r.notMem_head
  | vq d q =>
    obtain ⟨dev, rfl, rfl⟩ := hasQueue_cases (hasQueue_of_mem hmem)
    refine ⟨dev, rfl, ?_⟩
    rw [beginCall, if_neg hempty]
    simp only [listHead_eq r]

/-- **Taking a queue off the list**: its call is in the loop from then on. -/
theorem SignalInv.begin (h : SignalInv env sectors s queue) (hidle : s.call = none) :
    ∃ queue', SignalInv env sectors
      { s with fw := (beginCall s.fw).1, call := (beginCall s.fw).2 } queue' := by
  rcases queue with _ | ⟨n, rest⟩
  · refine ⟨[], ?_⟩
    rw [beginCall_of_nil h.represents, ← hidle]
    exact h
  · obtain ⟨dev, rfl, hbegin⟩ := beginCall_of_cons h.represents
    rw [hbegin]
    refine ⟨rest, represents_listRemove_head h.represents, h.owner, h.id, ?_, ?_, ?_⟩
    · intro c hc
      obtain rfl := Option.some.inj hc
      exact ⟨⟨dev, rfl, h.owner dev, rfl⟩, Pc.noConfusion⟩
    · intro dev' hann
      rcases h.announced dev' hann with hall | hmem | ⟨c, hc, -⟩
      · left
        -- at the start of a call nothing is in flight
        simp only [fetched, flight, hidle, inFlight, ite_self] at hall ⊢
        exact hall
      · rcases List.mem_cons.mp hmem with heq | hmem
        · rw [ListNode.vq.injEq] at heq
          exact Or.inr (Or.inr ⟨_, rfl, by rw [heq.1], Pc.noConfusion⟩)
        · exact Or.inr (Or.inl hmem)
      · rw [hidle] at hc
        cases hc
    · intro dev' hlt
      rcases h.told dev' hlt with hbit | hdraining | ⟨c, hc, -⟩
      · exact Or.inl hbit
      · exact Or.inr (Or.inl hdraining)
      · rw [hidle] at hc
        cases hc

/-! ### Steps of a call -/

/-- Interrupts are set by the last step of a call only. -/
private theorem callNext_virq {dev : Vdev} {c : QueueCall} (hpc : c.pc ≠ .notify) :
    (callNext env s dev c).ctx.virq = s.fw.virq := by
  obtain ⟨owner, queue, pc, vjob⟩ := c
  simp only [callNext]
  cases pc with
  | notify => exact absurd rfl hpc
  | body =>
    obtain ⟨es, hspec⟩ := descStep_spec dev env vjob (s.ctx dev)
    rw [prQueue_body]
    exact hspec.virq
  | fetchNext =>
    rcases hlink : nextDesc (s.ctx dev).mem (s.ctx dev).vq.qDesc vjob.currentDesc with _ | i
    · rw [prQueue_fetchNext_of_none _ _ _ _ _ hlink]
      rfl
    · rw [prQueue_fetchNext_of_some _ _ _ _ _ hlink]
      rfl
  | fetchNew | push | done =>
    rw [dev.prQueue_eq]
    rfl

/-- Where the program counter can go. -/
theorem callNext_pc (env : Env) (s : Service) (dev : Vdev) (c : QueueCall) :
    ((callNext env s dev c).pc = .done ↔ c.pc = .notify ∨ c.pc = .done) ∧
      ((callNext env s dev c).pc = .notify → c.pc = .fetchNew) := by
  obtain ⟨owner, queue, pc, vjob⟩ := c
  simp only [callNext, dev.prQueue_eq, processQueue]
  cases pc
  case fetchNew | fetchNext =>
    simp only [reduceCtorEq, or_self, iff_false]
    split_ifs <;> simp
  all_goals simp

/-- The last step of a call sets the bit of the device, and leaves the others as they are. -/
private theorem callNext_bit {dev : Vdev} {c : QueueCall}
    (hid : (s.fw.devs dev.index).id = BitVec.ofNat 32 dev.index) (hpc : c.pc = .notify)
    (dev' : Vdev) :
    ((callNext env s dev c).ctx.virq.pendingVirq 0 0).getLsbD dev'.index =
      ((s.fw.virq.pendingVirq 0 0).getLsbD dev'.index || decide (dev' = dev)) := by
  have hindex : ∀ dev : Vdev, dev.index < 32 := by
    intro dev
    cases dev <;> decide
  have hbank : (BitVec.ofNat 32 dev.index : U32).toNat / 32 = (0 : Fin VIRQ_BANKS).val := by
    rw [dev.toNat_index]
    exact Nat.div_eq_of_lt (hindex dev)
  have hvalid := virtDevNotifyHost_of_valid s.fw.virq
    (show VIRQ_VQUEUE.toNat = (0 : Fin VIRQ_MODES).val from rfl) hbank
  rw [callNext, hpc, prQueue_notify, hid]
  simp only [ctx_virq, hvalid, update_bank_apply, and_self, if_true, BitVec.getLsbD_or,
    dev.toNat_index, Nat.mod_eq_of_lt (hindex dev), bit_getLsbD (hindex dev'),
    Vdev.index_injective.eq_iff]

/-- Only one queue is processed at a time. -/
private theorem Calls.eq_of_queue {dev dev' : Vdev} {c c' : QueueCall} (h : s.Calls dev c)
    (hc' : s.call = some c') (hq : c'.queue = (dev'.index, 0)) : c' = c ∧ dev' = dev := by
  obtain rfl := Option.some.inj (hc'.symm.trans h.call)
  exact ⟨rfl, Vdev.index_injective (congrArg Prod.fst (hq.symm.trans h.queue))⟩

/-- A step of a call records an entry for its own driver, and nothing else. -/
theorem advance_account_eq {dev : Vdev} {c : QueueCall} {u : Config} (dev' : Vdev) :
    (s.advance dev c u).account dev' =
      { s.account dev' with done := ((s.advance dev c u).account dev').done } := by
  rw [advance_account]
  split_ifs with hdev
  · rw [hdev, Account.record]
    split_ifs <;> rfl
  · rfl

/-- The other driver's account is not touched. -/
private theorem Calls.advance_of_ne {dev : Vdev} {c : QueueCall} (h : s.Calls dev c) {u : Config}
    {dev' : Vdev} (hne : dev' ≠ dev) :
    (s.advance dev c u).account dev' = s.account dev' ∧
      (s.advance dev c u).fetched dev' = s.fetched dev' := by
  have haccount : (s.advance dev c u).account dev' = s.account dev' := by
    rw [advance_account, if_neg hne]
  refine ⟨haccount, ?_⟩
  rw [fetched, fetched, haccount, advance_flight h, if_neg hne, h.flight_of_ne hne]

/-- What the queue has fetched, if the step takes no request up and finishes none. -/
private theorem Calls.advance_fetched {dev : Vdev} {c : QueueCall} (h : s.Calls dev c) {u : Config}
    (hpush : c.pc ≠ .push) (hu : inFlight u = inFlight ⟨c.pc, c.vjob, s.ctx dev⟩) :
    (s.advance dev c u).fetched dev = s.fetched dev := by
  rw [fetched, fetched, advance_account, advance_flight h, Account.record, if_neg hpush,
    if_pos rfl, if_pos rfl, hu, h.flight_eq]

/-- A step stays in the loop, or it leaves the loop or the call. -/
private theorem Calls.atLoop_or (env : Env) (h : s.Calls dev c) (hbusy : c.pc ≠ .done) :
    (s.advance dev c (callNext env s dev c)).AtLoop dev ∨
      (s.advance dev c (callNext env s dev c)).fetched dev = s.fetched dev ∧
        (c.pc = .notify ∨ c.pc = .fetchNew ∧ (callNext env s dev c).pc = .notify) := by
  obtain ⟨hdone, hnotify⟩ := callNext_pc env s dev c
  rw [or_iff_left hbusy] at hdone
  by_cases hnot : (callNext env s dev c).pc = .notify
  · have hpc := hnotify hnot
    refine Or.inr ⟨h.advance_fetched (by rw [hpc]; decide) ?_, Or.inr ⟨hpc, hnot⟩⟩
    rw [inFlight, hnot, hpc]
    rfl
  by_cases hend : (callNext env s dev c).pc = .done
  · have hpc := hdone.mp hend
    refine Or.inr ⟨h.advance_fetched (by rw [hpc]; decide) ?_, Or.inl hpc⟩
    rw [inFlight, hend, hpc]
    rfl
  · left
    refine ⟨{ c with pc := (callNext env s dev c).pc, vjob := (callNext env s dev c).vjob }, ?_,
      h.queue, hnot⟩
    rw [advance_call, if_neg hend]

/-- **A step of a call** leaves nobody waiting whom nobody is to tell. -/
theorem SignalInv.advance (h : SignalInv env sectors s queue) {dev : Vdev} {c : QueueCall}
    (hc : s.Calls dev c)
    (hleave : c.pc = .fetchNew → (callNext env s dev c).pc = .notify →
      s.fetched dev = (s.account dev).sent) :
    SignalInv env sectors (s.advance dev c (callNext env s dev c)) queue := by
  have hbusy : c.pc ≠ .done := (h.call c hc.call).2
  refine ⟨h.represents, ?_, h.id, ?_, ?_, ?_⟩
  · intro dev'
    obtain ⟨_, _, _, hvq⟩ : ((s.advance dev c (callNext env s dev c)).queue dev').SameSetup
        (s.queue dev') := advance_sameSetup dev'
    rw [hvq, virtQueueOwner]
    exact h.owner dev'
  · intro c' hc'
    rw [advance_call] at hc'
    split_ifs at hc' with hend
    obtain rfl := Option.some.inj hc'
    exact ⟨⟨dev, by rw [advance_call, if_neg hend], hc.owner, hc.queue⟩, hend⟩
  · intro dev' hann
    rw [advance_account_eq] at hann ⊢
    rcases h.announced dev' hann with hall | hmem | ⟨c', hc', hq, hloop⟩
    · by_cases hdev : dev' = dev
      · subst hdev
        rcases hc.atLoop_or env hbusy with hstay | ⟨hfetched, -⟩
        · exact Or.inr (Or.inr hstay)
        · exact Or.inl (hfetched.trans hall)
      · exact Or.inl ((hc.advance_of_ne hdev).2.trans hall)
    · exact Or.inr (Or.inl hmem)
    · obtain ⟨rfl, rfl⟩ := hc.eq_of_queue hc' hq
      rcases hc.atLoop_or env hbusy with hstay | ⟨hfetched, hpc | ⟨hpc, hnot⟩⟩
      · exact Or.inr (Or.inr hstay)
      · exact absurd hpc hloop
      · exact Or.inl (hfetched.trans (hleave hpc hnot))
  · intro dev' hlt
    by_cases hdev : dev' = dev
    · subst hdev
      by_cases hend : (callNext env s dev' c).pc = .done
      -- the call is over, and has set the bit
      · left
        have hpc := ((callNext_pc env s dev' c).1.mp hend).resolve_right hbusy
        rw [advance_virq, callNext_bit (h.id dev') hpc, decide_eq_true rfl, Bool.or_true]
      · refine Or.inr (Or.inr ⟨{ c with
          pc := (callNext env s dev' c).pc
          vjob := (callNext env s dev' c).vjob }, ?_, hc.queue⟩)
        rw [advance_call, if_neg hend]
    · rw [(hc.advance_of_ne hdev).1] at hlt ⊢
      rcases h.told dev' hlt with hbit | hdraining | ⟨c', hc', hq⟩
      · left
        by_cases hpc : c.pc = .notify
        · rw [advance_virq, callNext_bit (h.id dev) hpc, hbit, Bool.true_or]
        · rw [advance_virq, callNext_virq hpc]
          exact hbit
      · exact Or.inr (Or.inl hdraining)
      · exact absurd (hc.eq_of_queue hc' hq).2 hdev

end Service

end Arm9LinuxFw
