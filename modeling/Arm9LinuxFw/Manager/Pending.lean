import Arm9LinuxFw.Manager.Trace
import Arm9LinuxFw.Vdev.Table
import Arm9LinuxFw.Process.Frame
import Arm9LinuxFw.Lib.History

/-!
# Pending queues

The pending list under interrupts. `virtManagerProcessPending` works in a critical section;
between the sections the handler `onPxiRecv` executes register accesses, and a write of
`QueueNotify` puts a queue on the list.

The system (`pendStep`) runs the functions of the firmware over the traced table of `Trace`, so
its history has an entry for every `prQueue` that was really called, made by the callback itself,
and between them the notifications that took effect. A call that is left out, or made with the
wrong device or the wrong queue, shows in the history.

* **Accesses**: of all register accesses only a notification changes the list, which it appends
  the queue to (`PxiCmd.access_links`).
* **Processing**: a call of `virtManagerProcessPending` removes the first queue and calls the
  `prQueue` of its owner with it, or finds the list empty (`virtManagerProcessPending_of_cons`,
  `virtManagerProcessPending_of_nil`).
* **The invariant**: `ListInv` relates the list the links represent to the history; each step is
  an append, a removal of the head, or no change. `PendInv` adds where the call stands.
* **The contract**: `pending_faithful`. After any interleaving the list holds exactly the queues
  notified since their last `prQueue` call, and every call was one of the device that has the
  queue.
-/

namespace Arm9LinuxFw

open CircularList Transition History

variable {ω : Type*} (T : DevTable ω)

/-! ### Commands -/

/-- A command of the host, as `onPxiRecv` executes it. -/
inductive PxiCmd
  | readReg (dev reg : U32)
  | writeReg (dev reg data : U32)
  deriving DecidableEq

/-- The register access of a command. The word sent back for a read is left out. -/
def PxiCmd.access (w : Fw ω) : PxiCmd → Fw ω
  | .readReg dev reg => (virtDevReadReg T w dev reg).2
  | .writeReg dev reg data => virtDevWriteReg T w dev reg data

/-- The queue a command notifies: it writes `QueueNotify` of a queue there is. -/
def PxiCmd.notifies : PxiCmd → Option (ℕ × ℕ)
  | .readReg _ _ => none
  | .writeReg dev reg _ =>
      let (rtype, reg) := virtManagerDecodeReg reg
      if rtype = .queueReg ∧ QueueRegisters.ofReg (reg >>> 7) = some .queueNotify then
        (virtDevGet T dev).bind fun d =>
          (virtDevGetQueue (T.dev d) (reg &&& 0x7F)).map fun q => (d, q)
      else none

/-! ### The system -/

/-- Where the activation of `virtManagerProcessPending` stands, if there is one. -/
inductive PendCall
  | idle
  /-- after `armEnterCritical`; the argument is what it returned -/
  | entered (critSection : Bool)
  /-- before `armLeaveCritical`; `ret` is what will be returned -/
  | processed (critSection ret : Bool)
  deriving DecidableEq

/-- The firmware with its history, and the interrupt mask of the processor. -/
structure Pend (ω : Type*) where
  fw : Fw (Traced ω)
  masked : Bool
  call : PendCall

/-- The notifications that took effect and the `prQueue` calls made, oldest first. -/
def Pend.history (s : Pend ω) : List PendEvent := s.fw.ext.history

/-- The main loop takes the next step of `virtManagerProcessPending`, or the handler executes
a command. -/
inductive PendAction
  | enter
  | process
  | leave
  | command (c : PxiCmd)
  deriving DecidableEq

/-- The handler executes a command. -/
def Pend.command (s : Pend ω) (c : PxiCmd) : Pend ω :=
  { s with
    fw := (c.access T.traced s.fw).record
      ((c.notifies T).toList.map fun (d, q) => .notified d q) }

/-- One step; commands are executed only while interrupts are unmasked. -/
def pendStep (s : Pend ω) : PendAction → Option (Pend ω)
  | .enter =>
      if s.call = .idle then some { s with masked := true, call := .entered s.masked } else none
  | .process =>
      match s.call with
      | .entered critSection =>
          let (ret, fw) := virtManagerProcessPending T.traced s.fw
          some { s with fw := fw, call := .processed critSection ret }
      | _ => none
  | .leave =>
      match s.call with
      | .processed critSection _ => some { s with masked := critSection, call := .idle }
      | _ => none
  | .command c => if s.masked then none else some (s.command T c)

/-- The state at the main loop: the table is initialized and interrupts are enabled. -/
def pendBoot (w : Fw ω) : Pend ω where
  fw := virtDevInitAll T.traced (w.withExt ⟨w.ext, []⟩)
  masked := false
  call := .idle

/-! ### What the register accesses do to the list -/

/-- Reads of registers do not touch the queues or the list. -/
theorem readReg_links (w : Fw ω) (dev reg : U32) :
    (virtDevReadReg T w dev reg).2.links = w.links ∧
      (virtDevReadReg T w dev reg).2.vqs = w.vqs := by
  have hmanager (reg : U32) : (virtManagerRegRead T w reg).2.links = w.links ∧
      (virtManagerRegRead T w reg).2.vqs = w.vqs := by
    rw [virtManagerRegRead]
    split <;> exact ⟨rfl, rfl⟩
  simp only [virtDevReadReg]
  split_ifs
  · exact hmanager _
  · split
    · exact ⟨rfl, rfl⟩
    · split <;> exact ⟨rfl, rfl⟩

/-- No register has the owner of a queue in it. -/
private theorem virtQueueRegWrite_owner (l : Links ListNode) (node : ListNode) (vq : VirtQueue)
    (reg val : U32) : (virtQueueRegWrite l node vq reg val).2.owner = vq.owner := by
  rw [virtQueueRegWrite]
  split
  · rw [virtQueueSetDescCount]
    split_ifs <;> rfl
  · split_ifs <;> rfl
  all_goals rfl

/-- Of the queue registers only `QueueNotify` has to do with the list. -/
theorem virtQueueRegWrite_links (l : Links ListNode) (node : ListNode) (vq : VirtQueue)
    (reg val : U32) : (virtQueueRegWrite l node vq reg val).1 =
      if QueueRegisters.ofReg reg = some .queueNotify then (virtManagerAddPending l node).2
      else l := by
  simp only [virtQueueRegWrite]
  rcases QueueRegisters.ofReg reg with _ | r
  · rfl
  · rcases r <;> rfl

/-- And that only for a queue which the device has. -/
private theorem virtDevQueueRegWrite_links (w : Fw ω) (d : ℕ) (vqn reg val : U32) :
    (virtDevQueueRegWrite T w d vqn reg val).links =
      match (if QueueRegisters.ofReg reg = some .queueNotify
        then (virtDevGetQueue (T.dev d) vqn).map fun q => (d, q) else none) with
      | none => w.links
      | some (d, q) => (virtManagerAddPending w.links (.vq d q)).2 := by
  rw [virtDevQueueRegWrite]
  rcases virtDevGetQueue (T.dev d) vqn with _ | q
  · simp
  · change (virtQueueRegWrite w.links (.vq d q) (w.vqs d q) reg val).1 = _
    rw [virtQueueRegWrite_links]
    split_ifs <;> rfl

/-- Only a notification changes the links, and it appends the queue notified. -/
theorem PxiCmd.access_links (w : Fw ω) (c : PxiCmd) : (c.access T w).links =
    match c.notifies T with
    | none => w.links
    | some (d, q) => (virtManagerAddPending w.links (.vq d q)).2 := by
  cases c with
  | readReg dev reg => exact (readReg_links T w dev reg).1
  | writeReg dev reg data =>
    rcases hdec : virtManagerDecodeReg reg with ⟨rtype, num⟩
    simp only [access, notifies, virtDevWriteReg, hdec]
    rcases virtDevGet T dev with _ | d
    · rcases rtype <;> simp
    · rcases rtype
      case queueReg =>
        simp only [reduceCtorEq, if_false, true_and]
        exact virtDevQueueRegWrite_links T w d _ _ data
      all_goals rfl

/-- No command changes the owner of a queue. -/
theorem PxiCmd.access_owner (w : Fw ω) (c : PxiCmd) (d q : ℕ) :
    ((c.access T w).vqs d q).owner = (w.vqs d q).owner := by
  cases c with
  | readReg dev reg => rw [access, (readReg_links T w dev reg).2]
  | writeReg dev reg data =>
    simp only [access, virtDevWriteReg]
    split_ifs
    · rfl
    · split
      · rfl
      · split
        case h_3 =>
          rw [virtDevQueueRegWrite]
          split
          · rfl
          · rw [Fw.setQueue_vqs]
            split_ifs with h
            · rw [virtQueueRegWrite_owner, h.1, h.2]
            · rfl
        all_goals rfl

/-- Only queues of the table are notified. -/
theorem PxiCmd.hasQueue_of_notifies {c : PxiCmd} {d q : ℕ} (h : c.notifies T = some (d, q)) :
    T.HasQueue d q := by
  cases c with
  | readReg dev reg => cases h
  | writeReg dev reg data =>
    simp only [notifies] at h
    split_ifs at h
    obtain ⟨d', hd', h⟩ := Option.bind_eq_some_iff.mp h
    obtain ⟨q', hq', heq⟩ := Option.map_eq_some_iff.mp h
    obtain ⟨rfl, rfl⟩ := Prod.mk.inj heq
    rw [virtDevGet] at hd'
    rw [virtDevGetQueue] at hq'
    split_ifs at hd' with hd
    split_ifs at hq' with hq
    obtain rfl := Option.some.inj hd'
    obtain rfl := Option.some.inj hq'
    exact ⟨hd, hq⟩

/-- An access is the same over the traced table, and makes no entry in the history. -/
theorem PxiCmd.erase_access (w : Fw (Traced ω)) (c : PxiCmd) :
    (c.access T.traced w).erase = c.access T w.erase ∧
      (c.access T.traced w).ext.history = w.ext.history := by
  cases c with
  | readReg dev reg => exact (erase_readReg T w dev reg).2
  | writeReg dev reg data => exact erase_writeReg T w dev reg data

theorem PxiCmd.notifies_traced (c : PxiCmd) : c.notifies T.traced = c.notifies T := rfl

theorem Pend.command_history (s : Pend ω) (c : PxiCmd) : (s.command T c).history =
    s.history ++ (c.notifies T).toList.map fun (d, q) => .notified d q := by
  change (c.access T.traced s.fw).ext.history ++ _ = _
  rw [(c.erase_access T s.fw).2]
  rfl

/-! ### What processing does to the list -/

section Process

variable {D : Set ListNode} {w : Fw ω}

theorem virtManagerProcessPending_of_nil (r : Represents D w.links .vqueuePendingList []) :
    virtManagerProcessPending T w = (false, w) := by
  have hempty : listEmpty w.links .vqueuePendingList = true := (listEmpty_iff r).mpr rfl
  simp [virtManagerProcessPending, hempty]

/-- The first queue of the list is removed and handed to its owner. -/
theorem virtManagerProcessPending_of_cons {d q : ℕ} {rest : List ListNode}
    (r : Represents D w.links .vqueuePendingList (.vq d q :: rest)) :
    virtManagerProcessPending T w =
        (true, (T.dev (virtQueueOwner (w.vqs d q))).prQueue (virtQueueOwner (w.vqs d q)) (d, q)
          { w with links := listRemove w.links (.vq d q) }) := by
  have hempty : listEmpty w.links .vqueuePendingList = false := by
    rw [Bool.eq_false_iff, Ne, listEmpty_iff r]
    simp
  simp [virtManagerProcessPending, hempty, listHead_eq r]

/-- The owner of a queue is the device that has it. -/
theorem virtQueueOwner_eq (h : Owned T T.count w) {d q : ℕ} (hq : T.HasQueue d q) :
    virtQueueOwner (w.vqs d q) = d := by
  have hlt : d < 256 := lt_of_lt_of_le hq.1 (T.count_le.trans (by decide))
  rw [virtQueueOwner, h d q hq.1 hq.2, BitVec.toNat_ofNat, Nat.mod_eq_of_lt hlt]

end Process

/-! ### The invariant -/

/-- `prQueue` was called with queue `q` of device `d`. -/
def CalledWith (d q : ℕ) (e : PendEvent) : Prop := ∃ i v, e = .called i v d q

/-- The list against the history; `queue` is the list the links represent. -/
structure ListInv (w : Fw (Traced ω)) (queue : List ListNode) : Prop where
  represents : Represents (pendingNodes T) w.links .vqueuePendingList queue
  owned : Owned T T.count w.erase
  pending : ∀ d q, .vq d q ∈ queue ↔ Since (· = .notified d q) (CalledWith d q) w.ext.history
  called : ∀ i v d q, .called i v d q ∈ w.ext.history → i = d ∧ v = d ∧ T.HasQueue d q

/-- What holds of every state reached. -/
structure PendInv (s : Pend ω) (queue : List ListNode) : Prop extends ListInv T s.fw queue where
  unmasked : s.masked = false ↔ s.call = .idle
  restores : ∀ critSection, s.call = .entered critSection ∨
    (∃ ret, s.call = .processed critSection ret) → critSection = false

/-- The initialization leaves an empty list and no history. -/
private theorem listInv_boot (w : Fw ω) : ListInv T (pendBoot T w).fw [] := by
  obtain ⟨herase, hhistory⟩ := erase_initAll T (w.withExt ⟨w.ext, []⟩)
  obtain ⟨hrep, howned⟩ := virtDevInitAll_spec (T := T) w
  have herase : (pendBoot T w).fw.erase = virtDevInitAll T w := herase
  have hhistory : (pendBoot T w).fw.ext.history = [] := hhistory
  refine ⟨?_, ?_, ?_, ?_⟩
  · rw [← herase] at hrep
    exact hrep
  · rw [herase]
    exact howned
  · simp [hhistory]
  · simp [hhistory]

theorem pendInv_boot (w : Fw ω) : PendInv T (pendBoot T w) [] where
  toListInv := listInv_boot T w
  unmasked := by simp [pendBoot]
  restores c h := by simp [pendBoot] at h

variable {T}

section ListSteps

variable {w : Fw (Traced ω)} {queue : List ListNode}

/-- A command that notifies no queue. -/
private theorem ListInv.command_none (h : ListInv T w queue) {c : PxiCmd}
    (hc : c.notifies T = none) :
    ListInv T (c.access T.traced w) queue := by
  obtain ⟨herase, hhistory⟩ := c.erase_access T w
  have hlinks := c.access_links T w.erase
  rw [hc, ← herase] at hlinks
  refine ⟨?_, ?_, ?_, ?_⟩
  · exact hlinks ▸ h.represents
  · intro d q hd hq
    rw [herase, c.access_owner, h.owned d q hd hq]
  · rw [hhistory]
    exact h.pending
  · rw [hhistory]
    exact h.called

/-- A command that notifies a queue, which stays where it is if it is listed already. -/
private theorem ListInv.command_some (h : ListInv T w queue) {c : PxiCmd} {d q : ℕ}
    (hc : c.notifies T = some (d, q)) :
    ListInv T ((c.access T.traced w).record [.notified d q])
      (if .vq d q ∈ queue then queue else queue ++ [.vq d q]) := by
  obtain ⟨herase, hhistory⟩ := c.erase_access T w
  have hq : T.HasQueue d q := PxiCmd.hasQueue_of_notifies T hc
  have hlinks := c.access_links T w.erase
  rw [hc, ← herase] at hlinks
  have hrecord : ((c.access T.traced w).record [.notified d q]).ext.history =
      w.ext.history ++ [.notified d q] := by
    rw [← hhistory]
    rfl
  refine ⟨?_, ?_, ?_, ?_⟩
  · refine Eq.subst (motive := fun l => Represents _ l _ _) hlinks.symm ?_
    exact represents_listAppendIfNotEmbedded h.represents (mem_pendingNodes hq) (by simp)
  · intro d' q' hd hq'
    rw [Fw.erase_record, herase, c.access_owner, h.owned d' q' hd hq']
  · intro d' q'
    have hsince : Since (· = .notified d' q') (CalledWith d' q')
        (w.ext.history ++ [.notified d q]) ↔
          ListNode.vq d' q' = .vq d q ∨ .vq d' q' ∈ queue := by
      rw [since_append_singleton, h.pending]
      simp [CalledWith, eq_comm]
    rw [hrecord, hsince]
    split_ifs with hmem
    · refine (or_iff_right_of_imp ?_).symm
      rintro heq
      exact heq ▸ hmem
    · rw [List.mem_append, List.mem_singleton, or_comm]
  · rw [hrecord]
    simpa using h.called

/-- The head of the list is removed and processed by its owner. It is listed once, so after its
removal it is not listed. -/
private theorem ListInv.process_cons {d q : ℕ} {rest : List ListNode}
    (h : ListInv T w (.vq d q :: rest)) :
    ListInv T (virtManagerProcessPending T.traced w).2 rest := by
  have hq : T.HasQueue d q := hasQueue_of_mem (h.represents.mem _ (by simp))
  have hproc := virtManagerProcessPending_of_cons T.traced h.represents
  have howner : virtQueueOwner (w.vqs d q) = d := virtQueueOwner_eq T h.owned hq
  rw [howner] at hproc
  have hhistory : (virtManagerProcessPending T.traced w).2.ext.history =
      w.ext.history ++ [.called d d d q] := by
    rw [hproc]
    rfl
  refine ⟨?_, ?_, ?_, ?_⟩
  · rw [hproc]
    change Represents _ ((T.dev d).prQueue d (d, q) _).links _ _
    rw [(T.dev d).prQueue_links]
    exact represents_listRemove_head h.represents
  · rw [hproc]
    intro d' q' hd' hq'
    change (((T.dev d).prQueue d (d, q) _).vqs d' q').owner = _
    rw [(T.dev d).prQueue_owner]
    exact h.owned d' q' hd' hq'
  · intro d' q'
    have hnd : ListNode.vq d q ∉ rest := (List.nodup_cons.mp
      (List.nodup_cons.mp h.represents.nodup).2).1
    have hcalled : CalledWith d' q' (.called d d d q) ↔ ListNode.vq d' q' = .vq d q := by
      simp [CalledWith, eq_comm]
    rw [hhistory, since_append_singleton, ← h.pending, List.mem_cons, hcalled]
    simp only [reduceCtorEq, false_or]
    constructor
    · intro hmem
      have hdiff : ListNode.vq d' q' ≠ .vq d q := fun heq => hnd (heq ▸ hmem)
      exact ⟨hdiff, Or.inr hmem⟩
    · rintro ⟨hdiff, heq | hmem⟩
      · exact absurd heq hdiff
      · exact hmem
  · intro i v d' q' hmem
    rw [hhistory, List.mem_append, List.mem_singleton] at hmem
    rcases hmem with hmem | heq
    · exact h.called i v d' q' hmem
    · obtain ⟨rfl, rfl, rfl, rfl⟩ := PendEvent.called.inj heq
      exact ⟨rfl, rfl, hq⟩

/-- **Processing** takes the head off the list and records the call of its owner. -/
theorem ListInv.process (h : ListInv T w queue) :
    ∃ queue', ListInv T (virtManagerProcessPending T.traced w).2 queue' := by
  rcases queue with _ | ⟨n, rest⟩
  · rw [virtManagerProcessPending_of_nil T.traced h.represents]
    exact ⟨[], h⟩
  · rcases n with _ | ⟨d, q⟩
    · exact absurd (List.mem_cons_self ..) h.represents.notMem_head
    · exact ⟨rest, h.process_cons⟩

end ListSteps

section Steps

variable {s : Pend ω} {queue : List ListNode}

/-- A command keeps the invariant: it appends a queue, or leaves the list. -/
theorem PendInv.command (h : PendInv T s queue) (c : PxiCmd) :
    ∃ queue', PendInv T (s.command T c) queue' := by
  have hlist : ∃ queue', ListInv T (s.command T c).fw queue' := by
    rcases hc : c.notifies T with _ | ⟨d, q⟩
    · refine ⟨queue, ?_⟩
      simpa [Pend.command, hc, Fw.record, Fw.withExt] using h.command_none hc
    · have hcommand : (s.command T c).fw =
          (c.access T.traced s.fw).record [.notified d q] := by
        rw [Pend.command, hc]
        rfl
      rw [hcommand]
      exact ⟨_, h.command_some hc⟩
  obtain ⟨queue', hlist⟩ := hlist
  exact ⟨queue', hlist, h.unmasked, h.restores⟩

/-- Processing keeps it, inside the critical section. -/
theorem PendInv.process (h : PendInv T s queue) {critSection : Bool}
    (hcall : s.call = .entered critSection) :
    ∃ queue', PendInv T { s with
      fw := (virtManagerProcessPending T.traced s.fw).2
      call := .processed critSection (virtManagerProcessPending T.traced s.fw).1 } queue' := by
  have hcrit : critSection = false := h.restores critSection (Or.inl hcall)
  obtain ⟨queue', hlist⟩ := h.toListInv.process
  refine ⟨queue', hlist, ?_, ?_⟩
  · simp [h.unmasked, hcall]
  · rintro c (hc | ⟨ret, hc⟩)
    · cases hc
    · rw [← (PendCall.processed.inj hc).1, hcrit]

/-- **One step** keeps the invariant. -/
theorem PendInv.step (h : PendInv T s queue) {a : PendAction} {t : Pend ω}
    (hstep : pendStep T s a = some t) : ∃ queue', PendInv T t queue' := by
  rcases a with _ | _ | _ | c
  case enter =>
    simp only [pendStep] at hstep
    split_ifs at hstep with hidle
    obtain rfl := Option.some.inj hstep
    refine ⟨queue, h.toListInv, by simp, ?_⟩
    rintro c (hc | ⟨ret, hc⟩)
    · rw [← PendCall.entered.inj hc]
      exact h.unmasked.mpr hidle
    · cases hc
  case process =>
    simp only [pendStep] at hstep
    split at hstep
    case h_1 critSection hcall =>
      obtain rfl := Option.some.inj hstep
      exact h.process hcall
    case h_2 => cases hstep
  case leave =>
    simp only [pendStep] at hstep
    split at hstep
    case h_1 critSection ret hcall =>
      obtain rfl := Option.some.inj hstep
      have hcrit : critSection = false := h.restores critSection (Or.inr ⟨ret, hcall⟩)
      exact ⟨queue, h.toListInv, by simp [hcrit], by simp⟩
    case h_2 => cases hstep
  case command =>
    simp only [pendStep] at hstep
    split_ifs at hstep
    obtain rfl := Option.some.inj hstep
    exact h.command c

end Steps

/-! ### The contract -/

/-- `n` is found on the pending list, following its links from the head. -/
def OnPendingList (l : Links ListNode) (n : ListNode) : Prop :=
  ∃ k, l.next^[k] .vqueuePendingList = n

/-- What the pending list owes the host in a state. -/
structure PendFaithful (T : DevTable ω) (s : Pend ω) : Prop where
  /-- a queue is listed if and only if it was notified since its last `prQueue` call -/
  listed : ∀ d q, OnPendingList s.fw.links (.vq d q) ↔
    Since (· = .notified d q) (CalledWith d q) s.history
  /-- every call of a `prQueue` was the `prQueue` of the device that has the queue, and was made
  with that device -/
  owner : ∀ i v d q, .called i v d q ∈ s.history → i = d ∧ v = d ∧ T.HasQueue d q
  /-- with nothing listed, every queue was processed after it was last notified -/
  drained : listEmpty s.fw.links .vqueuePendingList = true →
    ∀ d q, .notified d q ∈ s.history → Since (CalledWith d q) (· = .notified d q) s.history

/-- The list as the history has it, and no call of a device that does not own the queue. -/
theorem PendInv.faithful {s : Pend ω} {queue : List ListNode} (h : PendInv T s queue) :
    PendFaithful T s where
  listed d q := by
    rw [OnPendingList, h.represents.exists_iterate_next_iff, Pend.history, ← h.pending]
    simp
  owner := h.called
  drained hempty d q hmem := by
    rw [listEmpty_iff h.represents] at hempty
    refine since_of_not_since ⟨_, hmem, rfl⟩ ?_
    rw [Pend.history, ← h.pending, hempty]
    exact List.not_mem_nil

/-- Every run from the initialization has the invariant. -/
theorem exists_pendInv {w : Fw ω} {as : List PendAction} {s : Pend ω}
    (hrun : exec (pendStep T) (pendBoot T w) as = some s) : ∃ queue, PendInv T s queue := by
  have hstep : ∀ s a t, (∃ queue, PendInv T s queue) → pendStep T s a = some t →
      ∃ queue, PendInv T t queue := by
    rintro s a t ⟨queue, h⟩ ht
    exact h.step ht
  exact exec_invariant hstep ⟨[], pendInv_boot T w⟩ hrun

/-- **No notification is lost, and none is delivered to the wrong device**, in any interleaving
of register accesses by the interrupt handler and calls of `virtManagerProcessPending`, from
the initialization of any table over any memory. -/
theorem pending_faithful (T : DevTable ω) (w : Fw ω) {as : List PendAction} {s : Pend ω}
    (hrun : exec (pendStep T) (pendBoot T w) as = some s) : PendFaithful T s := by
  obtain ⟨queue, h⟩ := exists_pendInv hrun
  exact h.faithful

/-- Both devices are notified, the block device is processed, and notified again. -/
theorem pending_faithful_renotified :
    ∃ s, exec (pendStep (deviceTable zeroEnv (some 0) 2))
        (pendBoot (deviceTable zeroEnv (some 0) 2) powerOn)
        [.command (.writeReg 1 0x602 0), .enter, .process, .leave,
          .command (.writeReg 0 0x602 0), .command (.writeReg 1 0x602 0)] = some s ∧
      PendFaithful (deviceTable zeroEnv (some 0) 2) s ∧
      s.history = [.notified 1 0, .called 1 1 1 0, .notified 0 0, .notified 1 0] := by
  have hhistory : (exec (pendStep (deviceTable zeroEnv (some 0) 2))
      (pendBoot (deviceTable zeroEnv (some 0) 2) powerOn)
      [.command (.writeReg 1 0x602 0), .enter, .process, .leave,
        .command (.writeReg 0 0x602 0), .command (.writeReg 1 0x602 0)]).map Pend.history =
      some [.notified 1 0, .called 1 1 1 0, .notified 0 0, .notified 1 0] := by
    decide
  obtain ⟨s, hrun, hs⟩ := Option.map_eq_some_iff.mp hhistory
  exact ⟨s, hrun, pending_faithful (deviceTable zeroEnv (some 0) 2) powerOn hrun, hs⟩

end Arm9LinuxFw
