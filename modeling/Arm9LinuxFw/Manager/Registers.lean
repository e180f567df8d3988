import Arm9LinuxFw.Manager.Pending
import Arm9LinuxFw.Manager.RegMap
import Arm9LinuxFw.Manager.Interrupts

/-!
# The registers

The firmware as the host sees it: a map of registers that it reads and writes, and queues that
are processed in between.

* `regStep` is this system: an access of the host, or a call of `virtManagerProcessPending`.
* `WriteIsolated` says that a write changes the field that its number selects and nothing else,
  whether that is a field of a device, one of a queue, or a place on the list; `ReadIsolated`
  that a read changes nothing but the interrupt bank it acknowledges. Both hold in every state
  with a sound list (`writeIsolated`, `readIsolated`), for any table whose configuration spaces
  are read-only.
* `RegCell.Plain` are the registers that just hold a value. `lastWritten` is the last value that a
  run has written to one; it is what a read returns (`ReadsBack`), as long as the processing of a
  queue leaves its configuration alone (`DevClass.KeepsSetup`).
* `registerFile` puts the three together for every state that a run can reach.

`deviceTable_readOnlyCfg` and `deviceTable_keepsSetup` say that the table of the firmware, with its
two devices, is such a table.
-/

namespace Arm9LinuxFw

open CircularList Transition

variable {ω : Type*} (T : DevTable ω)

/-! ### The system -/

/-- The host accesses a register, or the main loop processes a pending queue. -/
inductive RegAction
  | access (c : PxiCmd)
  | process
  deriving DecidableEq

def regStep (w : Fw ω) : RegAction → Option (Fw ω)
  | .access c => some (c.access T w)
  | .process => some (virtManagerProcessPending T w).2

/-- Every step of the pending queue system is one of the registers, or none. -/
theorem pendStep_registers {s t : Pend ω} {a : PendAction} (h : pendStep T s a = some t) :
    Reachable (regStep T) s.fw.erase t.fw.erase := by
  cases a with
  | enter =>
    obtain ⟨-, heq⟩ := Option.ite_none_right_eq_some.mp h
    obtain rfl := Option.some.inj heq
    exact .refl _
  | process =>
    simp only [pendStep] at h
    split at h
    · obtain rfl := Option.some.inj h
      refine (Reachable.refl s.fw.erase).tail (a := .process) ?_
      exact congrArg some (erase_processPending T s.fw).2.symm
    · cases h
  | leave =>
    simp only [pendStep] at h
    split at h
    · obtain rfl := Option.some.inj h
      exact .refl _
    · cases h
  | command c =>
    obtain ⟨-, heq⟩ := Option.ite_none_left_eq_some.mp h
    obtain rfl := Option.some.inj heq
    refine (Reachable.refl s.fw.erase).tail (a := .access c) ?_
    exact congrArg some (c.erase_access T s.fw).1.symm

variable {T}

/-- A call of `virtManagerProcessPending`, as three steps of the pending queue system. -/
private theorem exec_processPending {s : Pend ω} (hidle : s.call = .idle) :
    exec (pendStep T) s [.enter, .process, .leave] = some
      { fw := (virtManagerProcessPending T.traced s.fw).2
        masked := s.masked
        call := .idle } := by
  simp [exec, pendStep, hidle]

/-- A run on the registers is one of the pending queue system, with no call in progress. -/
private theorem exists_pend {w₀ w : Fw ω} {as : List RegAction}
    (hrun : exec (regStep T) (virtDevInitAll T w₀) as = some w) :
    ∃ bs s, exec (pendStep T) (pendBoot T w₀) bs = some s ∧ s.call = .idle ∧ s.fw.erase = w := by
  have hboot : (pendBoot T w₀).fw.erase = virtDevInitAll T w₀ :=
    (erase_initAll T (w₀.withExt ⟨w₀.ext, []⟩)).1
  refine exec_invariant (I := fun w => ∃ bs s, exec (pendStep T) (pendBoot T w₀) bs = some s ∧
    s.call = .idle ∧ s.fw.erase = w) ?_ ⟨[], _, rfl, rfl, hboot⟩ hrun
  rintro w a t ⟨bs, s, hbs, hidle, rfl⟩ ht
  cases a with
  | access c =>
    obtain rfl := Option.some.inj ht
    obtain ⟨queue, hinv⟩ := exists_pendInv hbs
    have hstep : pendStep T s (.command c) = some (s.command T c) := by
      simp [pendStep, hinv.unmasked.mpr hidle]
    exact ⟨bs ++ [.command c], s.command T c,
      exec_append.mpr ⟨s, hbs, exec_cons.mpr ⟨_, hstep, rfl⟩⟩, hidle, (c.erase_access T s.fw).1⟩
  | process =>
    obtain rfl := Option.some.inj ht
    exact ⟨bs ++ [.enter, .process, .leave], _,
      exec_append.mpr ⟨s, hbs, exec_processPending hidle⟩, rfl, (erase_processPending T s.fw).2⟩

/-- What holds of the pending list and the owners in every state reached. -/
theorem exists_represents {w₀ w : Fw ω} {as : List RegAction}
    (hrun : exec (regStep T) (virtDevInitAll T w₀) as = some w) :
    (∃ queue, Represents (pendingNodes T) w.links .vqueuePendingList queue) ∧
      Owned T T.count w := by
  obtain ⟨bs, s, hbs, -, rfl⟩ := exists_pend hrun
  obtain ⟨queue, hinv⟩ := exists_pendInv hbs
  exact ⟨⟨queue, hinv.represents⟩, hinv.owned⟩

/-! ### One access -/

/-- `wrCfg` is `virtDevWrCfgStub`, and `rdCfg` has no side effects. -/
structure DevTable.ReadOnlyCfg (T : DevTable ω) : Prop where
  wrCfg : ∀ d < T.count, ∀ off val x, (T.dev d).wrCfg off val x = x
  rdCfg : ∀ d < T.count, ∀ off x, ((T.dev d).rdCfg off x).2 = x

section Access

variable (w : Fw ω) {dev reg : U32} (val : U32)

private theorem regTarget_device (hd : dev.toNat < T.count) (htype : reg.toNat % 4 = 0) :
    regTarget T dev reg =
      (DevField.written (reg >>> 2).toNat).map fun f => .cell (.dev dev.toNat f) := by
  simp only [regTarget, if_pos hd, htype, toNat_shiftRight_two]

/-- What a queue register is for, by its number. -/
private theorem regTarget_queue (hq : T.HasQueue dev.toNat (reg.toNat / 4 % 128))
    (htype : reg.toNat % 4 = 2) :
    regTarget T dev reg =
      if (reg >>> 2 >>> 7).toNat = 3 then some (.notify dev.toNat (reg.toNat / 4 % 128))
      else (QueueField.written (reg >>> 2 >>> 7).toNat).map fun f =>
        .cell (.queue dev.toNat (reg.toNat / 4 % 128) f) := by
  simp only [regTarget, if_pos hq.1, htype, if_pos hq.2, toNat_queueRegister]

/-- The fields that can be written are fields of a device or a queue of the table. -/
theorem regTarget_cell {dev reg : U32} {c : RegCell} (h : regTarget T dev reg = some (.cell c)) :
    (∃ f, c = .dev dev.toNat f ∧ dev.toNat < T.count ∧ reg.toNat % 4 = 0 ∧
      DevField.written (reg >>> 2).toNat = some f) ∨
    ∃ f, c = .queue dev.toNat (reg.toNat / 4 % 128) f ∧
      T.HasQueue dev.toNat (reg.toNat / 4 % 128) ∧ reg.toNat % 4 = 2 ∧
      QueueField.written (reg >>> 2 >>> 7).toNat = some f := by
  rw [toNat_shiftRight_two, toNat_queueRegister]
  simp only [regTarget] at h
  by_cases hd : dev.toNat < T.count
  · rw [if_pos hd] at h
    split at h
    case h_1 htype =>
      left
      obtain ⟨f, hf, heq⟩ := Option.map_eq_some_iff.mp h
      exact ⟨f, (RegTarget.cell.inj heq).symm, hd, htype, hf⟩
    case h_2 htype =>
      right
      split_ifs at h with hq
      · cases h
      · obtain ⟨f, hf, heq⟩ := Option.map_eq_some_iff.mp h
        exact ⟨f, (RegTarget.cell.inj heq).symm, ⟨hd, hq⟩, htype, hf⟩
    case h_3 => cases h
  · rw [if_neg hd] at h
    cases h

/-- No device register, and no register of a queue that there is. -/
private theorem virtDevWriteReg_rest (hT : T.ReadOnlyCfg)
    (hdevice : ¬ (dev.toNat < T.count ∧ reg.toNat % 4 = 0))
    (hqueue : ¬ (T.HasQueue dev.toNat (reg.toNat / 4 % 128) ∧ reg.toNat % 4 = 2)) :
    virtDevWriteReg T w dev reg val = w ∧ regTarget T dev reg = none := by
  have htype : reg.toNat % 4 < 4 := Nat.mod_lt _ (by decide)
  simp only [virtDevWriteReg, virtManagerDecodeReg_eq, regTarget, virtDevGet]
  by_cases hd : dev.toNat < T.count
  · simp only [if_pos hd]
    rcases hr : reg.toNat % 4 with _ | _ | _ | _ | n
    · exact absurd ⟨hd, hr⟩ hdevice
    · refine ⟨?_, rfl⟩
      simp [hT.wrCfg _ hd]
    · have hq : ¬ reg.toNat / 4 % 128 < (T.dev dev.toNat).vqn := fun hq => hqueue ⟨⟨hd, hq⟩, hr⟩
      simp only [reduceCtorEq, if_false, virtDevQueueRegWrite, virtDevGetQueue, toNat_queueNumber,
        if_neg hq, and_self]
    · exact ⟨rfl, rfl⟩
    · omega
  · simp [hd]

/-- A write changes nothing, or what its number selects. -/
structure WriteIsolated (T : DevTable ω) (w : Fw ω) (dev reg val : U32) : Prop where
  /-- no device, no queue, a register that cannot be written, or none of a device or queue -/
  ignored : regTarget T dev reg = none → virtDevWriteReg T w dev reg val = w
  fields : ∀ c, regTarget T dev reg ≠ some (.cell c) →
    c.value (virtDevWriteReg T w dev reg val) = c.value w
  links : (∀ d q, regTarget T dev reg ≠ some (.notify d q)) →
    (virtDevWriteReg T w dev reg val).links = w.links
  /-- the queue notified is listed, behind the others -/
  notified : ∀ d q, regTarget T dev reg = some (.notify d q) → ∃ queue,
    Represents (pendingNodes T) w.links .vqueuePendingList queue ∧
      Represents (pendingNodes T) (virtDevWriteReg T w dev reg val).links .vqueuePendingList
        (if .vq d q ∈ queue then queue else queue ++ [.vq d q])
  virq : (virtDevWriteReg T w dev reg val).virq = w.virq
  ext : (virtDevWriteReg T w dev reg val).ext = w.ext

/-- A write to a device register changes the field that it selects. -/
private theorem writeIsolated_device (hd : dev.toNat < T.count) (htype : reg.toNat % 4 = 0) :
    WriteIsolated T w dev reg val := by
  have htarget := regTarget_device hd htype
  refine ⟨?_, ?_, ?_, ?_, ?_, ?_⟩
  all_goals rw [virtDevWriteReg_device w val hd htype]; try rw [htarget]
  · intro hnone
    rw [virtDevInternalRegWrite_of_none _ _ (Option.map_eq_none_iff.mp hnone)]
    simp [Fw.setDev]
  · intro c hc
    rcases c with ⟨d, f⟩ | ⟨d, q, f⟩
    · simp only [RegCell.value, Fw.setDev]
      rcases eq_or_ne d dev.toNat with rfl | hne
      · have hf : DevField.written (reg >>> 2).toNat ≠ some f := by
          intro hf
          exact hc (by rw [hf]; rfl)
        rw [Function.update_self, virtDevInternalRegWrite_value, if_neg hf]
      · rw [Function.update_of_ne hne]
    · rfl
  · intro _
    rfl
  · intro d q hnotify
    simp at hnotify
  · rfl
  · rfl

/-- A write to a queue register changes one field of one queue, or puts the queue on the list. -/
private theorem writeIsolated_queue (hq : T.HasQueue dev.toNat (reg.toNat / 4 % 128))
    (htype : reg.toNat % 4 = 2)
    (hrep : ∃ queue, Represents (pendingNodes T) w.links .vqueuePendingList queue) :
    WriteIsolated T w dev reg val := by
  have htarget := regTarget_queue hq htype
  have hnum : QueueRegisters.ofReg (reg >>> 2 >>> 7) = some .queueNotify ↔
      (reg >>> 2 >>> 7).toNat = 3 := QueueRegisters.ofReg_eq_some
  refine ⟨?_, ?_, ?_, ?_, ?_, ?_⟩
  all_goals rw [virtDevWriteReg_queue w val hq htype]; try rw [htarget]
  · intro hnone
    split_ifs at hnone with h3
    have hlinks := virtQueueRegWrite_links w.links (.vq dev.toNat (reg.toNat / 4 % 128))
      (w.vqs dev.toNat (reg.toNat / 4 % 128)) (reg >>> 2 >>> 7) val
    rw [if_neg (hnum.not.mpr h3)] at hlinks
    have hvq := virtQueueRegWrite_of_none w.links (.vq dev.toNat (reg.toNat / 4 % 128))
      (w.vqs dev.toNat (reg.toNat / 4 % 128)) val (Option.map_eq_none_iff.mp hnone)
    simp only [Fw.setQueue, hlinks, hvq, Function.update_eq_self]
  · intro c hc
    rcases c with ⟨d, f⟩ | ⟨d, q, f⟩
    · rfl
    · simp only [RegCell.value, Fw.setQueue_vqs]
      split_ifs with hdq
      · obtain ⟨rfl, rfl⟩ := hdq
        refine virtQueueRegWrite_other _ _ _ _ fun hf => ?_
        have h3 : (reg >>> 2 >>> 7).toNat ≠ 3 := by
          intro h3
          rw [h3] at hf
          cases hf
        exact hc (by rw [if_neg h3, hf]; rfl)
      · rfl
  · intro hnotify
    rw [Fw.setQueue_links, virtQueueRegWrite_links, if_neg]
    rw [hnum]
    intro h3
    exact hnotify _ _ (if_pos h3)
  · intro d q hnotify
    split_ifs at hnotify with h3
    · obtain ⟨rfl, rfl⟩ := RegTarget.notify.inj (Option.some.inj hnotify)
      obtain ⟨queue, hqueue⟩ := hrep
      refine ⟨queue, hqueue, ?_⟩
      rw [Fw.setQueue_links, virtQueueRegWrite_links, if_pos (hnum.mpr h3)]
      exact represents_listAppendIfNotEmbedded hqueue (mem_pendingNodes hq) (by simp)
    · simp at hnotify
  · rfl
  · rfl

/-- **A write** changes what its number selects, and nothing else. -/
theorem writeIsolated (hT : T.ReadOnlyCfg)
    (hrep : ∃ queue, Represents (pendingNodes T) w.links .vqueuePendingList queue) :
    WriteIsolated T w dev reg val := by
  by_cases hdevice : dev.toNat < T.count ∧ reg.toNat % 4 = 0
  · exact writeIsolated_device w val hdevice.1 hdevice.2
  by_cases hqueue : T.HasQueue dev.toNat (reg.toNat / 4 % 128) ∧ reg.toNat % 4 = 2
  · exact writeIsolated_queue w val hqueue.1 hqueue.2 hrep
  obtain ⟨hwrite, htarget⟩ := virtDevWriteReg_rest w val hT hdevice hqueue
  refine ⟨fun _ => hwrite, ?_, ?_, ?_, ?_, ?_⟩
  · intro c _
    rw [hwrite]
  · intro _
    rw [hwrite]
  · intro d q hnotify
    rw [htarget] at hnotify
    cases hnotify
  · rw [hwrite]
  · rw [hwrite]

/-- A read acknowledges one interrupt bank, or changes nothing. -/
structure ReadIsolated (T : DevTable ω) (w : Fw ω) (dev reg : U32) : Prop where
  bank : ∀ m b, ReadsBank m b reg → (virtDevReadReg T w dev reg).2 = { w with
    virq := { w.virq with
      pendingVirq := Function.update w.virq.pendingVirq m
        (Function.update (w.virq.pendingVirq m) b 0)
      trace := w.virq.trace ++ [.get m b] } }
  other : (∀ m b, ¬ ReadsBank m b reg) → (virtDevReadReg T w dev reg).2 = w

/-- **A read** changes nothing but the interrupt bank that it acknowledges. -/
theorem readIsolated (hT : T.ReadOnlyCfg) : ReadIsolated T w dev reg where
  bank m b h := by rw [virtDevReadReg_bank T w dev h]
  other h := by
    by_cases htype : reg.toNat % 4 = 3
    · exact virtDevReadReg_other T w dev htype h
    · have hlt : reg.toNat % 4 < 4 := Nat.mod_lt _ (by decide)
      simp only [virtDevReadReg, virtManagerDecodeReg_eq, virtDevGet]
      rcases hr : reg.toNat % 4 with _ | _ | _ | _ | n
      · by_cases hd : dev.toNat < T.count <;> simp [hd]
      · by_cases hd : dev.toNat < T.count
        · simp [hd, hT.rdCfg _ hd]
        · simp [hd]
      · by_cases hd : dev.toNat < T.count <;> simp [hd]
      · exact absurd hr htype
      · omega

/-- So no field that can be written is changed by a read. -/
theorem readReg_value (hT : T.ReadOnlyCfg) (dev reg : U32) (c : RegCell) :
    c.value (virtDevReadReg T w dev reg).2 = c.value w := by
  have hiso : ReadIsolated T w dev reg := readIsolated w hT
  by_cases hbank : ∃ m b, ReadsBank m b reg
  · obtain ⟨m, b, hb⟩ := hbank
    rw [hiso.bank m b hb]
    rfl
  · rw [hiso.other fun m b hb => hbank ⟨m, b, hb⟩]

end Access

/-! ### Reading back -/

/-- The device's `prQueue` leaves all registers alone, and all queues but the positions and the
private word of the one it processes. -/
def DevClass.KeepsSetup (cls : DevClass ω) : Prop :=
  ∀ v q w, (cls.prQueue v q w).devs = w.devs ∧
    ∀ d i, if (d, i) = q then ((cls.prQueue v q w).vqs d i).SameSetup (w.vqs d i)
      else (cls.prQueue v q w).vqs d i = w.vqs d i

/-- The registers that hold the last value written. -/
def RegCell.Plain : RegCell → Prop
  | dev _ _ => True
  | queue _ _ f => f.Plain

/-- A value as a field keeps it. -/
def RegCell.cut (val : U32) : RegCell → U32
  | dev _ f => f.cut val
  | queue _ _ _ => val

variable (T) in
/-- The value that an action writes to a field, if it does. -/
def RegAction.writes (c : RegCell) : RegAction → Option U32
  | .access (.writeReg dev reg val) =>
      if regTarget T dev reg = some (.cell c) then some val else none
  | _ => none

variable (T) in
/-- The last value written to a field. -/
def lastWritten (c : RegCell) (as : List RegAction) : Option U32 :=
  as.foldl (fun last a => (a.writes T c).or last) none

private theorem lastWritten_append (c : RegCell) (as : List RegAction) (a : RegAction) :
    lastWritten T c (as ++ [a]) = (a.writes T c).or (lastWritten T c as) := by
  rw [lastWritten, List.foldl_append]
  rfl

/-- After a write a plain field holds the value, and its register reads as the field. -/
theorem virtDevWriteReg_plain (w : Fw ω) {dev reg : U32} (val : U32) {c : RegCell} (hc : c.Plain)
    (h : regTarget T dev reg = some (.cell c)) :
    c.value (virtDevWriteReg T w dev reg val) = c.cut val ∧
      (virtDevReadReg T w dev reg).1 = c.value w := by
  rcases regTarget_cell h with ⟨f, rfl, hd, htype, hf⟩ | ⟨f, rfl, hq, htype, hf⟩
  · rw [virtDevWriteReg_device w val hd htype, virtDevReadReg_device w hd htype]
    simp only [RegCell.value, Fw.setDev, Function.update_self, RegCell.cut]
    rw [virtDevInternalRegWrite_value, if_pos hf]
    exact ⟨rfl, virtDevInternalRegRead_value _ _ hf⟩
  · rw [virtDevWriteReg_queue w val hq htype, virtDevReadReg_queue w hq htype]
    simp only [RegCell.value, Fw.setQueue_vqs, and_self, if_true, RegCell.cut]
    exact virtQueueRegWrite_plain _ _ _ val hc hf

/-- Processing leaves the state alone, or calls a device's `prQueue` with a queue of its own. -/
private theorem virtManagerProcessPending_cases {w : Fw ω}
    (hrep : ∃ queue, Represents (pendingNodes T) w.links .vqueuePendingList queue)
    (howned : Owned T T.count w) :
    (virtManagerProcessPending T w).2 = w ∨ ∃ d q, T.HasQueue d q ∧
      (virtManagerProcessPending T w).2 =
        (T.dev d).prQueue d (d, q) { w with links := listRemove w.links (.vq d q) } := by
  obtain ⟨queue, hqueue⟩ := hrep
  rcases queue with _ | ⟨n, rest⟩
  · left
    rw [virtManagerProcessPending_of_nil T hqueue]
  · right
    rcases n with _ | ⟨d, q⟩
    · exact absurd (List.mem_cons_self ..) hqueue.notMem_head
    · have hq : T.HasQueue d q := hasQueue_of_mem (hqueue.mem _ (by simp))
      refine ⟨d, q, hq, ?_⟩
      rw [virtManagerProcessPending_of_cons T hqueue, virtQueueOwner_eq T howned hq]

/-- Processing leaves all registers alone, and all queues but their positions and private words. -/
theorem virtManagerProcessPending_setup (hkeeps : ∀ d < T.count, (T.dev d).KeepsSetup) {w : Fw ω}
    (hrep : ∃ queue, Represents (pendingNodes T) w.links .vqueuePendingList queue)
    (howned : Owned T T.count w) :
    (virtManagerProcessPending T w).2.devs = w.devs ∧
      ∀ d q, ((virtManagerProcessPending T w).2.vqs d q).SameSetup (w.vqs d q) := by
  rcases virtManagerProcessPending_cases hrep howned with heq | ⟨d, q, hq, heq⟩
  · rw [heq]
    exact ⟨rfl, fun d q => .refl _⟩
  · obtain ⟨hdevs, hvqs⟩ := hkeeps d hq.1 d (d, q) { w with links := listRemove w.links (.vq d q) }
    rw [heq]
    refine ⟨hdevs, ?_⟩
    intro d' q'
    have hvq := hvqs d' q'
    split_ifs at hvq
    · exact hvq
    · rw [hvq]
      exact .refl _

theorem VirtQueue.SameSetup.value {vq vq' : VirtQueue} (h : vq.SameSetup vq') {f : QueueField}
    (hf : f.Plain) : f.value vq = f.value vq' := by
  obtain ⟨_, _, _, rfl⟩ := h
  cases f <;> first | rfl | exact hf.elim

/-- The registers of plain fields read as the last value written, or zero. -/
def ReadsBack (T : DevTable ω) (w : Fw ω) (as : List RegAction) : Prop :=
  ∀ dev reg c, regTarget T dev reg = some (.cell c) → c.Plain →
    (virtDevReadReg T w dev reg).1 = c.cut ((lastWritten T c as).getD 0)

/-- After initialization all fields that can be written are zero. -/
private theorem virtDevInitAll_value (w : Fw ω) {dev reg : U32} {c : RegCell}
    (h : regTarget T dev reg = some (.cell c)) : c.value (virtDevInitAll T w) = 0 := by
  rcases regTarget_cell h with ⟨f, rfl, hd, -, hf⟩ | ⟨f, rfl, hq, -, hf⟩
  · obtain ⟨id, hid⟩ := (initDevs_clear (T := T) hd _).dev
    unfold DevField.written at hf
    rw [RegCell.value, virtDevInitAll, hid]
    split at hf <;> cases hf <;> simp [DevField.value]
  · obtain ⟨owner, id, priv, hvq⟩ := (initDevs_clear (T := T) hq.1 _).queue _ hq.2
    unfold QueueField.written at hf
    rw [RegCell.value, virtDevInitAll, hvq]
    split at hf <;> cases hf <;> rfl

/-- A plain field holds the last value written to it. -/
private theorem value_eq_lastWritten (hT : T.ReadOnlyCfg)
    (hkeeps : ∀ d < T.count, (T.dev d).KeepsSetup) {w₀ w : Fw ω} {as : List RegAction}
    (hrun : exec (regStep T) (virtDevInitAll T w₀) as = some w) {dev reg : U32} {c : RegCell}
    (htarget : regTarget T dev reg = some (.cell c)) (hc : c.Plain) :
    c.value w = c.cut ((lastWritten T c as).getD 0) := by
  have hstep : ∀ w as a t, ((∃ bs, exec (regStep T) (virtDevInitAll T w₀) bs = some w) ∧
      c.value w = c.cut ((lastWritten T c as).getD 0)) → regStep T w a = some t →
      (∃ bs, exec (regStep T) (virtDevInitAll T w₀) bs = some t) ∧
        c.value t = c.cut ((lastWritten T c (as ++ [a])).getD 0) := by
    rintro w as a t ⟨⟨bs, hbs⟩, hvalue⟩ hstep
    refine ⟨Reachable.tail ⟨bs, hbs⟩ hstep, ?_⟩
    obtain ⟨hrep, howned⟩ := exists_represents hbs
    rw [lastWritten_append]
    rcases a with ⟨⟨dev', reg'⟩ | ⟨dev', reg', val⟩⟩ | _
    · obtain rfl := Option.some.inj hstep
      exact (readReg_value w hT dev' reg' c).trans hvalue
    · obtain rfl := Option.some.inj hstep
      have hiso : WriteIsolated T w dev' reg' val := writeIsolated w val hT hrep
      by_cases hwrite : regTarget T dev' reg' = some (.cell c)
      · rw [RegAction.writes, if_pos hwrite]
        exact (virtDevWriteReg_plain w val hc hwrite).1
      · rw [RegAction.writes, if_neg hwrite]
        exact (hiso.fields c hwrite).trans hvalue
    · obtain rfl := Option.some.inj hstep
      have hsetup := virtManagerProcessPending_setup hkeeps hrep howned
      refine Eq.trans ?_ hvalue
      rcases c with ⟨d, f⟩ | ⟨d, q, f⟩
      · rw [RegCell.value, hsetup.1, RegCell.value]
      · exact (hsetup.2 d q).value hc
  have hboot : c.value (virtDevInitAll T w₀) = c.cut ((lastWritten T c []).getD 0) := by
    rw [virtDevInitAll_value w₀ htarget]
    rcases c with ⟨d, f⟩ | _
    · cases f <;> rfl
    · rfl
  exact (exec_history_invariant hstep ⟨⟨[], rfl⟩, hboot⟩ hrun).2

/-- **The register map** of a table whose configuration space is read-only, in every state that
accesses and queue processing lead to: writes and reads are isolated, and the registers of plain
fields read back as long as processing a queue keeps its setup. -/
theorem registerFile (hT : T.ReadOnlyCfg) (w₀ w : Fw ω) (as : List RegAction)
    (hrun : exec (regStep T) (virtDevInitAll T w₀) as = some w) :
    (∀ dev reg val, WriteIsolated T w dev reg val) ∧ (∀ dev reg, ReadIsolated T w dev reg) ∧
      ((∀ d < T.count, (T.dev d).KeepsSetup) → ReadsBack T w as) := by
  obtain ⟨hrep, -⟩ := exists_represents hrun
  refine ⟨fun dev reg val => writeIsolated w val hT hrep, fun dev reg => readIsolated w hT, ?_⟩
  intro hkeeps dev reg c htarget hc
  rw [(virtDevWriteReg_plain w 0 hc htarget).2]
  exact value_eq_lastWritten hT hkeeps hrun htarget hc

/-! ### The table of the firmware -/

/-- The configuration spaces of the devices cannot be written. -/
theorem deviceTable_readOnlyCfg (env : Env) (sectors : Option U32) (fuel : ℕ) :
    (deviceTable env sectors fuel).ReadOnlyCfg where
  wrCfg d _ off val x := by
    simp only [deviceTable]
    split_ifs <;> rfl
  rdCfg d _ off x := by
    simp only [deviceTable]
    split_ifs <;> rfl

/-- A processing loop leaves the setup of its queue alone. -/
private theorem Vdev.toClass_keepsSetup (dev : Vdev) (env : Env) (sectors : Option U32) (fuel : ℕ) :
    (dev.toClass env sectors fuel).KeepsSetup := by
  intro v q w
  refine ⟨rfl, ?_⟩
  intro d i
  have hsetup := iterate_sameSetup dev env (w.devs v).id (enter ⟨0, 0, 0⟩ (w.ctx q)) fuel
  simp only [Vdev.toClass, Vdev.callback, Fw.withCtx]
  split_ifs with hq
  · subst hq
    rw [Function.update_self, Function.update_self]
    exact hsetup
  · by_cases hd : d = q.1
    · have hi : i ≠ q.2 := fun hi => hq (by rw [hd, hi])
      subst hd
      rw [Function.update_self, Function.update_of_ne hi]
    · rw [Function.update_of_ne hd]

/-- Neither device changes the configuration of a queue when it processes it. -/
theorem deviceTable_keepsSetup (env : Env) (sectors : Option U32) (fuel : ℕ) :
    ∀ d < (deviceTable env sectors fuel).count,
      ((deviceTable env sectors fuel).dev d).KeepsSetup := by
  intro d _
  simp only [deviceTable]
  split_ifs
  · exact Vdev.toClass_keepsSetup .hwrngDevice env sectors fuel
  · exact Vdev.toClass_keepsSetup .sdmcDevice env sectors fuel

/-- The block device is given a status, then its queue is notified and processed: the status
reads back, cut to 16 bits. -/
theorem registerFile_status :
    ∃ w, exec (regStep (deviceTable zeroEnv (some 0) 2))
        (virtDevInitAll (deviceTable zeroEnv (some 0) 2) powerOn)
        [.access (.writeReg 1 8 0x12345), .access (.writeReg 1 0x602 0), .process] = some w ∧
      (∀ dev reg val, WriteIsolated (deviceTable zeroEnv (some 0) 2) w dev reg val) ∧
      (∀ dev reg, ReadIsolated (deviceTable zeroEnv (some 0) 2) w dev reg) ∧
      (virtDevReadReg (deviceTable zeroEnv (some 0) 2) w 1 8).1 = 0x2345 := by
  obtain ⟨hwrite, hread, hback⟩ :=
    registerFile (deviceTable_readOnlyCfg zeroEnv (some 0) 2) powerOn _
    [.access (.writeReg 1 8 0x12345), .access (.writeReg 1 0x602 0), .process] rfl
  have hstatus := hback (deviceTable_keepsSetup zeroEnv (some 0) 2) 1 8 (.dev 1 .status) (by decide)
    trivial
  exact ⟨_, rfl, hwrite, hread, hstatus.trans (by decide)⟩

end Arm9LinuxFw
