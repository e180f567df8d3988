import Arm9LinuxFw.Manager.Boot

/-!
# Recording the calls of `prQueue`

What `virtManagerProcessPending` promises is about the calls it makes, and a state of the
firmware does not say which calls led to it. `DevTable.traced` turns a table into one whose
callbacks keep a record: entry `i` of the traced table runs the `prQueue` of entry `i` and then
appends to the history that entry `i` was called, with which device and with which queue. The
history is a part of the rest of the world, so a function of the firmware that runs over the
traced table can neither read it nor add to it, but by calling a callback of the table.

* **Definitions**: `PendEvent`, `Traced`, `DevClass.traced` and `DevTable.traced`.
* **The record is faithful**: erasing it (`Fw.erase`) takes a step over the traced table to the
  same step over the table itself, for the processing of a queue, for the initialization and for
  the register accesses (`erase_processPending`, `erase_initAll`, `erase_readReg`,
  `erase_writeReg`). What is proved of the traced firmware is therefore proved of the firmware.

Notifications enter the same history, so that the order of notifications and calls is in it;
they are recorded by the system of `Pending`, with the access that makes them.
-/

namespace Arm9LinuxFw

open CircularList

variable {ω ω' : Type*} (T : DevTable ω)

/-! ### The history -/

/-- What happens to the queues. -/
inductive PendEvent
  /-- a write of `QueueNotify` to queue `q` of device `d` took effect -/
  | notified (d q : ℕ)
  /-- the `prQueue` of entry `i` of the table ran, with device `v` and with queue `q` of device
  `d` -/
  | called (i v d q : ℕ)
  deriving DecidableEq

/-- The rest of the world with a history of what happened to the queues, oldest first. -/
structure Traced (ω : Type*) where
  world : ω
  history : List PendEvent

/-- The firmware over another rest of the world. -/
def Fw.withExt (w : Fw ω) (x : ω') : Fw ω' := ⟨w.devs, w.vqs, w.links, w.virq, x⟩

/-- The firmware without the history. -/
def Fw.erase (w : Fw (Traced ω)) : Fw ω := w.withExt w.ext.world

/-- The firmware with more events in its history. -/
def Fw.record (w : Fw (Traced ω)) (es : List PendEvent) : Fw (Traced ω) :=
  w.withExt { w.ext with history := w.ext.history ++ es }

@[simp] theorem Fw.withExt_links (w : Fw ω) (x : ω') : (w.withExt x).links = w.links := rfl
@[simp] theorem Fw.withExt_vqs (w : Fw ω) (x : ω') : (w.withExt x).vqs = w.vqs := rfl
@[simp] theorem Fw.withExt_ext (w : Fw ω) (x : ω') : (w.withExt x).ext = x := rfl

@[simp] theorem Fw.erase_record (w : Fw (Traced ω)) (es : List PendEvent) :
    (w.record es).erase = w.erase := rfl

/-! ### Traced tables -/

/-- The class of the device at place `i` of the table, with a record of its `prQueue` calls. -/
def DevClass.traced (cls : DevClass ω) (i : ℕ) : DevClass (Traced ω) where
  devId := cls.devId
  deviceFeat := cls.deviceFeat
  vqn := cls.vqn
  hardReset x := { x with world := cls.hardReset x.world }
  rdCfg off x := ((cls.rdCfg off x.world).1, { x with world := (cls.rdCfg off x.world).2 })
  wrCfg off val x := { x with world := cls.wrCfg off val x.world }
  prQueue v q w :=
    let w' := cls.prQueue v q w.erase
    (w'.withExt { w.ext with world := w'.ext }).record [.called i v q.1 q.2]
  prQueue_links v q w := cls.prQueue_links v q w.erase
  prQueue_owner v q w := cls.prQueue_owner v q w.erase

/-- The table with a record of all `prQueue` calls. -/
def DevTable.traced (T : DevTable ω) : DevTable (Traced ω) where
  count := T.count
  dev i := (T.dev i).traced i
  count_le := T.count_le
  vqn_le := T.vqn_le

/-- A call over the traced table is the call over the table, and one more entry of the history. -/
theorem DevTable.traced_prQueue (i v : ℕ) (q : ℕ × ℕ) (w : Fw (Traced ω)) :
    ((T.traced.dev i).prQueue v q w).erase = (T.dev i).prQueue v q w.erase ∧
      ((T.traced.dev i).prQueue v q w).ext.history =
        w.ext.history ++ [.called i v q.1 q.2] :=
  ⟨rfl, rfl⟩

/-! ### The record changes nothing -/

section Erase

variable (w : Fw (Traced ω))

private theorem erase_resetQueues (d n : ℕ) :
    (resetQueues d n w).erase = resetQueues d n w.erase ∧ (resetQueues d n w).ext = w.ext := by
  induction n with
  | zero => exact ⟨rfl, rfl⟩
  | succ n ih =>
    refine ⟨?_, ih.2⟩
    rw [resetQueues, resetQueues, ← ih.1]
    rfl

private theorem erase_initQueues (d n : ℕ) :
    (initQueues d n w).erase = initQueues d n w.erase ∧ (initQueues d n w).ext = w.ext := by
  induction n with
  | zero => exact ⟨rfl, rfl⟩
  | succ n ih =>
    refine ⟨?_, ih.2⟩
    rw [initQueues, initQueues, ← ih.1]
    rfl

/-- A reset is the same over the traced table, and leaves no entry in the history. -/
private theorem erase_reset (d : ℕ) :
    (virtDevReset T.traced d w).erase = virtDevReset T d w.erase ∧
      (virtDevReset T.traced d w).ext.history = w.ext.history := by
  obtain ⟨herase, hext⟩ := erase_resetQueues
    (w.setDev d { w.devs d with status := 0, cfg := 0, driverFeat := 0 }) d (T.traced.dev d).vqn
  have hhard (u : Fw (Traced ω)) : Fw.erase { u with ext := (T.traced.dev d).hardReset u.ext } =
      { u.erase with ext := (T.dev d).hardReset u.erase.ext } := rfl
  constructor
  · refine (hhard _).trans ?_
    rw [herase]
    rfl
  · have hhistory := congrArg Traced.history hext
    exact hhistory

/-- The initialization of a device is the same over the traced table. -/
private theorem erase_init (d : ℕ) :
    (virtDevInit T.traced d w).erase = virtDevInit T d w.erase ∧
      (virtDevInit T.traced d w).ext.history = w.ext.history := by
  obtain ⟨herase, hext⟩ :=
    erase_initQueues (w.setDev d { w.devs d with id := BitVec.ofNat 32 d }) d (T.dev d).vqn
  obtain ⟨hreset, hhistory⟩ := erase_reset T
    (initQueues d (T.dev d).vqn (w.setDev d { w.devs d with id := BitVec.ofNat 32 d })) d
  refine ⟨hreset.trans (congrArg (virtDevReset T d) herase), hhistory.trans ?_⟩
  exact congrArg Traced.history hext

/-- The initialization is the same over the traced table, and leaves no entry in the history. -/
theorem erase_initAll :
    (virtDevInitAll T.traced w).erase = virtDevInitAll T w.erase ∧
      (virtDevInitAll T.traced w).ext.history = w.ext.history := by
  have hdevs (n : ℕ) (v : Fw (Traced ω)) :
      (initDevs T.traced n v).erase = initDevs T n v.erase ∧
        (initDevs T.traced n v).ext.history = v.ext.history := by
    induction n with
    | zero => exact ⟨rfl, rfl⟩
    | succ n ih =>
      obtain ⟨herase, hhistory⟩ := erase_init T (initDevs T.traced n v) n
      exact ⟨herase.trans (congrArg (virtDevInit T n) ih.1), hhistory.trans ih.2⟩
  exact hdevs T.count _

/-- So is a read of a register. -/
theorem erase_readReg (dev reg : U32) :
    (virtDevReadReg T.traced w dev reg).1 = (virtDevReadReg T w.erase dev reg).1 ∧
      (virtDevReadReg T.traced w dev reg).2.erase = (virtDevReadReg T w.erase dev reg).2 ∧
        (virtDevReadReg T.traced w dev reg).2.ext.history = w.ext.history := by
  have hmanager (reg : U32) :
      (virtManagerRegRead T.traced w reg).1 = (virtManagerRegRead T w.erase reg).1 ∧
        (virtManagerRegRead T.traced w reg).2.erase = (virtManagerRegRead T w.erase reg).2 ∧
          (virtManagerRegRead T.traced w reg).2.ext.history = w.ext.history := by
    simp only [virtManagerRegRead]
    split <;> exact ⟨rfl, rfl, rfl⟩
  have hget : virtDevGet T.traced dev = virtDevGet T dev := rfl
  simp only [virtDevReadReg, hget]
  split_ifs
  · exact hmanager _
  · rcases virtDevGet T dev with _ | d
    · exact ⟨rfl, rfl, rfl⟩
    · rcases (virtManagerDecodeReg reg).1 <;> exact ⟨rfl, rfl, rfl⟩

/-- And a write, which records nothing by itself. -/
theorem erase_writeReg (dev reg val : U32) :
    (virtDevWriteReg T.traced w dev reg val).erase = virtDevWriteReg T w.erase dev reg val ∧
      (virtDevWriteReg T.traced w dev reg val).ext.history = w.ext.history := by
  have hget : virtDevGet T.traced dev = virtDevGet T dev := rfl
  have hqueue (d : ℕ) (vqn reg : U32) :
      (virtDevQueueRegWrite T.traced w d vqn reg val).erase =
          virtDevQueueRegWrite T w.erase d vqn reg val ∧
        (virtDevQueueRegWrite T.traced w d vqn reg val).ext.history = w.ext.history := by
    have hq : virtDevGetQueue (T.traced.dev d) vqn = virtDevGetQueue (T.dev d) vqn := rfl
    simp only [virtDevQueueRegWrite, hq]
    rcases virtDevGetQueue (T.dev d) vqn with _ | q <;> exact ⟨rfl, rfl⟩
  simp only [virtDevWriteReg, hget]
  split_ifs
  · exact ⟨rfl, rfl⟩
  · rcases virtDevGet T dev with _ | d
    · exact ⟨rfl, rfl⟩
    · rcases (virtManagerDecodeReg reg).1
      case queueReg => exact hqueue d _ _
      all_goals exact ⟨rfl, rfl⟩

/-- Processing a queue is the same over the traced table. -/
theorem erase_processPending :
    (virtManagerProcessPending T.traced w).1 = (virtManagerProcessPending T w.erase).1 ∧
      (virtManagerProcessPending T.traced w).2.erase =
        (virtManagerProcessPending T w.erase).2 := by
  have hlinks : w.erase.links = w.links := rfl
  simp only [virtManagerProcessPending, hlinks]
  split_ifs
  · exact ⟨rfl, rfl⟩
  · rcases listHead w.links .vqueuePendingList with _ | ⟨d, q⟩ <;> exact ⟨rfl, rfl⟩

end Erase

end Arm9LinuxFw
