import Arm9LinuxFw.Manager.Registers
import Arm9LinuxFw.Rings.Layout

/-!
# Queue sizes and readiness

What the queue registers promise about a queue over whole runs, and where they fall short.

* `VirtQueue.SizeLegal` is a size in range: what is read from `QueueNumCurrent` is a power of two of
  at most `VIRTQUEUE_MAX_DESC`, and so are the places in the rings and the descriptors it lets
  through. The size is checked when it is written, but zero passes the check, since it is a power of
  two to the test, and makes a mask of all ones (`virtQueueSetDescCount_sizeLegal`).
* A queue has to have a size when it is made ready, but its size can be taken away afterwards, and
  then it cannot be made unready either, as that is the same register (`virtDevWriteReg_ready`).
* Each contract has a step lemma that says which one write breaks it, and holds of a run if and
  only if no step of the run is such a write: `queueSizes_iff` (`SetsNoZeroSize`) and
  `readyConfigured_iff` (`KeepsReadySize`). The condition is on the access and on the state before
  it, and the runs have processing of the queues in them.
* `queueSizes_zero` and `readyConfigured_resized` are the shortest runs that break them.
-/

namespace Arm9LinuxFw

open CircularList Transition

variable {ω : Type*} {T : DevTable ω}

/-! ### The size of a queue -/

/-- The size of a queue is in range, as are all slots and descriptors it lets through. -/
structure VirtQueue.SizeLegal (vq : VirtQueue) : Prop where
  /-- as read from `QueueNumCurrent` -/
  current : ∃ k ≤ 15, (virtQueueRegRead vq 1).toNat = 2 ^ k
  /-- positions in the rings are masked -/
  slot : ∀ i : U16, (i &&& vq.sizeMask).toNat < VIRTQUEUE_MAX_DESC.toNat
  /-- indices of descriptors are compared -/
  desc : ∀ i : U16, i ≤ vq.sizeMask → i.toNat < VIRTQUEUE_MAX_DESC.toNat

/-- What is read from `QueueNumCurrent` is the size. -/
private theorem toNat_queueNumCurrent (vq : VirtQueue) :
    (virtQueueRegRead vq 1).toNat = vq.size := by
  have hlt := vq.sizeMask.isLt
  change (vq.sizeMask.setWidth 32 + 1).toNat = _
  rw [BitVec.toNat_add, BitVec.toNat_setWidth]
  change (_ + 1) % _ = _
  rw [VirtQueue.size]
  omega

/-- Legal sizes are the powers of two up to the maximum. -/
private theorem VirtQueue.sizeLegal_iff {vq : VirtQueue} :
    vq.SizeLegal ↔ ∃ k ≤ 15, vq.size = 2 ^ k := by
  constructor
  · intro h
    rw [← toNat_queueNumCurrent]
    exact h.current
  · rintro ⟨k, hk, hsize⟩
    have hpow : 2 ^ k ≤ 2 ^ 15 := Nat.pow_le_pow_right (by decide) hk
    refine ⟨⟨k, hk, by rw [toNat_queueNumCurrent, hsize]⟩, ?_, ?_⟩
    · intro i
      rw [SizePow2.toNat_and ⟨k, hsize⟩, hsize]
      exact lt_of_lt_of_le (Nat.mod_lt _ (Nat.two_pow_pos k)) hpow
    · intro i hi
      have hle : i.toNat < vq.size := Nat.lt_succ_of_le (BitVec.le_def.mp hi)
      exact lt_of_lt_of_le (hsize ▸ hle) hpow

private theorem toNat_sub_one {x : U32} (hx : x ≠ 0) : (x - 1).toNat = x.toNat - 1 := by
  have hpos : x.toNat ≠ 0 := fun h => hx (BitVec.eq_of_toNat_eq h)
  exact BitVec.toNat_sub_of_le (BitVec.le_def.mpr (Nat.one_le_iff_ne_zero.mpr hpos))

/-- Of the numbers that are not zero, `INT_IS_POW2` accepts the powers of two. -/
private theorem intIsPow2_iff {x : U32} (hx : x ≠ 0) : intIsPow2 x ↔ x.toNat.isPowerOfTwo := by
  have hpos : x.toNat ≠ 0 := fun h => hx (BitVec.eq_of_toNat_eq h)
  rw [← Nat.and_sub_one_eq_zero_iff_isPowerOfTwo hpos, intIsPow2, beq_iff_eq, ← toNat_sub_one hx,
    ← BitVec.toNat_and]
  exact ⟨fun h => by rw [h]; rfl, fun h => BitVec.eq_of_toNat_eq h⟩

section SetDescCount

variable (vq : VirtQueue) {val : U32}

/-- A size that passes the checks becomes the size of the queue. -/
theorem virtQueueSetDescCount_of_pow2 (hval : val ≠ 0)
    (h : val ≤ VIRTQUEUE_MAX_DESC ∧ intIsPow2 val) :
    (virtQueueSetDescCount vq val).size = val.toNat := by
  have hle : val.toNat ≤ 32768 := BitVec.le_def.mp h.1
  have hpos : val.toNat ≠ 0 := fun h => hval (BitVec.eq_of_toNat_eq h)
  rw [virtQueueSetDescCount, if_pos h]
  change ((val - 1).setWidth 16).toNat + 1 = _
  rw [BitVec.toNat_setWidth, toNat_sub_one hval]
  omega

/-- So does zero, of all values: the mask is then `0xFFFF`. -/
theorem virtQueueSetDescCount_zero : (virtQueueSetDescCount vq 0).size = 2 ^ 16 := rfl

/-- Any other size is rejected, which leaves a single entry. -/
theorem virtQueueSetDescCount_of_not (h : ¬ (val ≤ VIRTQUEUE_MAX_DESC ∧ intIsPow2 val)) :
    (virtQueueSetDescCount vq val).size = 1 := by
  rw [virtQueueSetDescCount, if_neg h]
  rfl

/-- The size is legal after a write unless the value was 0. -/
private theorem virtQueueSetDescCount_sizeLegal :
    (virtQueueSetDescCount vq val).SizeLegal ↔ val ≠ 0 := by
  rw [VirtQueue.sizeLegal_iff]
  constructor
  · rintro ⟨k, hk, hsize⟩ rfl
    rw [virtQueueSetDescCount_zero] at hsize
    have := Nat.pow_right_injective le_rfl hsize
    omega
  · intro hval
    by_cases h : val ≤ VIRTQUEUE_MAX_DESC ∧ intIsPow2 val
    · obtain ⟨k, hk⟩ := (intIsPow2_iff hval).mp h.2
      have hle : 2 ^ k ≤ 2 ^ 15 := hk ▸ BitVec.le_def.mp h.1
      exact ⟨k, (Nat.pow_le_pow_iff_right (by decide)).mp hle,
        (virtQueueSetDescCount_of_pow2 vq hval h).trans hk⟩
    · exact ⟨0, Nat.zero_le _, virtQueueSetDescCount_of_not vq h⟩

/-- The queue has a size, after a write of zero as after one of a power of two from 2 on. -/
theorem virtQueueSetDescCount_sizeMask : 0 < (virtQueueSetDescCount vq val).sizeMask ↔
    val ≠ 1 ∧ val ≤ VIRTQUEUE_MAX_DESC ∧ intIsPow2 val := by
  have hmask (vq : VirtQueue) : 0 < vq.sizeMask ↔ 1 < vq.size := by
    rw [BitVec.lt_def, VirtQueue.size]
    exact Nat.succ_lt_succ_iff.symm
  rw [hmask]
  by_cases h : val ≤ VIRTQUEUE_MAX_DESC ∧ intIsPow2 val
  · rw [and_iff_left h]
    by_cases hval : val = 0
    · subst hval
      rw [virtQueueSetDescCount_zero]
      decide
    · rw [virtQueueSetDescCount_of_pow2 vq hval h]
      have hpos : val.toNat ≠ 0 := fun h => hval (BitVec.eq_of_toNat_eq h)
      have hone : val = 1 ↔ val.toNat = 1 := BitVec.toNat_eq
      rw [Ne, hone]
      omega
  · rw [virtQueueSetDescCount_of_not vq h]
    exact iff_of_false (lt_irrefl 1) fun hval => h hval.2

end SetDescCount

/-! ### Size and readiness under one step -/

section Step

variable {w : Fw ω} {dev reg : U32} {d q : ℕ}

/-- A write that selects a field of a queue is one of that queue's registers. -/
theorem virtDevWriteReg_vqs (w : Fw ω) (val : U32) {f : QueueField}
    (h : regTarget T dev reg = some (.cell (.queue d q f))) :
    T.HasQueue d q ∧ ∃ num : U32, QueueField.written num.toNat = some f ∧
      (virtDevWriteReg T w dev reg val).vqs d q =
        (virtQueueRegWrite w.links (.vq d q) (w.vqs d q) num val).2 := by
  rcases regTarget_cell h with ⟨f', heq, -⟩ | ⟨f', heq, hq, htype, hf⟩
  · cases heq
  · obtain ⟨rfl, rfl, rfl⟩ := RegCell.queue.inj heq
    refine ⟨hq, reg >>> 2 >>> 7, hf, ?_⟩
    rw [virtDevWriteReg_queue w val hq htype, Fw.setQueue_vqs, if_pos ⟨rfl, rfl⟩]

/-- The write that sets a size. -/
private theorem virtDevWriteReg_sizeMask (w : Fw ω) (val : U32)
    (h : regTarget T dev reg = some (.cell (.queue d q .sizeMask))) :
    (virtDevWriteReg T w dev reg val).vqs d q = virtQueueSetDescCount (w.vqs d q) val := by
  obtain ⟨-, num, hnum, heq⟩ := virtDevWriteReg_vqs w val h
  have hreg : QueueRegisters.ofReg num = some .queueNumCurrent :=
    QueueRegisters.ofReg_eq_some.mpr (QueueField.written_inj hnum rfl)
  simp only [heq, virtQueueRegWrite, hreg]

/-- The write that makes a queue ready takes effect only if the mask is not 0. -/
private theorem virtDevWriteReg_ready (w : Fw ω) (val : U32)
    (h : regTarget T dev reg = some (.cell (.queue d q .ready))) :
    (virtDevWriteReg T w dev reg val).vqs d q =
      if 0 < (w.vqs d q).sizeMask then { w.vqs d q with ready := val.setWidth 1 }
      else w.vqs d q := by
  obtain ⟨-, num, hnum, heq⟩ := virtDevWriteReg_vqs w val h
  have hreg : QueueRegisters.ofReg num = some .queueReady :=
    QueueRegisters.ofReg_eq_some.mpr (QueueField.written_inj hnum rfl)
  simp only [heq, virtQueueRegWrite, hreg]

/-- What a step can do to the size and the readiness of a queue: nothing, or it is a write of
`QueueNumCurrent` or of `QueueReady`. -/
theorem regStep_queue (hT : T.ReadOnlyCfg) (hkeeps : ∀ d < T.count, (T.dev d).KeepsSetup)
    (hrep : ∃ queue, Represents (pendingNodes T) w.links .vqueuePendingList queue)
    (howned : Owned T T.count w) {t : Fw ω} {a : RegAction} (hstep : regStep T w a = some t)
    (d q : ℕ) :
    ((t.vqs d q).sizeMask = (w.vqs d q).sizeMask ∧ (t.vqs d q).ready = (w.vqs d q).ready) ∨
      (∃ dev reg val, a = .access (.writeReg dev reg val) ∧
        regTarget T dev reg = some (.cell (.queue d q .sizeMask)) ∧
        t.vqs d q = virtQueueSetDescCount (w.vqs d q) val) ∨
      0 < (w.vqs d q).sizeMask ∧ ∃ ready, t.vqs d q = { w.vqs d q with ready := ready } := by
  rcases a with ⟨⟨dev, reg⟩ | ⟨dev, reg, val⟩⟩ | _
  all_goals obtain rfl := Option.some.inj hstep
  · left
    rw [PxiCmd.access, (readReg_links T w dev reg).2]
    exact ⟨rfl, rfl⟩
  · by_cases hsize : regTarget T dev reg = some (.cell (.queue d q .sizeMask))
    · exact Or.inr (Or.inl ⟨dev, reg, val, rfl, hsize, virtDevWriteReg_sizeMask w val hsize⟩)
    by_cases hready : regTarget T dev reg = some (.cell (.queue d q .ready))
    · have hwrite := virtDevWriteReg_ready w val hready
      rw [PxiCmd.access]
      split_ifs at hwrite with hmask
      · exact Or.inr (Or.inr ⟨hmask, _, hwrite⟩)
      · exact Or.inl (by rw [hwrite]; exact ⟨rfl, rfl⟩)
    · have hiso : WriteIsolated T w dev reg val := writeIsolated w val hT hrep
      have hmask := congrArg (BitVec.setWidth 16) (hiso.fields _ hsize)
      have hrdy := congrArg (BitVec.setWidth 1) (hiso.fields _ hready)
      simp only [RegCell.value, QueueField.value, BitVec.setWidth_setWidth_of_le,
        Nat.reduceLeDiff, BitVec.setWidth_eq] at hmask hrdy
      exact Or.inl ⟨hmask, hrdy⟩
  · obtain ⟨_, _, _, hsame⟩ := (virtManagerProcessPending_setup hkeeps hrep howned).2 d q
    exact Or.inl (by rw [hsame]; exact ⟨rfl, rfl⟩)

end Step

/-- Runs whose steps meet a condition under which every reachable state keeps `I`. -/
theorem along_invariant {I : Fw ω → Prop} {P : Fw ω → RegAction → Prop}
    (hstep : ∀ w a t, (∃ queue, Represents (pendingNodes T) w.links .vqueuePendingList queue) →
      Owned T T.count w → I w → P w a → regStep T w a = some t → I t)
    {w₀ : Fw ω} (hboot : I (virtDevInitAll T w₀)) {as : List RegAction}
    (h : Along (regStep T) P (virtDevInitAll T w₀) as) :
    Along (regStep T) (fun w a => ∀ t, regStep T w a = some t → I t) (virtDevInitAll T w₀) as := by
  have hnext : ∀ w a t, Reachable (regStep T) (virtDevInitAll T w₀) w ∧ I w → P w a →
      regStep T w a = some t → Reachable (regStep T) (virtDevInitAll T w₀) t ∧ I t := by
    rintro w a t ⟨⟨bs, hbs⟩, hI⟩ hP ht
    obtain ⟨hrep, howned⟩ := exists_represents hbs
    exact ⟨Reachable.tail ⟨bs, hbs⟩ ht, hstep w a t hrep howned hI hP ht⟩
  exact h.imp_of_invariant hnext (fun w a hw hP t ht => (hnext w a t hw hP ht).2)
    ⟨.refl _, hboot⟩

/-! ### Sizes stay legal -/

/-- All queues have a legal size. -/
def SizesLegal (T : DevTable ω) (w : Fw ω) : Prop := ∀ d q, T.HasQueue d q → (w.vqs d q).SizeLegal

variable (T) in
/-- The action does not write zero to the `QueueNumCurrent` of a queue that there is. -/
def SetsNoZeroSize : RegAction → Prop
  | .access (.writeReg dev reg val) =>
      val = 0 → ∀ d q, regTarget T dev reg ≠ some (.cell (.queue d q .sizeMask))
  | _ => True

/-- A step after which all sizes are legal has not set one to zero. -/
private theorem setsNoZeroSize_of_legal {w : Fw ω} {a : RegAction}
    (h : ∀ t, regStep T w a = some t → SizesLegal T t) : SetsNoZeroSize T a := by
  rcases a with ⟨_ | ⟨dev, reg, val⟩⟩ | _
  · trivial
  · rintro rfl d q htarget
    obtain ⟨hq, -⟩ := virtDevWriteReg_vqs w 0 htarget
    have hlegal := h _ rfl d q hq
    rw [PxiCmd.access, virtDevWriteReg_sizeMask w 0 htarget,
      virtQueueSetDescCount_sizeLegal] at hlegal
    exact hlegal rfl
  · trivial

theorem VirtQueue.SizeLegal.congr {vq vq' : VirtQueue} (h : vq.SizeLegal)
    (hmask : vq'.sizeMask = vq.sizeMask) : vq'.SizeLegal := by
  rw [VirtQueue.sizeLegal_iff, VirtQueue.size, hmask]
  exact VirtQueue.sizeLegal_iff.mp h

/-- **One step** keeps the sizes legal unless it is a write of 0. -/
private theorem sizesLegal_step (hT : T.ReadOnlyCfg) (hkeeps : ∀ d < T.count, (T.dev d).KeepsSetup)
    {w t : Fw ω} {a : RegAction}
    (hrep : ∃ queue, Represents (pendingNodes T) w.links .vqueuePendingList queue)
    (howned : Owned T T.count w) (h : SizesLegal T w) (ha : SetsNoZeroSize T a)
    (hstep : regStep T w a = some t) : SizesLegal T t := by
  intro d q hq
  obtain ⟨hmask, -⟩ | ⟨dev, reg, val, rfl, htarget, heq⟩ | ⟨-, _, heq⟩ :=
    regStep_queue hT hkeeps hrep howned hstep d q
  · exact (h d q hq).congr hmask
  · rw [heq, virtQueueSetDescCount_sizeLegal]
    exact fun hval => ha hval d q htarget
  · rw [heq]
    exact (h d q hq).congr rfl

/-- They are legal at the start: every queue has one entry. -/
private theorem sizesLegal_boot (w : Fw ω) : SizesLegal T (virtDevInitAll T w) := by
  intro d q hq
  obtain ⟨_, _, _, hvq⟩ := (initDevs_clear (T := T) hq.1 _).queue q hq.2
  rw [virtDevInitAll, hvq, VirtQueue.sizeLegal_iff]
  exact ⟨0, Nat.zero_le _, rfl⟩

/-- **Queue sizes** stay legal in a run from initialization if and only if no queue is given the
size zero in it. -/
theorem queueSizes_iff (env : Env) (sectors : Option U32) (fuel : ℕ) (w₀ : Fw World)
    (as : List RegAction) :
    Along (regStep (deviceTable env sectors fuel))
        (fun w a => ∀ t, regStep (deviceTable env sectors fuel) w a = some t →
          SizesLegal (deviceTable env sectors fuel) t)
        (virtDevInitAll (deviceTable env sectors fuel) w₀) as ↔
      ∀ a ∈ as, SetsNoZeroSize (deviceTable env sectors fuel) a := by
  have htotal (w : Fw World) (a : RegAction) :
      (regStep (deviceTable env sectors fuel) w a).isSome := by
    cases a <;> rfl
  rw [← along_const htotal]
  constructor
  · exact Along.imp fun w a => setsNoZeroSize_of_legal
  · refine along_invariant (fun w a t hrep howned hlegal ha ht => ?_) (sizesLegal_boot w₀)
    exact sizesLegal_step (deviceTable_readOnlyCfg env sectors fuel)
      (deviceTable_keepsSetup env sectors fuel) hrep howned hlegal ha ht

/-- The driver of the entropy source writes zero to `QueueNumCurrent`, and reads 65536. -/
theorem queueSizes_zero :
    ∃ w, exec (regStep (deviceTable zeroEnv (some 0) 0))
        (virtDevInitAll (deviceTable zeroEnv (some 0) 0) powerOn)
        [.access (.writeReg 0 0x202 0)] = some w ∧
      ¬ SizesLegal (deviceTable zeroEnv (some 0) 0) w ∧
      (virtDevReadReg (deviceTable zeroEnv (some 0) 0) w 0 0x202).1 = 65536 ∧
      virtQueueRegRead (w.vqs 0 0) 0 = 32768 := by
  refine ⟨_, rfl, ?_, by decide, by decide⟩
  intro hlegal
  have hslot := (hlegal 0 0 ⟨by decide, by decide⟩).slot 0xFFFF
  exact absurd hslot (by decide)

/-! ### Ready queues stay configured -/

/-- A ready queue has a size, and every queue can be made unready. -/
def ReadyConfigured (T : DevTable ω) (w : Fw ω) : Prop :=
  ∀ d q, T.HasQueue d q →
    ((w.vqs d q).ready = 1 → 0 < (w.vqs d q).sizeMask) ∧
    ∀ dev reg, regTarget T dev reg = some (.cell (.queue d q .ready)) →
      ((virtDevWriteReg T w dev reg 0).vqs d q).ready = 0

/-- Can be made unready: this follows, since the guard lets the write through. -/
theorem readyConfigured_of_sizeMask {w : Fw ω}
    (h : ∀ d q, T.HasQueue d q → (w.vqs d q).ready = 1 → 0 < (w.vqs d q).sizeMask) :
    ReadyConfigured T w := by
  intro d q hq
  refine ⟨h d q hq, ?_⟩
  intro dev reg htarget
  rw [virtDevWriteReg_ready w 0 htarget]
  split_ifs with hsize
  · rfl
  · have hready : (w.vqs d q).ready ≠ 1 := fun h1 => hsize (h d q hq h1)
    exact (BitVec.eq_zero_or_eq_one _).resolve_right hready

variable (T) in
/-- The action does not write to the `QueueNumCurrent` of a ready queue a value that leaves it
without a size, or with a single entry. -/
def KeepsReadySize (w : Fw ω) : RegAction → Prop
  | .access (.writeReg dev reg val) =>
      ∀ d q, regTarget T dev reg = some (.cell (.queue d q .sizeMask)) →
        (w.vqs d q).ready = 1 → val ≠ 1 ∧ val ≤ VIRTQUEUE_MAX_DESC ∧ intIsPow2 val
  | _ => True

/-- A size may be set while the queue is ready. -/
private theorem virtQueueSetDescCount_ready (vq : VirtQueue) (val : U32) :
    (virtQueueSetDescCount vq val).ready = vq.ready := by
  rw [virtQueueSetDescCount]
  split_ifs <;> rfl

/-- A step after which all ready queues have a size took none away. -/
private theorem keepsReadySize_of_configured {w : Fw ω} {a : RegAction}
    (h : ∀ t, regStep T w a = some t → ReadyConfigured T t) : KeepsReadySize T w a := by
  rcases a with ⟨_ | ⟨dev, reg, val⟩⟩ | _
  · trivial
  · intro d q htarget hready
    obtain ⟨hq, -⟩ := virtDevWriteReg_vqs w val htarget
    have hsize := (h _ rfl d q hq).1
    rw [PxiCmd.access, virtDevWriteReg_sizeMask w val htarget, virtQueueSetDescCount_ready] at hsize
    exact (virtQueueSetDescCount_sizeMask _).mp (hsize hready)
  · trivial

/-- **One step** that takes the size of no ready queue away keeps them all configured. -/
private theorem readyConfigured_step (hT : T.ReadOnlyCfg)
    (hkeeps : ∀ d < T.count, (T.dev d).KeepsSetup)
    {w t : Fw ω} {a : RegAction}
    (hrep : ∃ queue, Represents (pendingNodes T) w.links .vqueuePendingList queue)
    (howned : Owned T T.count w) (h : ReadyConfigured T w) (ha : KeepsReadySize T w a)
    (hstep : regStep T w a = some t) : ReadyConfigured T t := by
  refine readyConfigured_of_sizeMask fun d q hq => ?_
  obtain ⟨hmask, hready⟩ | ⟨dev, reg, val, rfl, htarget, heq⟩ | ⟨hmask, _, heq⟩ :=
    regStep_queue hT hkeeps hrep howned hstep d q
  · rw [hmask, hready]
    exact (h d q hq).1
  · rw [heq, virtQueueSetDescCount_ready, virtQueueSetDescCount_sizeMask]
    exact ha d q htarget
  · rw [heq]
    exact fun _ => hmask

private theorem readyConfigured_boot (w : Fw ω) : ReadyConfigured T (virtDevInitAll T w) := by
  refine readyConfigured_of_sizeMask fun d q hq hready => ?_
  obtain ⟨_, _, _, hvq⟩ := (initDevs_clear (T := T) hq.1 _).queue q hq.2
  rw [virtDevInitAll, hvq] at hready
  cases hready

/-- **Ready queues** stay configured in a run from initialization if and only if no ready queue
is given a size in it that is rejected, or of a single entry. -/
theorem readyConfigured_iff (env : Env) (sectors : Option U32) (fuel : ℕ) (w₀ : Fw World)
    (as : List RegAction) :
    Along (regStep (deviceTable env sectors fuel))
        (fun w a => ∀ t, regStep (deviceTable env sectors fuel) w a = some t →
          ReadyConfigured (deviceTable env sectors fuel) t)
        (virtDevInitAll (deviceTable env sectors fuel) w₀) as ↔
      Along (regStep (deviceTable env sectors fuel)) (KeepsReadySize (deviceTable env sectors fuel))
        (virtDevInitAll (deviceTable env sectors fuel) w₀) as := by
  constructor
  · exact Along.imp fun w a => keepsReadySize_of_configured
  · refine along_invariant (fun w a t hrep howned hready ha ht => ?_) (readyConfigured_boot w₀)
    exact readyConfigured_step (deviceTable_readOnlyCfg env sectors fuel)
      (deviceTable_keepsSetup env sectors fuel) hrep howned hready ha ht

/-- The size of the ready queue of the entropy source is set to 1: it stays ready without a size,
and a write of zero to `QueueReady` does not change that. -/
theorem readyConfigured_resized :
    ∃ w, exec (regStep (deviceTable zeroEnv (some 0) 0))
        (virtDevInitAll (deviceTable zeroEnv (some 0) 0) powerOn)
        [.access (.writeReg 0 0x202 2), .access (.writeReg 0 0x402 1),
          .access (.writeReg 0 0x202 1)] = some w ∧
      ¬ ReadyConfigured (deviceTable zeroEnv (some 0) 0) w ∧
      (w.vqs 0 0).ready = 1 ∧ (w.vqs 0 0).sizeMask = 0 ∧
      ((virtDevWriteReg (deviceTable zeroEnv (some 0) 0) w 0 0x402 0).vqs 0 0).ready = 1 := by
  refine ⟨_, rfl, ?_, by decide, by decide, by decide⟩
  intro hready
  have hsize := (hready 0 0 ⟨by decide, by decide⟩).1 (by decide)
  exact absurd hsize (by decide)

end Arm9LinuxFw
