import Arm9LinuxFw.Vdev.Table
import Arm9LinuxFw.Process.Frame
import Arm9LinuxFw.Manager.RegMap
import Arm9LinuxFw.Lib.History
import Mathlib.Tactic.FinCases

/-!
# Delivery of virtual interrupts

Devices notify the host with `virtDevNotifyHost`; the host acknowledges with reads of manager
registers, which return and clear a bank of pending bits.

* `irqStep` is any order of the two, notifications with whatever device and mode, and reads of any
  registers. `Notifies` and `Acknowledges` say which bit an action is about.
* `virtDevNotifyHost_of_valid` and `virtDevNotifyHost_of_invalid` are the two cases of a
  notification: a bit is set and the host triggered, or nothing happens.
* `ReadsBank` is the register of a bank, for each mode. No two banks have the same one
  (`ReadsBank.unique`).
* `IrqInv` says what holds between operations: the event flag is down, every bit set is followed by
  a trigger, and the pending bits are the notifications not yet read. It has one lemma for a
  notification and two for reads, of a bank and of anything else.

`interrupts_delivered` is the contract: a read returns exactly the notifications since the last
read of that register, and the host has been triggered after every bit that is pending was set, but
never without one.
-/

namespace Arm9LinuxFw

open Transition History

/-- What is done: a device notifies the host, or the host reads a manager register. -/
inductive IrqAction
  | notify (devId mode : U32)
  | read (dev reg : U32)
  deriving DecidableEq

variable {ω : Type*} (T : DevTable ω)

/-- One action; a register is read only if it is a manager register (type 3). -/
def irqStep (w : Fw ω) : IrqAction → Option (Fw ω)
  | .notify devId mode => some { w with virq := virtDevNotifyHost w.virq devId mode }
  | .read dev reg => if reg.toNat % 4 = 3 then some (virtDevReadReg T w dev reg).2 else none

/-- `reg` is the manager register `8 + b` or `12 + b` that reads bank `b` of a mode. -/
def ReadsBank (m : Fin VIRQ_MODES) (b : Fin VIRQ_BANKS) (reg : U32) : Prop :=
  reg.toNat % 4 = 3 ∧ reg.toNat / 4 = 8 + 4 * m.val + b.val

/-- The action notifies in mode `m`, for device `32 * b + i`. -/
def Notifies (m : Fin VIRQ_MODES) (b : Fin VIRQ_BANKS) (i : ℕ) (a : IrqAction) : Prop :=
  ∃ devId mode, a = .notify devId mode ∧ devId.toNat = 32 * b.val + i ∧ mode.toNat = m.val

/-- The action reads bank `b` of mode `m`. -/
def Acknowledges (m : Fin VIRQ_MODES) (b : Fin VIRQ_BANKS) (a : IrqAction) : Prop :=
  ∃ dev reg, a = .read dev reg ∧ ReadsBank m b reg

/-- The event sets bit `i` of bank `b` of mode `m`. -/
def SetsBit (m : Fin VIRQ_MODES) (b : Fin VIRQ_BANKS) (i : ℕ) (e : VirtIrqEvent) : Prop :=
  ∃ bits, e = .set m b bits ∧ bits.getLsbD i

/-- The event sets a bit. -/
def Sets (e : VirtIrqEvent) : Prop := ∃ m b bits, e = .set m b bits

/-! ### Notifying -/

/-- A notification that names a device and a mode: its bit is set, and the host is told. -/
theorem virtDevNotifyHost_of_valid (s : VirtIrq) {devId mode : U32} {m : Fin VIRQ_MODES}
    {b : Fin VIRQ_BANKS} (hm : mode.toNat = m.val) (hb : devId.toNat / 32 = b.val) :
    virtDevNotifyHost s devId mode =
      { eventVirq := 0
        pendingVirq := Function.update s.pendingVirq m (Function.update (s.pendingVirq m) b
          (s.pendingVirq m b ||| bit 32 (devId.toNat % 32)))
        trace := s.trace ++ [.set m b (bit 32 (devId.toNat % 32))] ++ [.trigger] } := by
  have hbank : (devId / 32).toNat = b.val := by rw [BitVec.toNat_udiv, ← hb]; rfl
  have hoff : (devId % 32).toNat = devId.toNat % 32 := by rw [BitVec.toNat_umod]; rfl
  have hvalid : (devId / 32).toNat < VIRQ_BANKS ∧ mode.toNat < VIRQ_MODES := by
    rw [hbank, hm]
    exact ⟨b.isLt, m.isLt⟩
  have hbfin : (⟨(devId / 32).toNat, hvalid.1⟩ : Fin VIRQ_BANKS) = b := Fin.ext hbank
  have hmfin : (⟨mode.toNat, hvalid.2⟩ : Fin VIRQ_MODES) = m := Fin.ext hm
  simp only [virtDevNotifyHost, virtIrqSet, dif_pos hvalid, hbfin, hmfin, hoff, virtIrqSync,
    eventTest, eventTrigger]
  simp

/-- A notification that names none does nothing, if the event flag is down. -/
theorem virtDevNotifyHost_of_invalid (s : VirtIrq) {devId mode : U32} (hev : s.eventVirq = 0)
    (h : 128 ≤ devId.toNat ∨ 2 ≤ mode.toNat) : virtDevNotifyHost s devId mode = s := by
  have hinvalid : ¬ ((devId / 32).toNat < VIRQ_BANKS ∧ mode.toNat < VIRQ_MODES) := by
    have hbank : (devId / 32).toNat = devId.toNat / 32 := by rw [BitVec.toNat_udiv]; rfl
    rw [hbank]
    simp only [VIRQ_BANKS, VIRQ_MODES]
    omega
  rw [virtDevNotifyHost, virtIrqSet, dif_neg hinvalid, virtIrqSync, eventTest]
  obtain ⟨ev, pending, trace⟩ := s
  obtain rfl : ev = 0 := hev
  rfl

/-! ### Reading -/

/-- Reading the register of a bank returns and clears it, and touches nothing else. -/
theorem virtDevReadReg_bank (w : Fw ω) (dev : U32) {reg : U32} {m : Fin VIRQ_MODES}
    {b : Fin VIRQ_BANKS} (h : ReadsBank m b reg) :
    virtDevReadReg T w dev reg = (w.virq.pendingVirq m b,
      { w with virq := { w.virq with
          pendingVirq := Function.update w.virq.pendingVirq m
            (Function.update (w.virq.pendingVirq m) b 0)
          trace := w.virq.trace ++ [.get m b] } }) := by
  have hnum : reg >>> 2 = BitVec.ofNat 32 (8 + 4 * m.val + b.val) := by
    refine BitVec.eq_of_toNat_eq ?_
    rw [toNat_shiftRight_two, BitVec.toNat_ofNat]
    have := h.2
    omega
  rw [virtDevReadReg, virtManagerDecodeReg_of_manager h.1, hnum]
  fin_cases m <;> fin_cases b <;> rfl

/-- Reading any other manager register changes nothing. -/
theorem virtDevReadReg_other (w : Fw ω) (dev : U32) {reg : U32} (htype : reg.toNat % 4 = 3)
    (h : ∀ m b, ¬ ReadsBank m b reg) : (virtDevReadReg T w dev reg).2 = w := by
  have hrange : ¬ (8 ≤ reg.toNat / 4 ∧ reg.toNat / 4 < 16) := by
    rintro ⟨hlo, hhi⟩
    refine h ⟨(reg.toNat / 4 - 8) / 4, ?_⟩ ⟨(reg.toNat / 4 - 8) % 4, ?_⟩ ⟨htype, ?_⟩
    · simp only [VIRQ_MODES]
      omega
    · simp only [VIRQ_BANKS]
      omega
    · simp only
      omega
  rw [virtDevReadReg, virtManagerDecodeReg_of_manager htype]
  simp only [if_true, virtManagerRegRead, toNat_shiftRight_two]
  split
  case h_1 | h_2 | h_11 => rfl
  all_goals omega

/-! ### The invariant -/

/-- What holds between operations, after the actions `as`. -/
structure IrqInv (s : VirtIrq) (as : List IrqAction) : Prop where
  /-- nothing is left for the next `virtIrqSync` to tell -/
  event : s.eventVirq = 0
  /-- the pending bits are the notifications not yet read -/
  pending : ∀ m b, ∀ i < 32, (s.pendingVirq m b).getLsbD i ↔
    Since (Notifies m b i) (Acknowledges m b) as
  /-- a bit that is pending was set, and the host triggered since it was last set -/
  signalled : ∀ m b, ∀ i < 32, (s.pendingVirq m b).getLsbD i →
    (∃ e ∈ s.trace, SetsBit m b i e) ∧ Since (· = .trigger) (SetsBit m b i) s.trace
  /-- a trigger comes only after something was set since the trigger before -/
  economical : ∀ pre post, s.trace = pre ++ .trigger :: post → Since Sets (· = .trigger) pre

private theorem irqInv_reset : IrqInv virtIrqReset [] where
  event := rfl
  pending m b i _ := by simp [virtIrqReset]
  signalled m b i _ h := by simp [virtIrqReset] at h
  economical pre post h := by simp [virtIrqReset] at h

/-- One bank of one mode replaced. -/
theorem update_bank_apply (p : Fin VIRQ_MODES → Fin VIRQ_BANKS → U32) (m m' : Fin VIRQ_MODES)
    (b b' : Fin VIRQ_BANKS) (v : U32) :
    Function.update p m (Function.update (p m) b v) m' b' =
      if m' = m ∧ b' = b then v else p m' b' := by
  rcases eq_or_ne m' m with rfl | hm
  · rcases eq_or_ne b' b with rfl | hb
    · simp
    · simp [hb]
  · simp [hm]

/-- A register number selects one bank at most. -/
theorem ReadsBank.unique {m m' : Fin VIRQ_MODES} {b b' : Fin VIRQ_BANKS} {reg : U32}
    (h : ReadsBank m b reg) (h' : ReadsBank m' b' reg) : m' = m ∧ b' = b := by
  have heq := h.2.symm.trans h'.2
  have hb := b.isLt
  have hb' := b'.isLt
  simp only [VIRQ_BANKS] at hb hb'
  exact ⟨Fin.ext (by omega), Fin.ext (by omega)⟩

/-- A notification counts for its own interrupt, and changes nothing for the others. -/
theorem since_notify (as : List IrqAction) (devId mode : U32) (m : Fin VIRQ_MODES)
    (b : Fin VIRQ_BANKS) (i : ℕ) :
    Since (Notifies m b i) (Acknowledges m b) (as ++ [.notify devId mode]) ↔
      (devId.toNat = 32 * b.val + i ∧ mode.toNat = m.val) ∨
        Since (Notifies m b i) (Acknowledges m b) as := by
  rw [since_append_singleton]
  simp [Notifies, Acknowledges]

/-- The bits after a notification of `devId` in mode `m`, whose bank is `b`. -/
private theorem getLsbD_notified (s : VirtIrq) {devId mode : U32} {m m' : Fin VIRQ_MODES}
    {b b' : Fin VIRQ_BANKS} (hm : mode.toNat = m.val) (hb : devId.toNat / 32 = b.val) {i : ℕ}
    (hi : i < 32) :
    ((if m' = m ∧ b' = b then s.pendingVirq m b ||| bit 32 (devId.toNat % 32)
        else s.pendingVirq m' b').getLsbD i ↔
      (devId.toNat = 32 * b'.val + i ∧ mode.toNat = m'.val) ∨
        (s.pendingVirq m' b').getLsbD i) := by
  split_ifs with hmb
  · obtain ⟨rfl, rfl⟩ := hmb
    rw [BitVec.getLsbD_or, bit_getLsbD hi, Bool.or_eq_true, decide_eq_true_eq, or_comm]
    exact or_congr_left ⟨fun hik => ⟨by omega, hm⟩, fun hik => by omega⟩
  · refine (or_iff_right fun hik => hmb ⟨Fin.ext ?_, Fin.ext ?_⟩).symm
    · omega
    · omega

/-- A notification of a device that there is. -/
private theorem IrqInv.notify_of_valid {s : VirtIrq} {as : List IrqAction} (h : IrqInv s as)
    {devId mode : U32} {m : Fin VIRQ_MODES} {b : Fin VIRQ_BANKS} (hm : mode.toNat = m.val)
    (hb : devId.toNat / 32 = b.val) :
    IrqInv (virtDevNotifyHost s devId mode) (as ++ [.notify devId mode]) := by
  rw [virtDevNotifyHost_of_valid s hm hb]
  -- the trace grows by the bit set and the trigger, in this order
  refine ⟨rfl, ?_, ?_, ?_⟩
  · intro m' b' i hi
    simp only [update_bank_apply]
    rw [getLsbD_notified s hm hb hi, since_notify, h.pending m' b' i hi]
  · intro m' b' i hi hpend
    simp only [update_bank_apply] at hpend
    rw [getLsbD_notified s hm hb hi] at hpend
    constructor
    · rcases hpend with hpend | hpend
      · refine ⟨.set m b (bit 32 (devId.toNat % 32)), by simp, bit 32 (devId.toNat % 32), ?_, ?_⟩
        · rw [show m' = m from Fin.ext (by omega), show b' = b from Fin.ext (by omega)]
        · rw [bit_getLsbD hi, decide_eq_true_eq]
          omega
      · obtain ⟨e, he, hset⟩ := (h.signalled m' b' i hi hpend).1
        exact ⟨e, List.mem_append_left _ (List.mem_append_left _ he), hset⟩
    · exact since_append_singleton.mpr (Or.inl rfl)
  · intro pre post heq
    rcases append_singleton_eq_append_cons heq with ⟨rfl, -, -⟩ | ⟨post', heq', -⟩
    · exact since_append_singleton.mpr (Or.inl ⟨_, _, _, rfl⟩)
    · rcases append_singleton_eq_append_cons heq' with ⟨-, hne, -⟩ | ⟨post'', heq'', -⟩
      · cases hne
      · exact h.economical pre post'' heq''

/-- **A notification** keeps the invariant, whether or not it names a device and a mode. -/
theorem IrqInv.notify {s : VirtIrq} {as : List IrqAction} (h : IrqInv s as) (devId mode : U32) :
    IrqInv (virtDevNotifyHost s devId mode) (as ++ [.notify devId mode]) := by
  by_cases hvalid : devId.toNat < 128 ∧ mode.toNat < 2
  · exact h.notify_of_valid (m := ⟨_, hvalid.2⟩)
      (b := ⟨devId.toNat / 32, by simp only [VIRQ_BANKS]; omega⟩) rfl rfl
  · have hinvalid : 128 ≤ devId.toNat ∨ 2 ≤ mode.toNat := by omega
    rw [virtDevNotifyHost_of_invalid s h.event hinvalid]
    refine ⟨h.event, ?_, h.signalled, h.economical⟩
    intro m b i hi
    rw [h.pending m b i hi, since_notify, or_iff_right]
    rintro ⟨hdev, hmode⟩
    have hm := m.isLt
    have hb := b.isLt
    simp only [VIRQ_MODES, VIRQ_BANKS] at hm hb
    omega

/-- A read of any other register leaves the pending bits. -/
private theorem IrqInv.read_other {s : VirtIrq} {as : List IrqAction} (h : IrqInv s as)
    {dev reg : U32}
    (hother : ∀ m b, ¬ ReadsBank m b reg) : IrqInv s (as ++ [.read dev reg]) where
  event := h.event
  pending m b i hi := by
    have hnot : ¬ Notifies m b i (.read dev reg) := by simp [Notifies]
    have hack : ¬ Acknowledges m b (.read dev reg) := by
      rintro ⟨_, _, heq, hbank⟩
      obtain ⟨-, rfl⟩ := IrqAction.read.inj heq
      exact hother m b hbank
    rw [since_append_singleton, or_iff_right hnot, and_iff_right hack]
    exact h.pending m b i hi
  signalled := h.signalled
  economical := h.economical

/-- **A read of a bank** acknowledges what it returns. -/
theorem IrqInv.get {s : VirtIrq} {as : List IrqAction} (h : IrqInv s as) {m : Fin VIRQ_MODES}
    {b : Fin VIRQ_BANKS} {dev reg : U32} (hbank : ReadsBank m b reg) :
    IrqInv { s with
        pendingVirq := Function.update s.pendingVirq m (Function.update (s.pendingVirq m) b 0)
        trace := s.trace ++ [.get m b] } (as ++ [.read dev reg]) := by
  refine ⟨h.event, ?_, ?_, ?_⟩
  · intro m' b' i hi
    simp only [update_bank_apply]
    rw [since_append_singleton]
    have hack : Acknowledges m' b' (.read dev reg) ↔ m' = m ∧ b' = b := by
      constructor
      · rintro ⟨_, _, heq, hbank'⟩
        obtain ⟨-, rfl⟩ := IrqAction.read.inj heq
        exact hbank.unique hbank'
      · rintro ⟨rfl, rfl⟩
        exact ⟨dev, reg, rfl, hbank⟩
    have hnot : ¬ Notifies m' b' i (.read dev reg) := by simp [Notifies]
    rw [hack, or_iff_right hnot]
    split_ifs with hmb
    · simp [hmb]
    · rw [h.pending m' b' i hi, and_iff_right hmb]
  · intro m' b' i hi hpend
    have hold : (s.pendingVirq m' b').getLsbD i := by
      simp only [update_bank_apply] at hpend
      split_ifs at hpend
      · simp at hpend
      · exact hpend
    obtain ⟨⟨e, he, hset⟩, hsince⟩ := h.signalled m' b' i hi hold
    refine ⟨⟨e, List.mem_append_left _ he, hset⟩, since_append_singleton.mpr (Or.inr ⟨?_, hsince⟩)⟩
    simp [SetsBit]
  · intro pre post heq
    rcases append_singleton_eq_append_cons heq with ⟨-, hne, -⟩ | ⟨post', heq', -⟩
    · cases hne
    · exact h.economical pre post' heq'

/-- One step keeps the invariant. -/
private theorem irqInv_step {w t : Fw ω} {as : List IrqAction} {a : IrqAction}
    (h : IrqInv w.virq as)
    (hstep : irqStep T w a = some t) : IrqInv t.virq (as ++ [a]) := by
  cases a with
  | notify devId mode =>
    obtain rfl := Option.some.inj hstep
    exact h.notify devId mode
  | read dev reg =>
    simp only [irqStep] at hstep
    split_ifs at hstep with htype
    obtain rfl := Option.some.inj hstep
    by_cases hbank : ∃ m b, ReadsBank m b reg
    · obtain ⟨m, b, hbank⟩ := hbank
      rw [virtDevReadReg_bank T w dev hbank]
      exact h.get hbank
    · -- the version, the number of devices, and the registers that read as zero
      have hother : ∀ m b, ¬ ReadsBank m b reg := fun m b hb => hbank ⟨m, b, hb⟩
      rw [virtDevReadReg_other T w dev htype hother]
      exact h.read_other hother

/-! ### The contract -/

/-- What the interrupt subsystem owes the host after the actions `as` since its reset. -/
structure Delivered (w : Fw ω) (as : List IrqAction) : Prop where
  /-- a register of a bank reads as the notifications since it was last read -/
  read : ∀ dev reg m b, ReadsBank m b reg → ∀ i < 32,
    ((virtDevReadReg T w dev reg).1.getLsbD i ↔ Since (Notifies m b i) (Acknowledges m b) as)
  /-- reading it clears this bank of this mode -/
  clears : ∀ dev reg m b, ReadsBank m b reg → ∀ m' b',
    (virtDevReadReg T w dev reg).2.virq.pendingVirq m' b' =
      if m' = m ∧ b' = b then 0 else w.virq.pendingVirq m' b'
  /-- reading any other manager register changes nothing -/
  reads_only : ∀ dev reg, reg.toNat % 4 = 3 → (∀ m b, ¬ ReadsBank m b reg) →
    (virtDevReadReg T w dev reg).2 = w
  /-- a notification of a device or a mode there is not changes and triggers nothing -/
  ignored : ∀ devId mode, 128 ≤ devId.toNat ∨ 2 ≤ mode.toNat →
    virtDevNotifyHost w.virq devId mode = w.virq
  /-- the host was triggered after a pending bit was last set -/
  signalled : ∀ m b, ∀ i < 32, (w.virq.pendingVirq m b).getLsbD i →
    (∃ e ∈ w.virq.trace, SetsBit m b i e) ∧ Since (· = .trigger) (SetsBit m b i) w.virq.trace
  /-- the host is triggered only after a notification since the trigger before -/
  economical : ∀ pre post, w.virq.trace = pre ++ .trigger :: post →
    Since Sets (· = .trigger) pre

/-- What the banks hold is what the host reads, and a read clears its own bank only. -/
private theorem IrqInv.delivered {w : Fw ω} {as : List IrqAction} (h : IrqInv w.virq as) :
    Delivered T w as where
  read dev reg m b hbank i hi := by
    rw [virtDevReadReg_bank T w dev hbank]
    exact h.pending m b i hi
  clears dev reg m b hbank m' b' := by
    rw [virtDevReadReg_bank T w dev hbank]
    exact update_bank_apply _ _ _ _ _ _
  reads_only dev reg htype hother := virtDevReadReg_other T w dev htype hother
  ignored devId mode hinvalid := virtDevNotifyHost_of_invalid w.virq h.event hinvalid
  signalled := h.signalled
  economical := h.economical

/-- **Virtual interrupts are delivered once, and never left unsignalled**: after any sequence
of notifications and manager register reads since `virtIrqReset`. -/
theorem interrupts_delivered {w₀ w : Fw ω} (h₀ : w₀.virq = virtIrqReset) {as : List IrqAction}
    (hrun : exec (irqStep T) w₀ as = some w) : Delivered T w as := by
  have hreset : IrqInv w₀.virq [] := by
    rw [h₀]
    exact irqInv_reset
  have hinv : IrqInv w.virq ([] ++ as) := exec_history_invariant
    (fun s h a t hs hstep => irqInv_step T hs hstep) hreset hrun
  exact hinv.delivered T

/-- Device 33 notifies, no device notifies, and the host reads bank 1 of the queue mode. -/
theorem interrupts_delivered_bank :
    ∃ w, exec (irqStep (deviceTable zeroEnv (some 0) 0)) powerOn
        [.notify 33 VIRQ_VQUEUE, .notify 128 VIRQ_VQUEUE, .read 0 39] = some w ∧
      Delivered (deviceTable zeroEnv (some 0) 0) w
        [.notify 33 VIRQ_VQUEUE, .notify 128 VIRQ_VQUEUE, .read 0 39] :=
  ⟨_, rfl, interrupts_delivered (deviceTable zeroEnv (some 0) 0) rfl rfl⟩

end Arm9LinuxFw
