import Arm9LinuxFw.Rings.Layout
import Arm9LinuxFw.Lib.Transition

/-!
# The used ring, between firmware and driver

The firmware pushes completed chains and the driver consumes them, in any order. Three
counters advance: the firmware's position `usedIdx`, cut back to at most the size at every
push, the counter `last` in the ring and the driver's own counter `seen`, both modulo
`2 ^ 16`.

* `UsedSys` pairs the queue and guest memory with the history of the entries pushed and read, and
  the driver's counter. A push needs a place that is free: the driver has not more requests
  outstanding than the ring has places.
* `UsedSys.Inv` ties all three counters to the history, each as its length modulo a period of its
  own, and says that the places of the ring hold the entries not yet read (`Window` of
  `Lib/RingBuffer`). A push and a consumption each have a step lemma.
* `usedAgreement` is its consequence for every run, wrap-around included: the driver reads exactly
  the entries pushed, in order, and finds the ring drained exactly when it has read them all.
-/

namespace Arm9LinuxFw

open RingBuffer Transition ByteMem

/-- Queue, guest memory, the driver's counter, and the history: entries pushed and entries
read, oldest first. -/
structure UsedSys where
  vq : VirtQueue
  mem : Mem
  seen : U16
  sent : List (U32 × U32)
  got : List (U32 × U32)

/-- What the two parties do. -/
inductive UsedAction
  | push (first : U16) (len : U32)
  | consume
  deriving DecidableEq

namespace UsedSys

/-- One action. The firmware pushes while fewer than `N` entries are unconsumed; the driver
reads the slot of its counter whenever the counter differs from `last`. -/
def step (s : UsedSys) : UsedAction → Option UsedSys
  | .push first len =>
      if s.sent.length < s.got.length + s.vq.size then
        let (m, vq) := virtQueuePushUsed s.mem s.vq first len
        some { s with vq := vq, mem := m, sent := s.sent ++ [(first.setWidth 32, len)] }
      else none
  | .consume =>
      if s.seen = vqUsedLast s.mem s.vq.qUsed then none
      else
        some { s with
          seen := s.seen + 1
          got := s.got ++ [vqUsedRing s.mem s.vq.qUsed (s.seen.toNat % s.vq.size)] }

/-- The state the two parties start in. -/
structure Initial (s : UsedSys) : Prop where
  sizePow2 : s.vq.SizePow2
  two_le_size : 2 ≤ s.vq.size
  size_le : s.vq.size ≤ 32768
  usedIdx : s.vq.usedIdx = 0
  last : vqUsedLast s.mem s.vq.qUsed = 0
  seen : s.seen = 0
  sent : s.sent = []
  got : s.got = []

/-- A ring of `mask + 1` entries at the start, in zeroed memory. -/
def boot (mask : U16) : UsedSys where
  vq := .configured mask 0x20000000 0x20100000 0x20200000
  mem _ := 0
  seen := 0
  sent := []
  got := []

/-! ### The ring is a window on the history -/

/-- The invariant: every counter is the length of its history modulo its period, and the
slots hold the entries not yet read. -/
structure Inv (s : UsedSys) : Prop where
  sizePow2 : s.vq.SizePow2
  size_le : s.vq.size ≤ 32768
  usedIdx : s.vq.usedIdx.toNat % s.vq.size = s.sent.length % s.vq.size
  last : (vqUsedLast s.mem s.vq.qUsed).toNat = s.sent.length % 2 ^ 16
  seen : s.seen.toNat = s.got.length % 2 ^ 16
  window : Window (vqUsedRing s.mem s.vq.qUsed) s.vq.size s.sent s.got

variable {s t : UsedSys}

/-- The history is empty at the start. -/
theorem Initial.inv (h : s.Initial) : s.Inv where
  sizePow2 := h.sizePow2
  size_le := h.size_le
  usedIdx := by simp [h.usedIdx, h.sent]
  last := by simp [h.last, h.sent]
  seen := by simp [h.seen, h.got]
  window := by
    rw [h.sent, h.got]
    exact .init _ _

theorem boot_initial {mask : U16} (hp : (boot mask).vq.SizePow2) (h2 : 0 < mask)
    (hle : mask < 32768) : (boot mask).Initial where
  sizePow2 := hp
  two_le_size := by
    change 2 ≤ mask.toNat + 1
    bv_omega
  size_le := by
    change mask.toNat + 1 ≤ 32768
    bv_omega
  usedIdx := rfl
  last := by simp [boot, vqUsedLast, Mem.read16]
  seen := rfl
  sent := rfl
  got := rfl

/-- The driver's counter agrees with `last` exactly when everything pushed was read: `last`
and `seen` are never a whole period apart. -/
theorem Inv.seen_eq_last_iff (h : s.Inv) :
    s.seen = vqUsedLast s.mem s.vq.qUsed ↔ s.got.length = s.sent.length := by
  have hN : s.vq.size < 2 ^ 16 := by
    have := h.size_le
    omega
  rw [← BitVec.toNat_inj, h.seen, h.last, h.window.counter_eq_iff hN]

/-- **A push** is one entry more that was sent, in the first free place. -/
theorem Inv.push (h : s.Inv) {first : U16} {len : U32} (ht : step s (.push first len) = some t) :
    t.Inv := by
  have hp := h.sizePow2
  have hlast := virtQueuePushUsed_last s.mem s.vq first len
  simp only [step] at ht
  split_ifs at ht with hroom
  rw [Option.some.injEq] at ht
  subst ht
  refine ⟨hp, h.size_le, ?_, ?_, h.seen, ?_⟩
  · change ((s.vq.usedIdx &&& s.vq.sizeMask) + 1).toNat % s.vq.size = _
    rw [hp.succ_mod, List.length_append, List.length_singleton, Nat.add_mod, h.usedIdx,
      ← Nat.add_mod]
    rfl
  · change (vqUsedLast (virtQueuePushUsed s.mem s.vq first len).1 s.vq.qUsed).toNat = _
    rw [hlast, BitVec.toNat_add, h.last, List.length_append, List.length_singleton]
    simp
  · refine h.window.put hroom ?_ ?_
    · change vqUsedRing (virtQueuePushUsed s.mem s.vq first len).1 s.vq.qUsed _ = _
      rw [virtQueuePushUsed_ring _ _ _ _ hp (Nat.mod_lt _ s.vq.size_pos), h.usedIdx, if_pos rfl]
    · intro k hk
      change vqUsedRing (virtQueuePushUsed s.mem s.vq first len).1 s.vq.qUsed _ = _
      rw [virtQueuePushUsed_ring _ _ _ _ hp (Nat.mod_lt _ s.vq.size_pos), h.usedIdx, if_neg hk]

/-- Reading an entry is one more that was got. -/
theorem Inv.consume (h : s.Inv) (ht : step s .consume = some t) : t.Inv := by
  simp only [step] at ht
  split_ifs at ht with hseen
  rw [Option.some.injEq] at ht
  subst ht
  have hlt : s.got.length < s.sent.length :=
    lt_of_le_of_ne h.window.length_le fun hl => hseen (h.seen_eq_last_iff.mpr hl)
  -- the size divides the period of the driver's counter
  have hslot : s.seen.toNat % s.vq.size = s.got.length % s.vq.size := by
    rw [h.seen, Nat.mod_mod_of_dvd _ h.sizePow2.dvd]
  refine ⟨h.sizePow2, h.size_le, h.usedIdx, h.last, ?_, ?_⟩
  · rw [BitVec.toNat_add, h.seen, List.length_append, List.length_singleton]
    simp
  · rw [hslot]
    exact h.window.take hlt

theorem inv_step (s : UsedSys) (a : UsedAction) (t : UsedSys) (h : s.Inv)
    (ht : step s a = some t) : t.Inv := by
  cases a with
  | push first len => exact h.push ht
  | consume => exact h.consume ht

end UsedSys

/-- **Used ring agreement.** In every run, whatever the order of pushes and consumptions, the
entries the driver has read are the first ones pushed, each once and in the order of the
pushes; and it finds nothing left to read exactly when it has read every one. -/
theorem usedAgreement (s t : UsedSys) (h : s.Initial) (as : List UsedAction)
    (ht : exec UsedSys.step s as = some t) :
    t.got <+: t.sent ∧ (t.seen = vqUsedLast t.mem t.vq.qUsed ↔ t.got = t.sent) := by
  have hinv : t.Inv := exec_invariant UsedSys.inv_step h.inv ht
  refine ⟨hinv.window.got_prefix, ?_⟩
  rw [hinv.seen_eq_last_iff, hinv.window.got_eq_iff]

/-- Three entries through a ring of two. -/
theorem usedAgreement_boot :
    ∃ t, exec UsedSys.step (UsedSys.boot 1)
      [.push 1 10, .push 2 20, .consume, .push 3 30, .consume, .consume] = some t ∧
      t.got = t.sent := by
  have hinit : (UsedSys.boot 1).Initial :=
    UsedSys.boot_initial ⟨1, rfl⟩ (by decide) (by decide)
  have hrun : (exec UsedSys.step (UsedSys.boot 1)
      [.push 1 10, .push 2 20, .consume, .push 3 30, .consume, .consume]).isSome := by decide
  obtain ⟨t, ht⟩ := Option.isSome_iff_exists.mp hrun
  refine ⟨t, ht, (usedAgreement _ _ hinit _ ht).2.mp ?_⟩
  have hseen : (exec UsedSys.step (UsedSys.boot 1)
      [.push 1 10, .push 2 20, .consume, .push 3 30, .consume, .consume]).all
      (fun t => t.seen = vqUsedLast t.mem t.vq.qUsed) := by decide
  rw [ht] at hseen
  simpa using hseen

end Arm9LinuxFw
