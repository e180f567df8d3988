import Arm9LinuxFw.Rings.Layout
import Arm9LinuxFw.Lib.Transition

/-!
# The available ring, between driver and firmware

The driver publishes heads and the firmware fetches them, in any order. The driver counts
modulo `2 ^ 16`; the firmware keeps its position only modulo the size of the queue and
compares the two positions modulo the size.

* `AvailSys` pairs the queue and guest memory with the history of the heads sent and returned, and
  `step` is a publication by the driver, which never has more heads outstanding than the ring has
  places, or a call of `virtQueueFetchAvailFirst`.
* `AvailSys.Inv` says that the ring is a window on that history (`Window` of `Lib/RingBuffer`): its
  places hold the heads sent and not yet returned. Each of the two actions has a step lemma.
* Positions modulo the size cannot tell a completely full ring from an empty one, so this is
  where the agreement fails: `Inv.fetch` needs a ring that is not full.
* `Agreement` is what both sides expect of a run: every call returns the oldest head, or -1 when
  none is outstanding, so the heads returned are those sent, in order. `availAgreement_iff` shows
  that a run keeps it exactly when the firmware never fetches from a full ring, and
  `availAgreement_full` is the shortest run that does not.
-/

namespace Arm9LinuxFw

open RingBuffer Transition ByteMem

/-- The driver's publication of a head: store it in the slot of the counter `last`, then move
the counter on. -/
def driverPublish (m : Mem) (vq : VirtQueue) (head : U16) : Mem :=
  let last := vqAvailLast m vq.qAvail
  let m := m.write16 (vq.qAvail + BitVec.ofNat 32 (4 + 2 * (last.toNat % vq.size))) head
  m.write16 (vq.qAvail + BitVec.ofNat 32 2) (last + 1)

/-! ### What a publication does to the ring -/

section Publish

variable (m : Mem) (vq : VirtQueue) (head : U16)

private theorem driverPublish_last :
    vqAvailLast (driverPublish m vq head) vq.qAvail = vqAvailLast m vq.qAvail + 1 := by
  simp [driverPublish, vqAvailLast]

/-- A publication puts the head at the place that the counter named. -/
private theorem driverPublish_ring {i : ℕ} (hi : i < vq.size) :
    vqAvailRing (driverPublish m vq head) vq.qAvail i =
      if i = (vqAvailLast m vq.qAvail).toNat % vq.size then head
      else vqAvailRing m vq.qAvail i := by
  have hn := vq.size_le
  have hj : (vqAvailLast m vq.qAvail).toNat % vq.size < vq.size := Nat.mod_lt _ vq.size_pos
  set j := (vqAvailLast m vq.qAvail).toNat % vq.size with hjdef
  have hctr : Disjoint (span (vq.qAvail + BitVec.ofNat 32 (4 + 2 * i)) 2)
      (span (vq.qAvail + BitVec.ofNat 32 2) 2) :=
    (disjoint_span_add (by omega) (by omega)).symm
  simp only [driverPublish, vqAvailRing, ← hjdef]
  rw [Mem.read16_of_eqOn_compl (Mem.eqOn_write16 _ _ _) hctr]
  split_ifs with hij
  · rw [hij, Mem.read16_write16]
  · have hslot : Disjoint (span (vq.qAvail + BitVec.ofNat 32 (4 + 2 * i)) 2)
        (span (vq.qAvail + BitVec.ofNat 32 (4 + 2 * j)) 2) := by
      rcases Nat.lt_or_ge i j with h | h
      · exact disjoint_span_add (by omega) (by omega)
      · exact (disjoint_span_add (by omega) (by omega)).symm
    rw [Mem.read16_of_eqOn_compl (Mem.eqOn_write16 _ _ _) hslot]

end Publish

/-! ### The system -/

/-- Queue, guest memory, and the history: heads published and heads returned, oldest first. -/
structure AvailSys where
  vq : VirtQueue
  mem : Mem
  sent : List U16
  got : List U16

/-- What the two parties do. -/
inductive AvailAction
  | publish (head : U16)
  | fetch
  deriving DecidableEq

namespace AvailSys

/-- One action. The driver publishes when at most `N` heads, this one included, are published
and not yet fetched; the firmware may call `virtQueueFetchAvailFirst` at any time. -/
def step (s : AvailSys) : AvailAction → Option AvailSys
  | .publish head =>
      if s.sent.length < s.got.length + s.vq.size then
        some { s with mem := driverPublish s.mem s.vq head, sent := s.sent ++ [head] }
      else none
  | .fetch =>
      let (ret, vq) := virtQueueFetchAvailFirst s.mem s.vq
      some { s with vq := vq, got := if 0 ≤ ret then s.got ++ [BitVec.ofInt 16 ret] else s.got }

/-- The state the two parties start in. -/
structure Initial (s : AvailSys) : Prop where
  ready : s.vq.ready = 1
  sizePow2 : s.vq.SizePow2
  two_le_size : 2 ≤ s.vq.size
  size_le : s.vq.size ≤ 32768
  availIdx : s.vq.availIdx = 0
  last : vqAvailLast s.mem s.vq.qAvail = 0
  sent : s.sent = []
  got : s.got = []

/-- What is promised of a call of `virtQueueFetchAvailFirst`: -1 if and only if every
published head has been fetched, and otherwise the next published head. -/
def CallAgrees (s : AvailSys) : Prop :=
  let ret := (virtQueueFetchAvailFirst s.mem s.vq).1
  (ret = -1 ↔ s.got.length = s.sent.length) ∧
    (ret ≠ -1 → ∃ h : s.got.length < s.sent.length, ret = (s.sent[s.got.length].toNat : ℤ))

/-- **The agreement** of a run: every call made in it keeps the promise, and the heads it
returned are the first published ones, each once and in the order of publication. -/
def Agreement (s : AvailSys) (as : List AvailAction) : Prop :=
  Along step (fun t a => a = .fetch → t.CallAgrees) s as ∧
    ∀ t, exec step s as = some t → t.got <+: t.sent

/-- A fetch from a completely full ring. -/
def FetchesFull (s : AvailSys) (a : AvailAction) : Prop :=
  a = .fetch ∧ s.sent.length = s.got.length + s.vq.size

instance (s : AvailSys) (a : AvailAction) : Decidable (s.FetchesFull a) :=
  inferInstanceAs (Decidable (_ ∧ _))

/-- A ring of `mask + 1` entries at the start, in zeroed memory. -/
def boot (mask : U16) : AvailSys where
  vq := .configured mask 0x20000000 0x20100000 0x20200000
  mem _ := 0
  sent := []
  got := []

/-! ### The ring is a window on the history -/

/-- The invariant: both counters are the lengths of the histories modulo their periods, and
the slots hold the heads in flight. -/
structure Inv (s : AvailSys) : Prop where
  ready : s.vq.ready ≠ 0
  sizePow2 : s.vq.SizePow2
  availIdx : s.vq.availIdx.toNat % s.vq.size = s.got.length % s.vq.size
  last : (vqAvailLast s.mem s.vq.qAvail).toNat = s.sent.length % 2 ^ 16
  window : Window (vqAvailRing s.mem s.vq.qAvail) s.vq.size s.sent s.got

variable {s t : AvailSys} {a : AvailAction}

/-- The history is empty at the start. -/
theorem Initial.inv (h : s.Initial) : s.Inv where
  ready := by simp [h.ready]
  sizePow2 := h.sizePow2
  availIdx := by simp [h.availIdx, h.got]
  last := by simp [h.last, h.sent]
  window := by
    rw [h.sent, h.got]
    exact .init _ _

theorem boot_initial {mask : U16} (hp : (boot mask).vq.SizePow2) (h2 : 0 < mask)
    (hle : mask < 32768) : (boot mask).Initial where
  ready := rfl
  sizePow2 := hp
  two_le_size := by
    change 2 ≤ mask.toNat + 1
    bv_omega
  size_le := by
    change mask.toNat + 1 ≤ 32768
    bv_omega
  availIdx := rfl
  last := by simp [boot, vqAvailLast, Mem.read16]
  sent := rfl
  got := rfl

/-- The slot the driver writes is the one of the next publication. -/
theorem Inv.last_mod (h : s.Inv) :
    (vqAvailLast s.mem s.vq.qAvail).toNat % s.vq.size = s.sent.length % s.vq.size := by
  rw [h.last, Nat.mod_mod_of_dvd _ h.sizePow2.dvd]

/-- The firmware sees an empty ring when the ring is empty, and when it is full. -/
theorem Inv.fetch_eq (h : s.Inv) :
    virtQueueFetchAvailFirst s.mem s.vq =
      if s.got.length = s.sent.length ∨ s.sent.length = s.got.length + s.vq.size then (-1, s.vq)
      else (((vqAvailRing s.mem s.vq.qAvail (s.got.length % s.vq.size)).toNat : ℤ),
        { s.vq with availIdx := (s.vq.availIdx &&& s.vq.sizeMask) + 1 }) := by
  rw [virtQueueFetchAvailFirst_eq h.sizePow2 h.ready, h.availIdx, h.last_mod]
  simp only [h.window.slot_eq_iff]

/-- A publication is one head more that was sent. -/
theorem Inv.publish (h : s.Inv) (head : U16) (ht : step s (.publish head) = some t) : t.Inv := by
  have hlast := driverPublish_last s.mem s.vq head
  simp only [step] at ht
  split_ifs at ht with hroom
  obtain rfl := Option.some.inj ht
  refine ⟨h.ready, h.sizePow2, h.availIdx, ?_, ?_⟩
  · rw [hlast, BitVec.toNat_add, h.last, List.length_append, List.length_singleton]
    simp
  · refine h.window.put hroom ?_ ?_
    · rw [driverPublish_ring _ _ _ (Nat.mod_lt _ s.vq.size_pos), h.last_mod, if_pos rfl]
    · intro k hk
      rw [driverPublish_ring _ _ _ (Nat.mod_lt _ s.vq.size_pos), h.last_mod, if_neg hk]

/-- **A fetch** takes the oldest head, unless the ring is full and looks empty. -/
theorem Inv.fetch (h : s.Inv) (ht : step s .fetch = some t) : t.Inv := by
  have hfetch := h.fetch_eq
  by_cases hsame : s.got.length = s.sent.length ∨ s.sent.length = s.got.length + s.vq.size
  -- a fetch in vain changes neither the queue nor the history
  · rw [if_pos hsame] at hfetch
    obtain rfl : s = t := by simpa [step, hfetch] using ht
    exact h
  · rw [if_neg hsame] at hfetch
    have hlt : s.got.length < s.sent.length := by
      have := h.window.length_le
      omega
    simp only [step, hfetch, Int.natCast_nonneg, if_true, BitVec.ofInt_natCast,
      BitVec.ofNat_toNat, BitVec.setWidth_eq, Option.some.injEq] at ht
    subst ht
    refine ⟨h.ready, h.sizePow2, ?_, h.last, h.window.take hlt⟩
    change ((s.vq.availIdx &&& s.vq.sizeMask) + 1).toNat % s.vq.size = _
    rw [h.sizePow2.succ_mod, List.length_append, List.length_singleton, Nat.add_mod, h.availIdx,
      ← Nat.add_mod]
    rfl

theorem inv_step (s : AvailSys) (a : AvailAction) (t : AvailSys) (h : s.Inv)
    (ht : step s a = some t) : t.Inv := by
  cases a with
  | publish head => exact h.publish head ht
  | fetch => exact h.fetch ht

/-- A call keeps its promise exactly when the ring is not completely full. -/
private theorem Inv.callAgrees_iff (h : s.Inv) :
    s.CallAgrees ↔ s.sent.length ≠ s.got.length + s.vq.size := by
  have hpos := s.vq.size_pos
  have hfetch := h.fetch_eq
  rw [CallAgrees]
  by_cases hfull : s.sent.length = s.got.length + s.vq.size
  -- full: -1 with all `N` heads outstanding
  · rw [if_pos (Or.inr hfull)] at hfetch
    simp [hfetch, hfull, hpos.ne']
  · rcases eq_or_ne s.got.length s.sent.length with hempty | hne
    · rw [if_pos (Or.inl hempty)] at hfetch
      simp [hfetch, hempty, hpos.ne']
    · have hlt : s.got.length < s.sent.length := lt_of_le_of_ne h.window.length_le hne
      rw [if_neg (by omega)] at hfetch
      have hret : ∀ n : ℕ, (n : ℤ) ≠ -1 := fun n => by omega
      refine iff_of_true ⟨?_, fun _ => ⟨hlt, ?_⟩⟩ hfull
      · rw [hfetch]
        exact iff_of_false (hret _) hne
      · rw [hfetch, h.window.head_eq hlt]

end AvailSys

/-- **Available ring agreement.** Whatever the driver publishes and whenever the firmware
fetches, the two agree on the heads if and only if no fetch happens while the ring is
completely full. -/
theorem availAgreement_iff (s : AvailSys) (h : s.Initial) (as : List AvailAction) :
    s.Agreement as ↔ Along AvailSys.step (fun t a => ¬ t.FetchesFull a) s as := by
  have hprefix : ∀ t, exec AvailSys.step s as = some t → t.got <+: t.sent := fun t ht =>
    (exec_invariant AvailSys.inv_step h.inv ht).window.got_prefix
  rw [AvailSys.Agreement, and_iff_left hprefix]
  refine along_congr AvailSys.inv_step (fun t a ht => ?_) h.inv
  rw [ht.callAgrees_iff, AvailSys.FetchesFull]
  tauto

/-- One head published, fetched, and asked for again. -/
theorem availAgreement_boot :
    (AvailSys.boot 1).Agreement [.publish 5, .fetch, .fetch] := by
  exact (availAgreement_iff _ (AvailSys.boot_initial ⟨1, rfl⟩ (by decide) (by decide)) _).mpr
    (by decide)

/-- With both entries of a ring of two published, the firmware takes the ring for empty. -/
theorem availAgreement_full :
    ¬ (AvailSys.boot 1).Agreement [.publish 5, .publish 6, .fetch] := by
  intro h
  have hcall := along_iff.mp h.1 [.publish 5, .publish 6] .fetch [] _ rfl rfl rfl
  have hret := hcall.1.mp (by decide)
  exact absurd hret (by decide)

end Arm9LinuxFw
