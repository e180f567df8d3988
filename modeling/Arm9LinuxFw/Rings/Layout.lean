import Arm9LinuxFw.Virt.Queue
import Arm9LinuxFw.Lib.RingBuffer

/-!
# The rings of a queue in guest memory

How the operations of `virt/queue.c` act on the three rings, given that the size of the queue is a
power of two.

* `VirtQueue.size` is the number of entries, one more than the mask; masked positions are remainders
  modulo the size (`VirtQueue.SizePow2`).
* `VirtQueue.availSpan`, `VirtQueue.descSpan` and `VirtQueue.usedSpan` are the addresses that the
  rings take up. What is read from a ring depends on those addresses alone
  (`vqAvailRing_congr`, `vqUsedRing_congr` and so on).
* `pendingHeads` is the available ring as a list: the heads from the firmware's position up to the
  counter, as the firmware counts them, modulo the size. `virtQueueFetchAvailFirst_of_cons`
  and `virtQueueFetchAvailFirst_of_nil` are the specification of a fetch in terms of that list,
  which everything about runs uses.
* `virtQueuePushUsed` stores to one place of the used ring and to its counter; the lemmas at the end
  say what that leaves of the other places and of memory outside the ring.
-/

namespace Arm9LinuxFw

open ByteMem RingBuffer

namespace VirtQueue

/-- The number of entries of a queue. -/
def size (vq : VirtQueue) : ℕ := vq.sizeMask.toNat + 1

/-- The size is a power of two, as `virtQueueSetDescCount` checks. -/
def SizePow2 (vq : VirtQueue) : Prop := ∃ k, vq.size = 2 ^ k

theorem size_pos (vq : VirtQueue) : 0 < vq.size := Nat.succ_pos _

theorem size_le (vq : VirtQueue) : vq.size ≤ 2 ^ 16 := vq.sizeMask.isLt

/-- A masked position is a slot of the rings, whatever the size. -/
theorem toNat_and_lt (vq : VirtQueue) (x : U16) : (x &&& vq.sizeMask).toNat < vq.size := by
  rw [BitVec.toNat_and, size, Nat.lt_succ_iff]
  exact Nat.and_le_right

/-- The addresses of the available ring. -/
def availSpan (vq : VirtQueue) : Set U32 := span vq.qAvail (4 + 2 * vq.size)

/-- The addresses of the descriptor table. -/
def descSpan (vq : VirtQueue) : Set U32 := span vq.qDesc (16 * vq.size)

/-- The addresses of the used ring. -/
def usedSpan (vq : VirtQueue) : Set U32 := span vq.qUsed (4 + 8 * vq.size)

variable {vq : VirtQueue}

/-- So 16-bit positions wrap around at a multiple of the size. -/
theorem SizePow2.dvd (h : vq.SizePow2) : vq.size ∣ 2 ^ 16 := by
  obtain ⟨k, hk⟩ := h
  rw [hk]
  refine Nat.pow_dvd_pow 2 ?_
  by_contra hlt
  have := Nat.pow_lt_pow_right (a := 2) (by omega) (show 16 < k by omega)
  have := vq.size_le
  omega

/-- Masking a position takes its remainder. -/
theorem SizePow2.toNat_and (h : vq.SizePow2) (x : U16) :
    (x &&& vq.sizeMask).toNat = x.toNat % vq.size := by
  obtain ⟨k, hk⟩ := h
  rw [toNat_and_mask x vq.sizeMask (k := k) hk, ← hk]

/-- The slot after the one at a masked position has that position's number as remainder. -/
theorem SizePow2.succ_mod (h : vq.SizePow2) (x : U16) :
    ((x &&& vq.sizeMask) + 1).toNat % vq.size = (x.toNat + 1) % vq.size := by
  rw [BitVec.toNat_add, show (1 : U16).toNat = 1 from rfl, Nat.mod_mod_of_dvd _ h.dvd,
    h.toNat_and, Nat.mod_add_mod]

/-- A queue as a driver sets it up: reset, then made ready with `mask + 1` entries and the
three rings at the given addresses. -/
def configured (mask : U16) (qDesc qAvail qUsed : U32) : VirtQueue where
  owner := 0
  id := 0
  ready := 1
  sizeMask := mask
  availIdx := 0
  usedIdx := 0
  qDesc := qDesc
  qAvail := qAvail
  qUsed := qUsed
  priv := 0

end VirtQueue

variable {m m' : Mem} {vq : VirtQueue}

/-! ### Accesses inside a ring -/

theorem vqAvailLast_congr (h : Set.EqOn m' m vq.availSpan) :
    vqAvailLast m' vq.qAvail = vqAvailLast m vq.qAvail :=
  Mem.read16_congr (h.mono (span_add_subset (by omega) (by have := vq.size_le; omega)))

theorem vqAvailRing_congr (h : Set.EqOn m' m vq.availSpan) {i : ℕ} (hi : i < vq.size) :
    vqAvailRing m' vq.qAvail i = vqAvailRing m vq.qAvail i :=
  Mem.read16_congr (h.mono (span_add_subset (by omega) (by have := vq.size_le; omega)))

theorem vqUsedLast_congr (h : Set.EqOn m' m vq.usedSpan) :
    vqUsedLast m' vq.qUsed = vqUsedLast m vq.qUsed :=
  Mem.read16_congr (h.mono (span_add_subset (by omega) (by have := vq.size_le; omega)))

theorem vqUsedRing_congr (h : Set.EqOn m' m vq.usedSpan) {i : ℕ} (hi : i < vq.size) :
    vqUsedRing m' vq.qUsed i = vqUsedRing m vq.qUsed i := by
  have hn : 4 + 8 * vq.size ≤ 2 ^ 32 := by have := vq.size_le; omega
  have hid := Mem.read32_congr (h.mono (span_add_subset (k := 4 + 8 * i) (by omega) hn))
  have hlen := Mem.read32_congr (h.mono (span_add_subset (k := 8 + 8 * i) (by omega) hn))
  simp only [vqUsedRing, hid, hlen]

/-- An entry of the descriptor table is read from the table only. -/
theorem vqDescAt_congr (h : Set.EqOn m' m vq.descSpan) {i : U16} (hi : i.toNat < vq.size) :
    vqDescAt m' vq.qDesc i = vqDescAt m vq.qDesc i := by
  have hn : 16 * vq.size ≤ 2 ^ 32 := by have := vq.size_le; omega
  have haddr := Mem.read64_congr (h.mono (span_add_subset (k := 16 * i.toNat) (by omega) hn))
  have hlen := Mem.read32_congr (h.mono (span_add_subset (k := 16 * i.toNat + 8) (by omega) hn))
  have hflags :=
    Mem.read16_congr (h.mono (span_add_subset (k := 16 * i.toNat + 12) (by omega) hn))
  have hnext :=
    Mem.read16_congr (h.mono (span_add_subset (k := 16 * i.toNat + 14) (by omega) hn))
  simp only [vqDescAt, haddr, hlen, hflags, hnext]

/-! ### Fetching from the available ring -/

/-- `virtQueueFetchAvailFirst` on a ready queue, with remainders for masks. -/
theorem virtQueueFetchAvailFirst_eq (hp : vq.SizePow2) (hr : vq.ready ≠ 0) :
    virtQueueFetchAvailFirst m vq =
      if vq.availIdx.toNat % vq.size = (vqAvailLast m vq.qAvail).toNat % vq.size then (-1, vq)
      else (((vqAvailRing m vq.qAvail (vq.availIdx.toNat % vq.size)).toNat : ℤ),
        { vq with availIdx := (vq.availIdx &&& vq.sizeMask) + 1 }) := by
  rw [virtQueueFetchAvailFirst, if_neg hr]
  simp only [← BitVec.toNat_inj, hp.toNat_and]

theorem virtQueueFetchAvailFirst_of_not_ready (hr : vq.ready = 0) :
    virtQueueFetchAvailFirst m vq = (-1, vq) := by
  rw [virtQueueFetchAvailFirst, if_pos hr]

/-! ### The available ring as a list of heads -/

/-- The number of slots from the firmware's position to the driver's. -/
def pendingCount (m : Mem) (vq : VirtQueue) : ℕ :=
  let index := vq.availIdx.toNat % vq.size
  let avail := (vqAvailLast m vq.qAvail).toNat % vq.size
  if index ≤ avail then avail - index else avail + vq.size - index

/-- The heads that the next calls of `virtQueueFetchAvailFirst` return, in order. -/
def pendingHeads (m : Mem) (vq : VirtQueue) : List U16 :=
  if vq.ready = 0 then []
  else (List.range (pendingCount m vq)).map fun k =>
    vqAvailRing m vq.qAvail ((vq.availIdx.toNat + k) % vq.size)

/-- The queue after a fetch. -/
def VirtQueue.advance (vq : VirtQueue) : VirtQueue :=
  { vq with availIdx := (vq.availIdx &&& vq.sizeMask) + 1 }

/-- As counted modulo the size, a ring is never full. -/
private theorem pendingCount_lt (m : Mem) (vq : VirtQueue) : pendingCount m vq < vq.size := by
  have hi : vq.availIdx.toNat % vq.size < vq.size := Nat.mod_lt _ vq.size_pos
  have ha : (vqAvailLast m vq.qAvail).toNat % vq.size < vq.size := Nat.mod_lt _ vq.size_pos
  simp only [pendingCount]
  split_ifs <;> omega

theorem length_pendingHeads_lt (m : Mem) (vq : VirtQueue) :
    (pendingHeads m vq).length < vq.size := by
  rw [pendingHeads]
  split_ifs
  · exact vq.size_pos
  · simpa using pendingCount_lt m vq

theorem pendingHeads_congr (h : Set.EqOn m' m vq.availSpan) :
    pendingHeads m' vq = pendingHeads m vq := by
  simp only [pendingHeads, pendingCount, vqAvailLast_congr h,
    vqAvailRing_congr h (Nat.mod_lt _ vq.size_pos)]

/-- Fetching moves the position one slot on. -/
theorem advance_mod (hp : vq.SizePow2) :
    vq.advance.availIdx.toNat % vq.size = (vq.availIdx.toNat % vq.size + 1) % vq.size := by
  rw [VirtQueue.advance, hp.succ_mod, Nat.mod_add_mod]

/-- A head that is fetched is one less. -/
private theorem pendingCount_advance (hp : vq.SizePow2)
    (hne : vq.availIdx.toNat % vq.size ≠ (vqAvailLast m vq.qAvail).toNat % vq.size) :
    pendingCount m vq = pendingCount m vq.advance + 1 := by
  have hi : vq.availIdx.toNat % vq.size < vq.size := Nat.mod_lt _ vq.size_pos
  have ha : (vqAvailLast m vq.qAvail).toNat % vq.size < vq.size := Nat.mod_lt _ vq.size_pos
  have hadv := advance_mod hp
  simp only [pendingCount]
  change _ = (if vq.advance.availIdx.toNat % vq.size ≤
    (vqAvailLast m vq.qAvail).toNat % vq.size then
      (vqAvailLast m vq.qAvail).toNat % vq.size - vq.advance.availIdx.toNat % vq.size
    else (vqAvailLast m vq.qAvail).toNat % vq.size + vq.size -
      vq.advance.availIdx.toNat % vq.size) + 1
  rw [hadv]
  -- the position wraps exactly when it was on the last slot
  rcases Nat.lt_or_ge (vq.availIdx.toNat % vq.size + 1) vq.size with hlt | hge
  · rw [Nat.mod_eq_of_lt hlt]
    split_ifs <;> omega
  · rw [show vq.availIdx.toNat % vq.size + 1 = vq.size by omega, Nat.mod_self]
    split_ifs <;> omega

/-- `virtQueueFetchAvailFirst` takes the first pending head, if there is one. -/
theorem virtQueueFetchAvailFirst_of_nil (hp : vq.SizePow2) (h : pendingHeads m vq = []) :
    virtQueueFetchAvailFirst m vq = (-1, vq) := by
  by_cases hr : vq.ready = 0
  · exact virtQueueFetchAvailFirst_of_not_ready hr
  · rw [virtQueueFetchAvailFirst_eq hp hr, if_pos]
    by_contra hne
    have hcount := pendingCount_advance hp hne
    rw [pendingHeads, if_neg hr, List.map_eq_nil_iff, List.range_eq_nil] at h
    omega

/-- **A fetch** returns the first of the pending heads and leaves the others. -/
theorem virtQueueFetchAvailFirst_of_cons (hp : vq.SizePow2) {head : U16} {rest : List U16}
    (h : pendingHeads m vq = head :: rest) :
    virtQueueFetchAvailFirst m vq = ((head.toNat : ℤ), vq.advance) ∧
      pendingHeads m vq.advance = rest := by
  have hr : vq.ready ≠ 0 := by
    intro hr
    simp [pendingHeads, hr] at h
  have hne : vq.availIdx.toNat % vq.size ≠ (vqAvailLast m vq.qAvail).toNat % vq.size := by
    intro heq
    simp [pendingHeads, pendingCount, heq] at h
  rw [pendingHeads, if_neg hr, pendingCount_advance hp hne, List.range_succ_eq_map,
    List.map_cons, List.map_map, List.cons_eq_cons] at h
  obtain ⟨hhead, hrest⟩ := h
  rw [Nat.add_zero] at hhead
  refine ⟨by rw [virtQueueFetchAvailFirst_eq hp hr, if_neg hne, hhead]; rfl, ?_⟩
  rw [← hrest, pendingHeads, if_neg (show vq.advance.ready ≠ 0 from hr)]
  refine List.map_congr_left fun k _ => ?_
  change vqAvailRing m vq.qAvail ((vq.advance.availIdx.toNat + k) % vq.size) = _
  rw [Function.comp_apply, ← Nat.mod_add_mod, advance_mod hp, Nat.mod_add_mod,
    Nat.add_assoc, Nat.mod_add_mod, Nat.add_comm 1 k]

/-! ### Pushing to the used ring -/

section Push

variable (m vq) (first : U16) (len : U32)

/-- `virtQueuePushUsed` stores to the used ring only. -/
theorem virtQueuePushUsed_eqOn :
    Set.EqOn (virtQueuePushUsed m vq first len).1 m vq.usedSpanᶜ := by
  have hlt := vq.toNat_and_lt vq.usedIdx
  have hn : 4 + 8 * vq.size ≤ 2 ^ 32 := by have := vq.size_le; omega
  intro x hx
  rw [virtQueuePushUsed]
  refine (Mem.eqOn_write16 _ _ _ fun h => hx ?_).trans
    ((Mem.eqOn_write32 _ _ _ fun h => hx ?_).trans (Mem.eqOn_write32 _ _ _ fun h => hx ?_))
  · exact span_add_subset (by omega) hn h
  · exact span_add_subset (by omega) hn h
  · exact span_add_subset (by omega) hn h

/-- `virtQueuePushUsed` announces one entry more. -/
theorem virtQueuePushUsed_last :
    vqUsedLast (virtQueuePushUsed m vq first len).1 vq.qUsed = vqUsedLast m vq.qUsed + 1 := by
  have hlt := vq.toNat_and_lt vq.usedIdx
  have hn := vq.size_le
  have hid : Disjoint (span (vq.qUsed + BitVec.ofNat 32 2) 2)
      (span (vq.qUsed + BitVec.ofNat 32 (4 + 8 * (vq.usedIdx &&& vq.sizeMask).toNat)) 4) :=
    disjoint_span_add (by omega) (by omega)
  have hlen : Disjoint (span (vq.qUsed + BitVec.ofNat 32 2) 2)
      (span (vq.qUsed + BitVec.ofNat 32 (8 + 8 * (vq.usedIdx &&& vq.sizeMask).toNat)) 4) :=
    disjoint_span_add (by omega) (by omega)
  simp only [virtQueuePushUsed, vqUsedLast, Mem.read16_write16]
  rw [Mem.read16_of_eqOn_compl (Mem.eqOn_write32 _ _ _) hlen,
    Mem.read16_of_eqOn_compl (Mem.eqOn_write32 _ _ _) hid]

/-- `virtQueuePushUsed` writes its entry into the slot at the firmware's position. -/
theorem virtQueuePushUsed_slot :
    vqUsedRing (virtQueuePushUsed m vq first len).1 vq.qUsed (vq.usedIdx &&& vq.sizeMask).toNat =
      (first.setWidth 32, len) := by
  have hlt := (vq.usedIdx &&& vq.sizeMask).isLt
  simp only [virtQueuePushUsed, vqUsedRing]
  set j := (vq.usedIdx &&& vq.sizeMask).toNat
  -- the counter is below both fields of the slot
  have hcid : Disjoint (span (vq.qUsed + BitVec.ofNat 32 (4 + 8 * j)) 4)
      (span (vq.qUsed + BitVec.ofNat 32 2) 2) :=
    (disjoint_span_add (by omega) (by omega)).symm
  have hclen : Disjoint (span (vq.qUsed + BitVec.ofNat 32 (8 + 8 * j)) 4)
      (span (vq.qUsed + BitVec.ofNat 32 2) 2) :=
    (disjoint_span_add (by omega) (by omega)).symm
  have hd : Disjoint (span (vq.qUsed + BitVec.ofNat 32 (4 + 8 * j)) 4)
      (span (vq.qUsed + BitVec.ofNat 32 (8 + 8 * j)) 4) :=
    disjoint_span_add (by omega) (by omega)
  rw [Mem.read32_of_eqOn_compl (Mem.eqOn_write16 _ _ _) hcid,
    Mem.read32_of_eqOn_compl (Mem.eqOn_write16 _ _ _) hclen,
    Mem.read32_of_eqOn_compl (Mem.eqOn_write32 _ _ _) hd, Mem.read32_write32, Mem.read32_write32]

/-- `virtQueuePushUsed` writes the slot at the firmware's position and no other one. -/
theorem virtQueuePushUsed_ring (hp : vq.SizePow2) {i : ℕ} (hi : i < vq.size) :
    vqUsedRing (virtQueuePushUsed m vq first len).1 vq.qUsed i =
      if i = vq.usedIdx.toNat % vq.size then (first.setWidth 32, len)
      else vqUsedRing m vq.qUsed i := by
  have hslot := virtQueuePushUsed_slot m vq first len
  have hlt := vq.toNat_and_lt vq.usedIdx
  have hn := vq.size_le
  rw [← hp.toNat_and vq.usedIdx]
  split_ifs with hij
  · rw [hij, hslot]
  · simp only [virtQueuePushUsed, vqUsedRing]
    set j := (vq.usedIdx &&& vq.sizeMask).toNat
    have hcid : Disjoint (span (vq.qUsed + BitVec.ofNat 32 (4 + 8 * i)) 4)
        (span (vq.qUsed + BitVec.ofNat 32 2) 2) :=
      (disjoint_span_add (by omega) (by omega)).symm
    have hclen : Disjoint (span (vq.qUsed + BitVec.ofNat 32 (8 + 8 * i)) 4)
        (span (vq.qUsed + BitVec.ofNat 32 2) 2) :=
      (disjoint_span_add (by omega) (by omega)).symm
    -- both fields of slot `i` are apart from both fields of slot `j`
    have hsep : ∀ o o' : ℕ, o = 4 ∨ o = 8 → o' = 4 ∨ o' = 8 →
        Disjoint (span (vq.qUsed + BitVec.ofNat 32 (o + 8 * i)) 4)
          (span (vq.qUsed + BitVec.ofNat 32 (o' + 8 * j)) 4) := by
      intro o o' ho ho'
      rcases Nat.lt_or_ge i j with h | h
      · exact disjoint_span_add (by omega) (by omega)
      · exact (disjoint_span_add (by omega) (by omega)).symm
    rw [Mem.read32_of_eqOn_compl (Mem.eqOn_write16 _ _ _) hcid,
      Mem.read32_of_eqOn_compl (Mem.eqOn_write16 _ _ _) hclen,
      Mem.read32_of_eqOn_compl (Mem.eqOn_write32 _ _ _) (hsep 4 8 (by simp) (by simp)),
      Mem.read32_of_eqOn_compl (Mem.eqOn_write32 _ _ _) (hsep 4 4 (by simp) (by simp)),
      Mem.read32_of_eqOn_compl (Mem.eqOn_write32 _ _ _) (hsep 8 8 (by simp) (by simp)),
      Mem.read32_of_eqOn_compl (Mem.eqOn_write32 _ _ _) (hsep 8 4 (by simp) (by simp))]

end Push

end Arm9LinuxFw
