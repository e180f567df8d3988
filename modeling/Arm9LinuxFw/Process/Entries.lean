import Arm9LinuxFw.Process.Loop

/-!
# The descriptor table and the pending heads, by layout

What a table entry says, read off its bytes: a 64-bit address of which the low word counts, a
length, two flags, and the number of the next entry. `tableEntry` is that reading, stated without
the functions of the firmware, and `vqDescAt_toVirtDesc`, `nextDesc_eq_link` say that the firmware
reads the same.

`Visits` says which entries the processing of a queue comes by. The head published at the
firmware's position in the available ring is the first; from a head the links lead on; and if the
links of a head come to an end, the head at the position after it is next. So a head behind one
whose links go round in a circle is not visited.

* `headAt`: the head at a position of the available ring, if one is pending there.
* `Visits m vq a head i`: from position `a` on, entry `i` is met as part of the chain of `head`.
* `Visited m vq i`: entry `i` is met at all.

All of this depends on the available ring and on the entries visited only (`headAt_congr`,
`tableEntry_congr`).
-/

namespace Arm9LinuxFw

open ByteMem LinkGraph

/-! ### Entries -/

/-- An entry of the descriptor table. -/
structure TableEntry where
  addr : U32
  length : U32
  writable : Bool
  link : Option U16
  deriving DecidableEq

/-- The address of entry `i` of the table at `base`; entries take 16 bytes. -/
def entryAddr (base : U32) (i : U16) : U32 := base + BitVec.ofNat 32 (16 * i.toNat)

/-- The addresses of entry `i`. -/
def entrySpan (base : U32) (i : U16) : Set U32 := span (entryAddr base i) 16

/-- Entry `i` of the table at `base`, by the layout of its bytes. -/
def tableEntry (m : Mem) (base : U32) (i : U16) : TableEntry where
  addr := m.read32 (entryAddr base i)
  length := m.read32 (entryAddr base i + 8)
  writable := (m (entryAddr base i + 12)).getLsbD 1
  link := if (m (entryAddr base i + 12)).getLsbD 0 then some (m.read16 (entryAddr base i + 14))
    else none

/-- The descriptor an entry stands for. -/
def TableEntry.desc (e : TableEntry) : VirtDesc where
  data := e.addr
  length := e.length
  dir := if e.writable then VDEV_TO_HOST else HOST_TO_VDEV

/-- The link of entry `i`. -/
def linkAt (m : Mem) (base : U32) (i : U16) : Option U16 := (tableEntry m base i).link

private theorem entryAddr_add (base : U32) (i : U16) (k : ℕ) :
    base + BitVec.ofNat 32 (16 * i.toNat + k) = entryAddr base i + BitVec.ofNat 32 k := by
  rw [entryAddr, BitVec.ofNat_add, ← BitVec.add_assoc]

/-- A word has a bit in common with a mask of one bit exactly if it has that bit. -/
private theorem and_bit_ne_zero {w : ℕ} (x : BitVec w) {k : ℕ} (hk : k < w) :
    x &&& bit w k ≠ 0 ↔ x.getLsbD k = true := by
  have hmask : x &&& bit w k = if x.getLsbD k then BitVec.twoPow w k else 0#w :=
    BitVec.and_twoPow x k
  have hpos : BitVec.twoPow w k ≠ 0 := by
    intro hzero
    have hbit := congrArg (fun y => y.getLsbD k) hzero
    simp [hk] at hbit
  rw [hmask]
  split_ifs with hx
  · exact iff_of_true hpos hx
  · exact iff_of_false (not_not.mpr rfl) hx

/-- A flag of a 16-bit word is a bit of its low byte. -/
theorem read16_and_bit (m : Mem) (a : U32) {k : ℕ} (hk : k < 8) :
    m.read16 a &&& bit 16 k ≠ 0 ↔ (m a).getLsbD k = true := by
  rw [and_bit_ne_zero _ (by omega), Mem.read16, BitVec.getLsbD_append, if_pos hk]

/-- The firmware follows the link of an entry. -/
theorem nextDesc_eq_link (m : Mem) (base : U32) (i : U16) :
    nextDesc m base i = linkAt m base i := by
  have hflag := read16_and_bit m (entryAddr base i + 12) (k := 0) (by omega)
  simp only [nextDesc, vqDescAt, linkAt, tableEntry, entryAddr_add, VQ_DESC_F_NEXT]
  exact if_congr hflag rfl rfl

/-- The firmware takes an entry for the descriptor it stands for. -/
theorem vqDescAt_toVirtDesc (m : Mem) (base : U32) (i : U16) :
    (vqDescAt m base i).toVirtDesc = (tableEntry m base i).desc := by
  have hflag := read16_and_bit m (entryAddr base i + 12) (k := 1) (by omega)
  have haddr : (m.read64 (entryAddr base i)).setWidth 32 = m.read32 (entryAddr base i) := by
    rw [Mem.read64]
    exact BitVec.setWidth_append_eq_right
  simp only [VqDesc.toVirtDesc, vqDescAt, TableEntry.desc, tableEntry, entryAddr_add,
    VQ_DESC_F_WRITE, VirtDesc.mk.injEq]
  exact ⟨haddr, rfl, if_congr hflag rfl rfl⟩

/-- An entry is read from its own bytes only. -/
theorem tableEntry_congr {m m' : Mem} {base : U32} {i : U16}
    (h : Set.EqOn m' m (entrySpan base i)) : tableEntry m' base i = tableEntry m base i := by
  have hsub (k j : ℕ) (hk : k + j ≤ 16) :
      Set.EqOn m' m (span (entryAddr base i + BitVec.ofNat 32 k) j) :=
    h.mono (span_add_subset hk (by omega))
  have haddr : m'.read32 (entryAddr base i) = m.read32 (entryAddr base i) :=
    Mem.read32_congr (h.mono (span_mono (by omega)))
  have hlen := Mem.read32_congr (hsub 8 4 (by omega))
  have hnext := Mem.read16_congr (hsub 14 2 (by omega))
  have hflag : m' (entryAddr base i + 12) = m (entryAddr base i + 12) :=
    hsub 12 1 (by omega) (by simp)
  simp only [tableEntry, haddr, hflag]
  rw [show m'.read32 (entryAddr base i + 8) = m.read32 (entryAddr base i + 8) from hlen,
    show m'.read16 (entryAddr base i + 14) = m.read16 (entryAddr base i + 14) from hnext]

/-! ### Pending heads -/

/-- The head at position `a` of the available ring, unless the driver has published nothing
there. A ring that is completely full counts as one with nothing published. -/
def headAt (m : Mem) (vq : VirtQueue) (a : U16) : Option U16 :=
  if vq.ready = 0 ∨ a &&& vq.sizeMask = vqAvailLast m vq.qAvail &&& vq.sizeMask then none
  else some (vqAvailRing m vq.qAvail (a &&& vq.sizeMask).toNat)

/-- The position after `a`. -/
def VirtQueue.after (vq : VirtQueue) (a : U16) : U16 := (a &&& vq.sizeMask) + 1

/-- A fetch takes the head at the firmware's position. -/
theorem virtQueueFetchAvailFirst_headAt (m : Mem) (vq : VirtQueue) :
    virtQueueFetchAvailFirst m vq =
      match headAt m vq vq.availIdx with
      | none => (-1, vq)
      | some head => ((head.toNat : ℤ), { vq with availIdx := vq.after vq.availIdx }) := by
  simp only [virtQueueFetchAvailFirst, headAt, VirtQueue.after]
  by_cases hready : vq.ready = 0
  · rw [if_pos hready, if_pos (Or.inl hready)]
  · rw [if_neg hready]
    by_cases hempty : vq.availIdx &&& vq.sizeMask = vqAvailLast m vq.qAvail &&& vq.sizeMask
    · rw [if_pos hempty, if_pos (Or.inr hempty)]
    · rw [if_neg hempty, if_neg (not_or.mpr ⟨hready, hempty⟩)]

theorem headAt_congr {m m' : Mem} {vq : VirtQueue} (h : Set.EqOn m' m vq.availSpan) (a : U16) :
    headAt m' vq a = headAt m vq a := by
  simp only [headAt, vqAvailLast_congr h, vqAvailRing_congr h (vq.toNat_and_lt a)]

theorem VirtQueue.SameSetup.headAt {vq vq' : VirtQueue} (h : vq.SameSetup vq') (m : Mem) (a : U16) :
    headAt m vq a = headAt m vq' a := by
  obtain ⟨_, _, _, rfl⟩ := h
  rfl

theorem VirtQueue.SameSetup.after {vq vq' : VirtQueue} (h : vq.SameSetup vq') (a : U16) :
    vq.after a = vq'.after a := by
  obtain ⟨_, _, _, rfl⟩ := h
  rfl

/-! ### The entries met -/

/-- The links of the table lead from entry `head` to entry `i`. -/
def Leads (m : Mem) (base : U32) (head i : U16) : Prop :=
  Relation.ReflTransGen (fun a b => linkAt m base a = some b) head i

/-- From position `a` of the available ring on, entry `i` is met in the chain of `head`. -/
inductive Visits (m : Mem) (vq : VirtQueue) : U16 → U16 → U16 → Prop
  | here {a head i : U16} (hhead : headAt m vq a = some head) (hi : Leads m vq.qDesc head i) :
      Visits m vq a head i
  | later {a first head i : U16} (hfirst : headAt m vq a = some first)
      (hends : Ends (linkAt m vq.qDesc) first) (hi : Visits m vq (vq.after a) head i) :
      Visits m vq a head i

/-- Entry `i` is met in the processing of the queue. -/
def Visited (m : Mem) (vq : VirtQueue) (i : U16) : Prop := ∃ head, Visits m vq vq.availIdx head i

/-- The entries met are led to from their head. -/
theorem Visits.leads {m : Mem} {vq : VirtQueue} {a head i : U16} (h : Visits m vq a head i) :
    Leads m vq.qDesc head i := by
  induction h with
  | here _ hi => exact hi
  | later _ _ _ ih => exact ih

/-- Where an entry is met, so is the one it links to. -/
theorem Visits.next {m : Mem} {vq : VirtQueue} {a head i j : U16} (h : Visits m vq a head i)
    (hij : linkAt m vq.qDesc i = some j) : Visits m vq a head j := by
  induction h with
  | here hhead hi => exact .here hhead (hi.tail hij)
  | later hfirst hends _ ih => exact .later hfirst hends (ih hij)

end Arm9LinuxFw
