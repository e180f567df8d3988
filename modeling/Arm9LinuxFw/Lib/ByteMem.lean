import Mathlib.Data.Set.Card
import Mathlib.Data.Fintype.EquivFin
import Mathlib.Data.Set.Function
import Mathlib.Order.CompletePartialOrder

/-!
# Byte-addressed little-endian memory

A memory is a total map from 32-bit addresses to bytes; multi-byte loads and stores are
little-endian and address arithmetic wraps modulo `2 ^ 32`.

* `span a n` is the footprint of an access, the `n` addresses from `a` upwards *modulo the address
  space*, described by the distance `(x - a).toNat < n`. `span_add_subset` and `disjoint_span` are
  the two facts about them that proofs of programs use: that a field lies inside a structure, and
  that two structures do not meet.
* Frame facts are stated with `Set.EqOn`, so that Mathlib's `EqOn` API composes them: a load depends
  on its footprint only (`read32_congr`), a store leaves everything outside of its own
  (`eqOn_write32`).
* `read32_write32` and its siblings read back what was stored.
* `spans` is the union of several footprints, for lists of buffers.

Accesses may be unaligned here; a program that runs on hardware which does not allow that has
to be asked for alignment besides.
-/

namespace ByteMem

/-- A 32-bit address. -/
abbrev Addr := BitVec 32

/-- A memory: one byte at every address. -/
abbrev Mem := Addr → BitVec 8

/-! ### Spans of addresses -/

/-- The `n` addresses from `a` upwards, modulo the address space. -/
def span (a : Addr) (n : ℕ) : Set Addr := {x | (x - a).toNat < n}

@[simp]
theorem mem_span {a x : Addr} {n : ℕ} : x ∈ span a n ↔ (x - a).toNat < n := Iff.rfl

instance (a : Addr) (n : ℕ) (x : Addr) : Decidable (x ∈ span a n) :=
  inferInstanceAs (Decidable ((x - a).toNat < n))

@[simp]
theorem span_zero (a : Addr) : span a 0 = ∅ := by
  ext x
  simp

@[simp]
theorem span_one (a : Addr) : span a 1 = {a} := by
  refine Set.ext fun x => ?_
  simp only [mem_span, Set.mem_singleton_iff]
  bv_omega

theorem self_mem_span {a : Addr} {n : ℕ} : a ∈ span a n ↔ 0 < n := by
  rw [mem_span, BitVec.sub_self]
  rfl

theorem span_mono {a : Addr} {m n : ℕ} (h : m ≤ n) : span a m ⊆ span a n :=
  fun _ hx => lt_of_lt_of_le hx h

/-- The distance from `a` splits at an inner offset: behind `a + k` it is `k` more. -/
theorem toNat_sub_add_ofNat {a x : Addr} {k j n : ℕ} (h : (x - (a + BitVec.ofNat 32 k)).toNat < j)
    (hkj : k + j ≤ n) (hn : n ≤ 2 ^ 32) :
    (x - a).toNat = k + (x - (a + BitVec.ofNat 32 k)).toNat := by
  have ha := a.isLt
  have hx := x.isLt
  simp only [BitVec.toNat_sub, BitVec.toNat_add, BitVec.toNat_ofNat] at h ⊢
  omega

/-- A span at an inner offset is part of the enclosing span. -/
theorem span_add_subset {a : Addr} {k j n : ℕ} (hkj : k + j ≤ n) (hn : n ≤ 2 ^ 32) :
    span (a + BitVec.ofNat 32 k) j ⊆ span a n := by
  intro x hx
  have hd := toNat_sub_add_ofNat hx hkj hn
  rw [mem_span] at hx ⊢
  omega

/-- Spans at separate offsets of one base do not meet. -/
theorem disjoint_span_add {a : Addr} {k j k' j' : ℕ} (h : k + j ≤ k') (hn : k' + j' ≤ 2 ^ 32) :
    Disjoint (span (a + BitVec.ofNat 32 k) j) (span (a + BitVec.ofNat 32 k') j') := by
  rw [Set.disjoint_left]
  intro x hx hx'
  have hd := toNat_sub_add_ofNat hx (show k + j ≤ 2 ^ 32 by omega) le_rfl
  have hd' := toNat_sub_add_ofNat hx' hn le_rfl
  rw [mem_span] at hx
  omega

/-- A span is its first part and the rest. -/
theorem span_add (a : Addr) {k j : ℕ} (h : k + j ≤ 2 ^ 32) :
    span a (k + j) = span a k ∪ span (a + BitVec.ofNat 32 k) j := by
  refine Set.Subset.antisymm (fun x hx => ?_)
    (Set.union_subset (span_mono (by omega)) (span_add_subset le_rfl h))
  have ha := a.isLt
  have hxlt := x.isLt
  simp only [Set.mem_union, mem_span, BitVec.toNat_sub, BitVec.toNat_add,
    BitVec.toNat_ofNat] at hx ⊢
  omega

/-- Spans that start far enough from each other, both ways round, do not meet. -/
theorem disjoint_span {a b : Addr} {n k : ℕ} (hab : n ≤ (b - a).toNat) (hba : k ≤ (a - b).toNat) :
    Disjoint (span a n) (span b k) := by
  rw [Set.disjoint_left]
  intro x hx hx'
  have ha := a.isLt
  have hb := b.isLt
  have hxlt := x.isLt
  simp only [mem_span, BitVec.toNat_sub] at hx hx' hab hba
  omega

/-- A span no longer than the address space has as many addresses as its length says. -/
theorem ncard_span (a : Addr) {n : ℕ} (hn : n ≤ 2 ^ 32) : (span a n).ncard = n := by
  -- the span is the image of `0, …, n - 1`, on which adding to `a` is injective
  have himg : span a n = (fun i : ℕ => a + BitVec.ofNat 32 i) '' (Finset.range n : Set ℕ) := by
    ext x
    simp only [mem_span, Finset.coe_range, Set.mem_image, Set.mem_Iio]
    constructor
    · intro hx
      exact ⟨(x - a).toNat, hx, by rw [BitVec.ofNat_toNat, BitVec.setWidth_eq]; bv_omega⟩
    · rintro ⟨i, hi, rfl⟩
      rw [show a + BitVec.ofNat 32 i - a = BitVec.ofNat 32 i by bv_omega, BitVec.toNat_ofNat]
      exact lt_of_le_of_lt (Nat.mod_le _ _) hi
  rw [himg, Set.InjOn.ncard_image, Set.ncard_coe_finset, Finset.card_range]
  intro i hi j hj hij
  simp only [Finset.coe_range, Set.mem_Iio] at hi hj
  have h := congrArg BitVec.toNat (BitVec.add_right_inj a |>.mp hij)
  rwa [BitVec.toNat_ofNat, BitVec.toNat_ofNat, Nat.mod_eq_of_lt (by omega),
    Nat.mod_eq_of_lt (by omega)] at h

instance : Finite Addr := Finite.of_injective BitVec.toFin fun _ _ h => BitVec.eq_of_toFin_eq h

/-- The addresses of a list of spans. -/
def spans (l : List (Addr × ℕ)) : Set Addr := {x | ∃ p ∈ l, x ∈ span p.1 p.2}

@[simp]
theorem mem_spans {l : List (Addr × ℕ)} {x : Addr} :
    x ∈ spans l ↔ ∃ p ∈ l, x ∈ span p.1 p.2 := Iff.rfl

@[simp]
theorem spans_nil : spans [] = ∅ := by
  simp [spans]

theorem spans_cons (p : Addr × ℕ) (l : List (Addr × ℕ)) :
    spans (p :: l) = span p.1 p.2 ∪ spans l := by
  refine Set.ext fun x => ?_
  simp

/-! ### Loads -/

namespace Mem

/-- Little-endian 16-bit load. -/
def read16 (m : Mem) (a : Addr) : BitVec 16 := m (a + 1) ++ m a

/-- Little-endian 32-bit load. -/
def read32 (m : Mem) (a : Addr) : BitVec 32 := m.read16 (a + 2) ++ m.read16 a

/-- Little-endian 64-bit load. -/
def read64 (m : Mem) (a : Addr) : BitVec 64 := m.read32 (a + 4) ++ m.read32 a

theorem read16_congr {m m' : Mem} {a : Addr} (h : Set.EqOn m m' (span a 2)) :
    m.read16 a = m'.read16 a := by
  rw [read16, read16, h (x := a) (by simp), h (x := a + 1) (by simp only [mem_span]; bv_omega)]

theorem read32_congr {m m' : Mem} {a : Addr} (h : Set.EqOn m m' (span a 4)) :
    m.read32 a = m'.read32 a := by
  have hlo : Set.EqOn m m' (span a 2) := h.mono (span_mono (by omega))
  have hhi : Set.EqOn m m' (span (a + 2) 2) :=
    h.mono (span_add_subset (k := 2) (by omega) (by omega))
  rw [read32, read32, read16_congr hlo, read16_congr hhi]

theorem read64_congr {m m' : Mem} {a : Addr} (h : Set.EqOn m m' (span a 8)) :
    m.read64 a = m'.read64 a := by
  have hlo : Set.EqOn m m' (span a 4) := h.mono (span_mono (by omega))
  have hhi : Set.EqOn m m' (span (a + 4) 4) :=
    h.mono (span_add_subset (k := 4) (by omega) (by omega))
  rw [read64, read64, read32_congr hlo, read32_congr hhi]

/-! ### Stores -/

/-- Store of one byte. -/
def write8 (m : Mem) (a : Addr) (v : BitVec 8) : Mem := fun x => if x = a then v else m x

/-- Little-endian 16-bit store. -/
def write16 (m : Mem) (a : Addr) (v : BitVec 16) : Mem :=
  (m.write8 a (v.extractLsb' 0 8)).write8 (a + 1) (v.extractLsb' 8 8)

/-- Little-endian 32-bit store. -/
def write32 (m : Mem) (a : Addr) (v : BitVec 32) : Mem :=
  (m.write16 a (v.extractLsb' 0 16)).write16 (a + 2) (v.extractLsb' 16 16)

/-- Store of consecutive bytes, in address order. -/
def writeBytes (m : Mem) (a : Addr) : List (BitVec 8) → Mem
  | [] => m
  | b :: bs => (m.write8 a b).writeBytes (a + 1) bs

@[simp]
theorem write8_same (m : Mem) (a : Addr) (v : BitVec 8) : m.write8 a v a = v := if_pos rfl

theorem write8_of_ne (m : Mem) {a x : Addr} (v : BitVec 8) (h : x ≠ a) : m.write8 a v x = m x :=
  if_neg h

theorem eqOn_write8 (m : Mem) (a : Addr) (v : BitVec 8) :
    Set.EqOn (m.write8 a v) m (span a 1)ᶜ := by
  intro x hx
  refine write8_of_ne m v fun h => hx ?_
  simp [h]

theorem eqOn_write16 (m : Mem) (a : Addr) (v : BitVec 16) :
    Set.EqOn (m.write16 a v) m (span a 2)ᶜ := by
  intro x hx
  have h0 : x ∉ span a 1 := fun h => hx (span_mono (by omega) h)
  have h1 : x ∉ span (a + 1) 1 :=
    fun h => hx (span_add_subset (k := 1) (by omega) (by omega) h)
  rw [write16, eqOn_write8 _ _ _ h1, eqOn_write8 _ _ _ h0]

theorem eqOn_write32 (m : Mem) (a : Addr) (v : BitVec 32) :
    Set.EqOn (m.write32 a v) m (span a 4)ᶜ := by
  intro x hx
  have h0 : x ∉ span a 2 := fun h => hx (span_mono (by omega) h)
  have h1 : x ∉ span (a + 2) 2 :=
    fun h => hx (span_add_subset (k := 2) (by omega) (by omega) h)
  rw [write32, eqOn_write16 _ _ _ h1, eqOn_write16 _ _ _ h0]

/-- A run of bytes changes what it covers. -/
theorem eqOn_writeBytes (m : Mem) (a : Addr) (bs : List (BitVec 8)) (hlen : bs.length ≤ 2 ^ 32) :
    Set.EqOn (m.writeBytes a bs) m (span a bs.length)ᶜ := by
  induction bs generalizing m a with
  | nil => exact fun x _ => rfl
  | cons b bs ih =>
    rw [List.length_cons] at hlen ⊢
    intro x hx
    have h0 : x ∉ span a 1 := fun h => hx (span_mono (by omega) h)
    have h1 : x ∉ span (a + 1) bs.length :=
      fun h => hx (span_add_subset (k := 1) (by omega) hlen h)
    rw [writeBytes, ih _ _ (by omega) h1, eqOn_write8 _ _ _ h0]

/-- Bytes are stored one run after the other. -/
theorem writeBytes_append (m : Mem) (a : Addr) (bs cs : List (BitVec 8)) :
    m.writeBytes a (bs ++ cs) =
      (m.writeBytes a bs).writeBytes (a + BitVec.ofNat 32 bs.length) cs := by
  induction bs generalizing m a with
  | nil => simp [writeBytes]
  | cons b bs ih =>
    have ha : a + 1 + BitVec.ofNat 32 bs.length = a + BitVec.ofNat 32 (bs.length + 1) := by bv_omega
    rw [List.cons_append, writeBytes, ih, List.length_cons, ha, writeBytes]

@[simp]
theorem read16_write16 (m : Mem) (a : Addr) (v : BitVec 16) : (m.write16 a v).read16 a = v := by
  have hne : a ≠ a + 1 := by bv_omega
  rw [read16, write16, write8_same, write8_of_ne _ _ hne, write8_same]
  exact BitVec.extractLsb'_append_extractLsb'_eq_extractLsb' rfl |>.trans (by simp)

@[simp]
theorem read32_write32 (m : Mem) (a : Addr) (v : BitVec 32) : (m.write32 a v).read32 a = v := by
  have hlo : ((m.write16 a (v.extractLsb' 0 16)).write16 (a + 2)
      (v.extractLsb' 16 16)).read16 a = v.extractLsb' 0 16 := by
    have hd : Disjoint (span (a + BitVec.ofNat 32 0) 2) (span (a + BitVec.ofNat 32 2) 2) :=
      disjoint_span_add le_rfl (by omega)
    refine Eq.trans (read16_congr ?_) (read16_write16 m a (v.extractLsb' 0 16))
    exact (eqOn_write16 _ _ _).mono (Set.subset_compl_iff_disjoint_right.mpr (by simpa using hd))
  rw [read32, write32, read16_write16, hlo]
  exact BitVec.extractLsb'_append_extractLsb'_eq_extractLsb' rfl |>.trans (by simp)

/-- A store does not reach a load whose footprint lies outside the store's. -/
theorem read16_of_eqOn_compl {m m' : Mem} {a : Addr} {s : Set Addr}
    (h : Set.EqOn m' m sᶜ) (hd : Disjoint (span a 2) s) : m'.read16 a = m.read16 a :=
  read16_congr (h.mono (Set.subset_compl_iff_disjoint_right.mpr hd))

theorem read32_of_eqOn_compl {m m' : Mem} {a : Addr} {s : Set Addr}
    (h : Set.EqOn m' m sᶜ) (hd : Disjoint (span a 4) s) : m'.read32 a = m.read32 a :=
  read32_congr (h.mono (Set.subset_compl_iff_disjoint_right.mpr hd))

end Mem

end ByteMem
