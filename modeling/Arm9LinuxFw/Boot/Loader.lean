import Arm9LinuxFw.Common
import Arm9LinuxFw.Lib.Blocks
import Arm9LinuxFw.Lib.Hoare

/-!
# The loader

`reloc.s` and `link.ld`: the firmware is one image in AHB memory. `__start` copies the vectors, the
code and the data from where they were loaded to where they run, and clears the BSS.

* `bootReloc` and `clearBss` are the two loops of `reloc.s`, round by round, on the registers that
  they keep across rounds. A round of `BootReloc` loads four words before it stores the first of
  them; a round of the other one stores zero four times.
* `Relocates` and `Clears` are what a loop needs of the registers it starts from: that the end is
  a whole number of blocks away, and that a copy does not run into its own source. Under those,
  `BootReloc` is `memcpy` (`Mem.copy`) and the other loop `memset` (`Mem.fill`), in as many rounds
  as there are blocks.
* `Layout` has the sizes of the sections, and carries that no region overflows: the linker fails
  otherwise, so that there is no image without it. The addresses that the script computes, load
  addresses, starts and ends, are functions of the sizes.
* `Layout.load` is what `__start` makes of memory and `Layout.Loaded` what it is to be: the sections
  where they run as they were in the image, the BSS cleared, the device table in its place between
  the data, and everything else left alone, the image it runs from included.
* `start_loads` is the result, for every layout and any contents of memory.

That the regions are apart is what the proof rests on: no copy destroys what a later one is to read,
nor what an earlier one has put in place.
-/

namespace Arm9LinuxFw

open Hoare ByteMem

/-! ### `reloc.s` -/

/-- The registers that the loops of `__start` keep across rounds, and memory. -/
structure BootCpu where
  r0 : U32
  r1 : U32
  r2 : U32
  mem : Mem

/-- `ldmia r0!, {r3-r6}` and `stmia r1!, {r3-r6}`. -/
def BootCpu.moveWords (c : BootCpu) : BootCpu :=
  -- all four words are loaded before the first is stored
  let words := c.mem.readWords c.r0 4
  { c with r0 := c.r0 + 16, r1 := c.r1 + 16, mem := c.mem.writeWords c.r1 words }

/-- `BootReloc` up to its branch back. -/
def bootRelocRound : Prog BootCpu (PUnit ⊕ PUnit) := do
  let c ← get
  if c.r1 < c.r2 then do
    modify BootCpu.moveWords
    pure (.inl ⟨⟩)
  else pure (.inr ⟨⟩)

/-- `BootReloc`. -/
def bootReloc (fuel : ℕ) : Prog BootCpu PUnit := untilDone (fun _ => bootRelocRound) fuel ⟨⟩

/-- `str r2, [r0], #4` -/
def BootCpu.storeWord (c : BootCpu) : BootCpu :=
  { c with r0 := c.r0 + 4, mem := c.mem.write32 c.r0 c.r2 }

/-- The loop that clears the BSS, up to its branch back. -/
def clearBssRound : Prog BootCpu (PUnit ⊕ PUnit) := do
  let c ← get
  if c.r0 < c.r1 then do
    modify BootCpu.storeWord
    pure (.inl ⟨⟩)
  else pure (.inr ⟨⟩)

def clearBss (fuel : ℕ) : Prog BootCpu PUnit := untilDone (fun _ => clearBssRound) fuel ⟨⟩

/-- A call of `BootReloc`. -/
def relocate (fuel : ℕ) (lma s e : U32) : Prog BootCpu PUnit := do
  modify fun c => { c with r0 := lma, r1 := s, r2 := e }
  bootReloc fuel

/-- An address that does not come round. -/
theorem toNat_add_ofNat {a : U32} {n : ℕ} (h : a.toNat + n < 2 ^ 32) :
    (a + BitVec.ofNat 32 n).toNat = a.toNat + n := by
  rw [BitVec.toNat_add, BitVec.toNat_ofNat]
  omega

/-! ### `BootReloc` is `memcpy` -/

section Reloc

/-- After `k` rounds of `BootReloc`. -/
def BootCpu.relocated (c : BootCpu) (k : ℕ) : BootCpu :=
  { c with
    r0 := c.r0 + BitVec.ofNat 32 (16 * k)
    r1 := c.r1 + BitVec.ofNat 32 (16 * k)
    mem := c.mem.copy c.r1 c.r0 (16 * k) }

/-- Before the first round nothing has moved. -/
private theorem relocated_zero (c : BootCpu) : c.relocated 0 = c := by
  simp [BootCpu.relocated]

/-- What a call of `BootReloc` is made with: `n` blocks of 16 bytes to copy, which do not meet
where they go. -/
structure BootCpu.Relocates (c : BootCpu) (n : ℕ) : Prop where
  len : c.r2.toNat = c.r1.toNat + 16 * n
  disjoint : Disjoint (span c.r0 (16 * n)) (span c.r1 (16 * n))

variable {c : BootCpu} {n : ℕ}

/-- The words of a round have not been stored to by the rounds before. -/
private theorem moveWords_relocated (h : c.Relocates n) {k : ℕ} (hk : k < n) :
    (c.relocated k).moveWords = c.relocated (k + 1) := by
  have hr2 := c.r2.isLt
  have hlen := h.len
  have hround {a : U32} : span (a + BitVec.ofNat 32 (16 * k)) 16 ⊆ span a (16 * n) :=
    span_add_subset (by omega) (by omega)
  have hbefore {a : U32} : span a (16 * k) ⊆ span a (16 * n) := span_mono (by omega)
  have hnext {a : U32} :
      a + BitVec.ofNat 32 (16 * k) + 16 = a + BitVec.ofNat 32 (16 * (k + 1)) := by bv_omega
  have hmem : (c.relocated k).mem.writeWords (c.relocated k).r1
      ((c.relocated k).mem.readWords (c.relocated k).r0 4) = (c.relocated (k + 1)).mem :=
    (Mem.writeWords_readWords (n := 4) (by omega) (fun _ _ => rfl)
      (h.disjoint.mono hround hround)).trans
        (Mem.copy_add c.mem (by omega) (h.disjoint.mono hround hbefore))
  rw [BootCpu.moveWords, hmem]
  simp only [BootCpu.relocated, hnext]

/-- A round moves one more block, or finds that none is left. -/
private theorem wp_bootRelocRound (h : c.Relocates n) {k : ℕ} (hk : k ≤ n) :
    wp bootRelocRound (fun r t => r = (if k < n then .inl ⟨⟩ else .inr ⟨⟩) ∧
      t = c.relocated (if k < n then k + 1 else k)) never (c.relocated k) := by
  have hr2 := c.r2.isLt
  have hlen := h.len
  have hr1 : (c.relocated k).r1.toNat = c.r1.toNat + 16 * k := toNat_add_ofNat (by omega)
  have hlt : (c.relocated k).r1 < (c.relocated k).r2 ↔ k < n := by
    rw [BitVec.lt_def, hr1, BootCpu.relocated, hlen]
    omega
  rw [bootRelocRound, wp_bind, wp_get, wp_ite]
  simp only [hlt]
  split_ifs with hkn
  · exact ⟨rfl, moveWords_relocated h hkn⟩
  · exact ⟨rfl, rfl⟩

/-- As its comment says, `BootReloc` is `memcpy(r1, r0, r2 - r1)`. -/
private theorem wp_bootReloc (h : c.Relocates n) {fuel : ℕ} (hfuel : n < fuel) :
    wp (bootReloc fuel) (fun _ t => t = c.relocated n) never c := by
  have hr2 := c.r2.isLt
  have hlen := h.len
  have hleft {k : ℕ} (hk : k ≤ n) :
      (c.relocated k).r2.toNat - (c.relocated k).r1.toNat = 16 * (n - k) := by
    have hr1 : (c.relocated k).r1.toNat = c.r1.toNat + 16 * k := toNat_add_ofNat (by omega)
    rw [hr1, BootCpu.relocated, hlen]
    omega
  refine wp_untilDone_of_variant (I := fun _ t => ∃ k ≤ n, t = c.relocated k)
    (fun _ t => (t.r2.toNat - t.r1.toNat) / 16) ?_
    ⟨0, Nat.zero_le n, (relocated_zero c).symm⟩ (by omega)
  rintro - t ⟨k, hk, rfl⟩
  refine (wp_bootRelocRound h hk).mono ?_
  rintro - t ⟨rfl, rfl⟩
  split_ifs with hkn
  · refine ⟨⟨k + 1, hkn, rfl⟩, ?_⟩
    rw [hleft hk, hleft hkn]
    omega
  · rw [Sum.elim_inr, show k = n by omega]

end Reloc

/-! ### The BSS -/

section Bss

/-- After `k` rounds of the loop that clears the BSS. -/
def BootCpu.cleared (c : BootCpu) (k : ℕ) : BootCpu :=
  { c with
    r0 := c.r0 + BitVec.ofNat 32 (4 * k)
    mem := c.mem.fill c.r0 0 (4 * k) }

/-- Before the first round nothing is cleared. -/
private theorem cleared_zero (c : BootCpu) : c.cleared 0 = c := by
  simp [BootCpu.cleared]

/-- What the loop is entered with: `n` words to clear. -/
structure BootCpu.Clears (c : BootCpu) (n : ℕ) : Prop where
  len : c.r1.toNat = c.r0.toNat + 4 * n
  zero : c.r2 = 0

variable {c : BootCpu} {n : ℕ}

/-- A store of zero clears one more word. -/
private theorem storeWord_cleared (h : c.Clears n) {k : ℕ} (hk : k < n) :
    (c.cleared k).storeWord = c.cleared (k + 1) := by
  have hr1 := c.r1.isLt
  have hlen := h.len
  have hnext {a : U32} : a + BitVec.ofNat 32 (4 * k) + 4 = a + BitVec.ofNat 32 (4 * (k + 1)) := by
    bv_omega
  have hmem : (c.cleared k).mem.write32 (c.cleared k).r0 0 = (c.cleared (k + 1)).mem :=
    (Mem.write32_zero _ _).trans (Mem.fill_add c.mem (k := 4 * k) (j := 4) (by omega))
  rw [BootCpu.storeWord, show (c.cleared k).r2 = 0 from h.zero, hmem, ← h.zero]
  simp only [BootCpu.cleared, hnext]

/-- A round clears one more block of four words, or finds that none is left. -/
private theorem wp_clearBssRound (h : c.Clears n) {k : ℕ} (hk : k ≤ n) :
    wp clearBssRound (fun r t => r = (if k < n then .inl ⟨⟩ else .inr ⟨⟩) ∧
      t = c.cleared (if k < n then k + 1 else k)) never (c.cleared k) := by
  have hr1 := c.r1.isLt
  have hlen := h.len
  have hr0 : (c.cleared k).r0.toNat = c.r0.toNat + 4 * k := toNat_add_ofNat (by omega)
  have hlt : (c.cleared k).r0 < (c.cleared k).r1 ↔ k < n := by
    rw [BitVec.lt_def, hr0, BootCpu.cleared, hlen]
    omega
  rw [clearBssRound, wp_bind, wp_get, wp_ite]
  simp only [hlt]
  split_ifs with hkn
  · exact ⟨rfl, storeWord_cleared h hkn⟩
  · exact ⟨rfl, rfl⟩

/-- The BSS is cleared up to its end. -/
private theorem wp_clearBss (h : c.Clears n) {fuel : ℕ} (hfuel : n < fuel) :
    wp (clearBss fuel) (fun _ t => t = c.cleared n) never c := by
  have hr1 := c.r1.isLt
  have hlen := h.len
  have hleft {k : ℕ} (hk : k ≤ n) :
      (c.cleared k).r1.toNat - (c.cleared k).r0.toNat = 4 * (n - k) := by
    have hr0 : (c.cleared k).r0.toNat = c.r0.toNat + 4 * k := toNat_add_ofNat (by omega)
    rw [hr0, BootCpu.cleared, hlen]
    omega
  refine wp_untilDone_of_variant (I := fun _ t => ∃ k ≤ n, t = c.cleared k)
    (fun _ t => (t.r1.toNat - t.r0.toNat) / 4) ?_
    ⟨0, Nat.zero_le n, (cleared_zero c).symm⟩ (by omega)
  rintro - t ⟨k, hk, rfl⟩
  refine (wp_clearBssRound h hk).mono ?_
  rintro - t ⟨rfl, rfl⟩
  split_ifs with hkn
  · refine ⟨⟨k + 1, hkn, rfl⟩, ?_⟩
    rw [hleft hk, hleft hkn]
    omega
  · rw [Sum.elim_inr, show k = n by omega]

end Bss

/-! ### `link.ld` -/

/-- `ALIGN(16)`, in units of 16 bytes. -/
def blocks (n : ℕ) : ℕ := (n + 15) / 16

/-- What `link.ld` is given, in bytes, the entries of the device table in words, and that no
region overflows. -/
structure Layout where
  bootstrap : ℕ
  vector : ℕ
  text : ℕ
  data : ℕ
  vdevs : ℕ
  bss : ℕ
  fits_vector : 16 * blocks vector ≤ 64
  fits_itcm : 16 * blocks text ≤ 32 * 1024
  fits_dtcm : 16 * (blocks data + blocks (4 * vdevs) + blocks bss) ≤ 16 * 1024
  fits_ahbram : 16 * (blocks bootstrap + blocks vector + blocks text +
    (blocks data + blocks (4 * vdevs))) ≤ 48 * 1024

namespace Layout

variable (l : Layout)

/-- The size of `.data`, in units of 16 bytes. -/
def dataBlocks : ℕ := blocks l.data + blocks (4 * l.vdevs)

/-- `__vector_lma` -/
def vectorLma : U32 := BitVec.ofNat 32 (0x08080000 + 16 * blocks l.bootstrap)

/-- `__vector_s` -/
def vectorS : U32 := 0x08000000

/-- `__vector_e` -/
def vectorE : U32 := BitVec.ofNat 32 (0x08000000 + 16 * blocks l.vector)

/-- `__text_lma` -/
def textLma : U32 := BitVec.ofNat 32 (0x08080000 + 16 * (blocks l.bootstrap + blocks l.vector))

/-- `__text_s` -/
def textS : U32 := 0x01FF8000

/-- `__text_e` -/
def textE : U32 := BitVec.ofNat 32 (0x01FF8000 + 16 * blocks l.text)

/-- `__data_lma` -/
def dataLma : U32 :=
  BitVec.ofNat 32 (0x08080000 + 16 * (blocks l.bootstrap + blocks l.vector + blocks l.text))

/-- `__data_s` -/
def dataS : U32 := 0x40000000

/-- `__vdev_s` -/
def vdevS : U32 := BitVec.ofNat 32 (0x40000000 + 16 * blocks l.data)

/-- `__data_e` -/
def dataE : U32 := BitVec.ofNat 32 (0x40000000 + 16 * l.dataBlocks)

/-- `__bss_s` -/
def bssS : U32 := l.dataE

/-- `__bss_e` -/
def bssE : U32 := BitVec.ofNat 32 (0x40000000 + 16 * (l.dataBlocks + blocks l.bss))

end Layout

/-- What `__start` leaves: every section has what the image has for it, the BSS is zero, and
nothing else has changed. -/
structure Layout.Loaded (l : Layout) (m m' : Mem) : Prop where
  vector : ∀ i < 16 * blocks l.vector,
    m' (Layout.vectorS + BitVec.ofNat 32 i) = m (l.vectorLma + BitVec.ofNat 32 i)
  text : ∀ i < 16 * blocks l.text,
    m' (Layout.textS + BitVec.ofNat 32 i) = m (l.textLma + BitVec.ofNat 32 i)
  data : ∀ i < 16 * l.dataBlocks,
    m' (Layout.dataS + BitVec.ofNat 32 i) = m (l.dataLma + BitVec.ofNat 32 i)
  bss : ∀ i < 16 * blocks l.bss, m' (l.bssS + BitVec.ofNat 32 i) = 0
  frame : Set.EqOn m' m (span Layout.vectorS (16 * blocks l.vector) ∪
    span Layout.textS (16 * blocks l.text) ∪
    span Layout.dataS (16 * (l.dataBlocks + blocks l.bss)))ᶜ

/-- `__start` from the relocation of the vectors on. -/
def start (l : Layout) (fuel : ℕ) : Prog BootCpu PUnit := do
  relocate fuel l.vectorLma Layout.vectorS l.vectorE
  relocate fuel l.textLma Layout.textS l.textE
  relocate fuel l.dataLma Layout.dataS l.dataE
  modify fun c => { c with r0 := l.bssS, r1 := l.bssE, r2 := 0 }
  clearBss fuel

/-! ### Loading -/

/-- Regions of which one ends before the other begins do not meet. -/
theorem disjoint_span_of_toNat {a b : U32} {n k : ℕ} (ha : a.toNat + n ≤ 2 ^ 32)
    (hb : b.toNat + k ≤ 2 ^ 32) (h : a.toNat + n ≤ b.toNat ∨ b.toNat + k ≤ a.toNat) :
    Disjoint (span a n) (span b k) := by
  rw [Set.disjoint_left]
  intro x hx hx'
  have hlt := x.isLt
  simp only [mem_span, BitVec.toNat_sub] at hx hx'
  omega

/-- The bytes of a region, counted from its start. -/
theorem add_ofNat_mem_span {a : U32} {i n : ℕ} (hi : i < n) (hn : n ≤ 2 ^ 32) :
    a + BitVec.ofNat 32 i ∈ span a n := by
  rw [mem_span, BitVec.add_comm, BitVec.add_sub_cancel, BitVec.toNat_ofNat]
  omega

namespace Layout

variable (l : Layout)

/-- The vectors are loaded behind the bootstrap code. -/
private theorem toNat_vectorLma : l.vectorLma.toNat = 0x08080000 + 16 * blocks l.bootstrap := by
  have := l.fits_ahbram
  rw [vectorLma, BitVec.toNat_ofNat]
  omega

/-- Where the vectors end. -/
private theorem toNat_vectorE : l.vectorE.toNat = 0x08000000 + 16 * blocks l.vector := by
  have := l.fits_vector
  rw [vectorE, BitVec.toNat_ofNat]
  omega

/-- The code is loaded behind the vectors. -/
theorem toNat_textLma :
    l.textLma.toNat = 0x08080000 + 16 * (blocks l.bootstrap + blocks l.vector) := by
  have := l.fits_ahbram
  rw [textLma, BitVec.toNat_ofNat]
  omega

/-- Where the code ends. -/
private theorem toNat_textE : l.textE.toNat = 0x01FF8000 + 16 * blocks l.text := by
  have := l.fits_itcm
  rw [textE, BitVec.toNat_ofNat]
  omega

/-- The data is loaded behind the code. -/
theorem toNat_dataLma : l.dataLma.toNat =
    0x08080000 + 16 * (blocks l.bootstrap + blocks l.vector + blocks l.text) := by
  have := l.fits_ahbram
  rw [dataLma, BitVec.toNat_ofNat]
  omega

/-- Where the data ends. -/
theorem toNat_dataE : l.dataE.toNat = 0x40000000 + 16 * l.dataBlocks := by
  have := l.fits_dtcm
  rw [dataE, dataBlocks, BitVec.toNat_ofNat]
  omega

/-- Where the BSS ends. -/
theorem toNat_bssE : l.bssE.toNat = 0x40000000 + 16 * (l.dataBlocks + blocks l.bss) := by
  have := l.fits_dtcm
  rw [bssE, dataBlocks, BitVec.toNat_ofNat]
  omega

end Layout

/-- A section that does not overlap its image is copied there in as many rounds as it has blocks. -/
private theorem wp_relocate {lma s e : U32} {n fuel : ℕ} (hlen : e.toNat = s.toNat + 16 * n)
    (hd : Disjoint (span lma (16 * n)) (span s (16 * n))) (hfuel : n < fuel) (c : BootCpu) :
    wp (relocate fuel lma s e) (fun _ t => t.mem = c.mem.copy s lma (16 * n)) never c := by
  have h : BootCpu.Relocates { c with r0 := lma, r1 := s, r2 := e } n := ⟨hlen, hd⟩
  rw [relocate, wp_bind, wp_modify]
  refine (wp_bootReloc h hfuel).mono ?_
  rintro - t rfl
  rfl

/-- The memory that `__start` leaves. -/
def Layout.load (l : Layout) (m : Mem) : Mem :=
  (((m.copy Layout.vectorS l.vectorLma (16 * blocks l.vector)).copy
    Layout.textS l.textLma (16 * blocks l.text)).copy
    Layout.dataS l.dataLma (16 * l.dataBlocks)).fill l.bssS 0 (16 * blocks l.bss)

/-- `__start` does the three copies and clears the BSS, whatever the registers were. -/
private theorem wp_start (l : Layout) {fuel : ℕ} (hfuel : 4096 < fuel) (c : BootCpu) :
    wp (start l fuel) (fun _ t => t.mem = l.load c.mem) never c := by
  have hvector := l.fits_vector
  have hitcm := l.fits_itcm
  have hdtcm := l.fits_dtcm
  have hahbram := l.fits_ahbram
  have hvectorLma := l.toNat_vectorLma
  have htextLma := l.toNat_textLma
  have hdataLma := l.toNat_dataLma
  have hdata : l.dataBlocks = blocks l.data + blocks (4 * l.vdevs) := rfl
  have hvectorS : Layout.vectorS.toNat = 0x08000000 := rfl
  have htextS : Layout.textS.toNat = 0x01FF8000 := rfl
  have hdataS : Layout.dataS.toNat = 0x40000000 := rfl
  rw [start, wp_bind]
  refine (wp_relocate l.toNat_vectorE
    (disjoint_span_of_toNat (by omega) (by omega) (by omega)) (by omega) c).mono ?_
  rintro - c₁ h₁
  rw [wp_bind]
  refine (wp_relocate l.toNat_textE
    (disjoint_span_of_toNat (by omega) (by omega) (by omega)) (by omega) c₁).mono ?_
  rintro - c₂ h₂
  rw [wp_bind]
  refine (wp_relocate l.toNat_dataE
    (disjoint_span_of_toNat (by omega) (by omega) (by omega)) (by omega) c₂).mono ?_
  rintro - c₃ h₃
  have hclears : BootCpu.Clears { c₃ with r0 := l.bssS, r1 := l.bssE, r2 := 0 }
      (4 * blocks l.bss) := ⟨by
        change l.bssE.toNat = l.dataE.toNat + 4 * (4 * blocks l.bss)
        rw [l.toNat_bssE, l.toNat_dataE]
        omega, rfl⟩
  rw [wp_bind, wp_modify]
  refine (wp_clearBss hclears (by omega)).mono ?_
  rintro - t rfl
  rw [Layout.load, ← h₁, ← h₂, ← h₃, BootCpu.cleared, ← Nat.mul_assoc]

/-- A copied byte is that of the source. -/
private theorem copy_add_ofNat {m : Mem} {b a : U32} {i n : ℕ} (hi : i < n) (hn : n ≤ 2 ^ 32) :
    m.copy b a n (b + BitVec.ofNat 32 i) = m (a + BitVec.ofNat 32 i) := by
  rw [Mem.copy_of_mem (add_ofNat_mem_span hi hn), BitVec.add_comm b, BitVec.add_sub_cancel]

/-- A byte apart from the copy stays. -/
private theorem copy_apart {m : Mem} {b a c : U32} {i n k : ℕ} (hi : i < k) (hk : k ≤ 2 ^ 32)
    (hd : Disjoint (span c k) (span b n)) :
    m.copy b a n (c + BitVec.ofNat 32 i) = m (c + BitVec.ofNat 32 i) :=
  Mem.eqOn_copy m b a n (Set.disjoint_left.mp hd (add_ofNat_mem_span hi hk))

/-- A byte apart from what is cleared stays. -/
private theorem fill_apart {m : Mem} {b c : U32} {v : U8} {i n k : ℕ} (hi : i < k) (hk : k ≤ 2 ^ 32)
    (hd : Disjoint (span c k) (span b n)) :
    m.fill b v n (c + BitVec.ofNat 32 i) = m (c + BitVec.ofNat 32 i) :=
  Mem.eqOn_fill m b v n (Set.disjoint_left.mp hd (add_ofNat_mem_span hi hk))

/-- What `__start` leaves is what the linker script promises: every section where it runs, as it was
in the image. The sections do not overlap one another, so that the later copies leave the earlier
ones alone. -/
private theorem Layout.loaded_load (l : Layout) (m : Mem) : l.Loaded m (l.load m) := by
  have hvector := l.fits_vector
  have hitcm := l.fits_itcm
  have hdtcm := l.fits_dtcm
  have hahbram := l.fits_ahbram
  have htextLma := l.toNat_textLma
  have hdataLma := l.toNat_dataLma
  have hbss : l.bssS.toNat = 0x40000000 + 16 * l.dataBlocks := l.toNat_dataE
  have hdata : l.dataBlocks = blocks l.data + blocks (4 * l.vdevs) := rfl
  have hvectorS : Layout.vectorS.toNat = 0x08000000 := rfl
  have htextS : Layout.textS.toNat = 0x01FF8000 := rfl
  have hdataS : Layout.dataS.toNat = 0x40000000 := rfl
  refine ⟨fun i hi => ?_, fun i hi => ?_, fun i hi => ?_, fun i hi => ?_, fun x hx => ?_⟩
  · rw [load, fill_apart hi (by omega), copy_apart hi (by omega), copy_apart hi (by omega),
      copy_add_ofNat hi (by omega)]
    all_goals exact disjoint_span_of_toNat (by omega) (by omega) (by omega)
  · rw [load, fill_apart hi (by omega), copy_apart hi (by omega), copy_add_ofNat hi (by omega),
      copy_apart hi (by omega)]
    all_goals exact disjoint_span_of_toNat (by omega) (by omega) (by omega)
  · rw [load, fill_apart hi (by omega), copy_add_ofNat hi (by omega), copy_apart hi (by omega),
      copy_apart hi (by omega)]
    all_goals exact disjoint_span_of_toNat (by omega) (by omega) (by omega)
  · exact Mem.fill_of_mem (add_ofNat_mem_span hi (by omega))
  · simp only [Set.mem_compl_iff, Set.mem_union, not_or] at hx
    obtain ⟨⟨hxv, hxt⟩, hxd⟩ := hx
    have hsplit : span Layout.dataS (16 * (l.dataBlocks + blocks l.bss)) =
        span Layout.dataS (16 * l.dataBlocks) ∪ span l.bssS (16 * blocks l.bss) := by
      have hbssS : l.bssS = Layout.dataS + BitVec.ofNat 32 (16 * l.dataBlocks) :=
        BitVec.eq_of_toNat_eq (by rw [hbss, toNat_add_ofNat (by omega), hdataS])
      rw [hbssS, Nat.mul_add, span_add _ (by omega)]
    rw [hsplit, Set.mem_union, not_or] at hxd
    rw [load, Mem.eqOn_fill _ _ _ _ hxd.2, Mem.eqOn_copy _ _ _ _ hxd.1, Mem.eqOn_copy _ _ _ _ hxt,
      Mem.eqOn_copy _ _ _ _ hxv]

/-- A word whose bytes have been copied has been. -/
private theorem read32_of_bytes {m m' : Mem} {a b : U32}
    (h : ∀ i < 4, m' (b + BitVec.ofNat 32 i) = m (a + BitVec.ofNat 32 i)) :
    m'.read32 b = m.read32 a := by
  have h0 : m' b = m a := by simpa using h 0 (by omega)
  have h1 : m' (b + 1) = m (a + 1) := h 1 (by omega)
  have h2 : m' (b + 2) = m (a + 2) := h 2 (by omega)
  have h3 : m' (b + 2 + 1) = m (a + 2 + 1) := by
    rw [show b + 2 + 1 = b + BitVec.ofNat 32 3 by bv_omega,
      show a + 2 + 1 = a + BitVec.ofNat 32 3 by bv_omega]
    exact h 3 (by omega)
  rw [Mem.read32, Mem.read32, Mem.read16, Mem.read16, Mem.read16, Mem.read16, h0, h1, h2, h3]

/-- `virtDevGetUnsafe` -/
def Layout.virtDevGetUnsafe (l : Layout) (m : Mem) (n : ℕ) : U32 :=
  m.read32 (l.vdevS + BitVec.ofNat 32 (4 * n))

/-- The entries of the device table are those of the image. -/
theorem Layout.Loaded.virtDevGetUnsafe {l : Layout} {m m' : Mem} (h : l.Loaded m m') {n : ℕ}
    (hn : n < l.vdevs) : l.virtDevGetUnsafe m' n =
      m.read32 (l.dataLma + BitVec.ofNat 32 (16 * blocks l.data + 4 * n)) := by
  have hcovers : 4 * l.vdevs ≤ 16 * blocks (4 * l.vdevs) := by
    rw [blocks]
    omega
  have hdata : l.dataBlocks = blocks l.data + blocks (4 * l.vdevs) := rfl
  refine read32_of_bytes fun i hi => ?_
  have hbyte := h.data (16 * blocks l.data + 4 * n + i) (by omega)
  have hassoc (a : U32) (j : ℕ) : a + BitVec.ofNat 32 j + BitVec.ofNat 32 i =
      a + BitVec.ofNat 32 (j + i) := by bv_omega
  have hvdevS : l.vdevS = Layout.dataS + BitVec.ofNat 32 (16 * blocks l.data) := by
    rw [Layout.vdevS, Layout.dataS]
    bv_omega
  rw [hassoc l.vdevS, hassoc l.dataLma, ← hbyte, hvdevS]
  congr 1
  bv_omega

/-- **The loader**: for whatever layout the linker accepts, `__start` gets to the startup code with
every section where it is to run, the BSS cleared and the device table of the image, and has not
touched the image it runs from. -/
theorem start_loads (l : Layout) {fuel : ℕ} (hfuel : 4096 < fuel) (c : BootCpu) :
    wp (start l fuel) (fun _ t => l.Loaded c.mem t.mem ∧
      Set.EqOn t.mem c.mem (span 0x08080000 (48 * 1024)) ∧
      ∀ n < l.vdevs, l.virtDevGetUnsafe t.mem n =
        c.mem.read32 (l.dataLma + BitVec.ofNat 32 (16 * blocks l.data + 4 * n))) never c := by
  have hvector := l.fits_vector
  have hitcm := l.fits_itcm
  have hdtcm := l.fits_dtcm
  refine (wp_start l hfuel c).mono fun _ t ht => ?_
  rw [ht]
  have hloaded := l.loaded_load c.mem
  have hahbram : (0x08080000 : U32).toNat = 0x08080000 := rfl
  have hvectorS : Layout.vectorS.toNat = 0x08000000 := rfl
  have htextS : Layout.textS.toNat = 0x01FF8000 := rfl
  have hdataS : Layout.dataS.toNat = 0x40000000 := rfl
  have hdata : l.dataBlocks = blocks l.data + blocks (4 * l.vdevs) := rfl
  refine ⟨hloaded, hloaded.frame.mono fun x hx => ?_, fun n hn => hloaded.virtDevGetUnsafe hn⟩
  have hapart {b : U32} {n : ℕ} (hb : b.toNat + n ≤ 2 ^ 32)
      (h : 0x08080000 + 48 * 1024 ≤ b.toNat ∨ b.toNat + n ≤ 0x08080000) : x ∉ span b n :=
    Set.disjoint_left.mp (disjoint_span_of_toNat (by omega) hb (by omega)) hx
  simp only [Set.mem_compl_iff, Set.mem_union, not_or]
  exact ⟨⟨hapart (by omega) (by omega), hapart (by omega) (by omega)⟩,
    hapart (by omega) (by omega)⟩

/-- The layout of an image with two devices. -/
def sampleLayout : Layout where
  bootstrap := 200
  vector := 48
  text := 9000
  data := 700
  vdevs := 2
  bss := 5000
  fits_vector := by decide
  fits_itcm := by decide
  fits_dtcm := by decide
  fits_ahbram := by decide

/-- A layout with sections in all regions. -/
theorem start_loads_sample :
    ∃ t, exec (start sampleLayout 4097) ⟨0, 0, 0, fun a => a.setWidth 8⟩ = (some ⟨⟩, t) ∧
      sampleLayout.Loaded (fun a => a.setWidth 8) t.mem :=
  have ⟨_, t, hrun, hloaded, _⟩ :=
    (start_loads sampleLayout (by decide) ⟨0, 0, 0, fun a => a.setWidth 8⟩).returns
  ⟨t, hrun, hloaded⟩

end Arm9LinuxFw
