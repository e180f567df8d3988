import Arm9LinuxFw.Common
import Arm9LinuxFw.Lib.Blocks

/-!
# The screen of a fatal error

`arm/err.c` draws the registers of a crash into the bottom screen, over and over.

* `drawChar`, `drawHex`, `drawRegs` and `handleFatalError` are the functions of the file, on
  memory. The screen is a block of memory in which the pixels of a column follow one another from
  the bottom up, three bytes each; `pixel` is where the code puts one.
* `picture` is what is to be seen, as a function of the sixteen registers and of the address alone:
  sixteen lines of eight digits, in glyphs of eight by eight dots. What a store puts into a pixel
  depends on nothing but the registers and where the pixel is. That makes the drawing an overlay
  (`Overlay` of `Lib/Blocks`): in whatever order the pixels are drawn, and however often, the text
  area has the picture and everything else is as it was.
* `drawChar_overlay`, `drawHex_overlay` and `drawRegs_overlay` follow the loops, from dots to
  digits, from digits to lines and from lines to the text area. The registers are read while they
  are drawn, so that they must not be on the screen themselves.
* `handleFatalError_overlay` is about any number of rounds of the endless loop but none: a round
  over a finished picture changes nothing.
* The registers can be read off the picture (`eq_of_picture_eq`): the glyphs are told apart by
  their dots, and a word is its eight digits.
-/

namespace Arm9LinuxFw

open ByteMem

/-! ### Drawing -/

/-- `num_font` -/
def numFont : List U8 := [
  0b00000000, 0b00011000, 0b00100100, 0b00101100, 0b00110100, 0b00100100, 0b00011000, 0b00000000,
  0b00000000, 0b00011000, 0b00101000, 0b00001000, 0b00001000, 0b00001000, 0b00111100, 0b00000000,
  0b00000000, 0b00011000, 0b00100100, 0b00000100, 0b00001000, 0b00010000, 0b00111100, 0b00000000,
  0b00000000, 0b00111000, 0b00000100, 0b00011000, 0b00000100, 0b00000100, 0b00111000, 0b00000000,
  0b00000000, 0b00100100, 0b00100100, 0b00111100, 0b00000100, 0b00000100, 0b00000100, 0b00000000,
  0b00000000, 0b00111100, 0b00100000, 0b00111000, 0b00000100, 0b00000100, 0b00111000, 0b00000000,
  0b00000000, 0b00011100, 0b00100000, 0b00111000, 0b00100100, 0b00100100, 0b00011000, 0b00000000,
  0b00000000, 0b00111100, 0b00000100, 0b00000100, 0b00001000, 0b00010000, 0b00010000, 0b00000000,
  0b00000000, 0b00011000, 0b00100100, 0b00011000, 0b00100100, 0b00100100, 0b00011000, 0b00000000,
  0b00000000, 0b00011000, 0b00100100, 0b00011100, 0b00000100, 0b00000100, 0b00111000, 0b00000000,
  0b00000000, 0b00011000, 0b00100100, 0b00111100, 0b00100100, 0b00100100, 0b00100100, 0b00000000,
  0b00000000, 0b00111000, 0b00100100, 0b00111000, 0b00100100, 0b00100100, 0b00111000, 0b00000000,
  0b00000000, 0b00011100, 0b00100000, 0b00100000, 0b00100000, 0b00100000, 0b00011100, 0b00000000,
  0b00000000, 0b00110000, 0b00101000, 0b00100100, 0b00100100, 0b00101000, 0b00110000, 0b00000000,
  0b00000000, 0b00111100, 0b00100000, 0b00111100, 0b00100000, 0b00100000, 0b00111100, 0b00000000,
  0b00000000, 0b00111100, 0b00100000, 0b00111100, 0b00100000, 0b00100000, 0b00100000, 0b00000000]

/-- `PX_TO_ADDR` -/
def pxToAddr (x y : ℤ) : ℤ := ((239 - y) + 240 * x) * 3

/-- `draw_char` -/
def drawChar (fb c : U32) (x y : ℤ) (m : Mem) : Mem :=
  (List.range 8).foldl (fun m j => (List.range 8).foldl (fun m i =>
    let fbpos := fb + BitVec.ofInt 32 (pxToAddr (x + (i : ℕ)) (y + (j : ℕ)))
    -- the leftmost column is bit 8, which no row of the font has
    let mask := numFont.getD (c.toNat * 8 + j) 0 >>> (8 - i) &&& 1
    let col : U8 := if mask ≠ 0 then 0xff else 0
    ((m.write8 fbpos col).write8 (fbpos + 1) col).write8 (fbpos + 1 + 1) col) m) m

/-- The loop of `draw_hex`, with `n` digits left to draw. -/
def drawHexLoop (fb : U32) (y : ℤ) : ℕ → U32 → ℤ → Mem → Mem
  | 0, _, _, m => m
  | n + 1, num, x, m => drawHexLoop fb y n (num >>> 4) (x - 8) (drawChar fb (num &&& 0xf) x y m)

/-- `draw_hex` -/
def drawHex (fb num : U32) (x y : ℤ) (m : Mem) : Mem := drawHexLoop fb y 8 num (x + 7 * 8) m

/-- The bottom screen, where `draw_regs` draws. -/
def bottomScreen : U32 := 0x18119400

/-- `draw_regs` -/
def drawRegs (regs : U32) (m : Mem) : Mem :=
  (List.range 16).foldl (fun m i =>
    drawHex bottomScreen (m.read32 (regs + BitVec.ofNat 32 (4 * i))) 16 ((i + 1) * 8) m) m

/-- `handle_fatal_error`, after `n` rounds. -/
def handleFatalError (n : ℕ) (regs : U32) (m : Mem) : Mem := (drawRegs regs)^[n] m

/-! ### The picture -/

/-- What a pixel of a glyph is set to. -/
def glyph (c i j : ℕ) : U8 :=
  if numFont.getD (c * 8 + j) 0 >>> (8 - i) &&& 1 ≠ 0 then 0xff else 0

/-- A hexadecimal digit, the lowest one being the first. -/
def digit (w : U32) (k : ℕ) : ℕ := (w >>> (4 * k) &&& 0xf).toNat

/-- The bytes of a pixel. -/
def pixel (x y : ℕ) : Set U32 := span (bottomScreen + BitVec.ofNat 32 (3 * (239 - y + 240 * x))) 3

/-- The screen that shows 16 registers, one a line, in hexadecimal digits. -/
def picture (regs : ℕ → U32) (a : U32) : U8 :=
  let p := (a - bottomScreen).toNat / 3
  let x := p / 240
  let y := 239 - p % 240
  glyph (digit (regs (y / 8 - 1)) (9 - x / 8)) (x % 8) (y % 8)

/-- Inside a pixel the picture has the value of the glyph it belongs to: the place decides which
register, which digit and which dot. -/
theorem picture_of_mem {regs : ℕ → U32} {a : U32} {x y : ℕ} (hx : x < 320) (hy : y < 240)
    (ha : a ∈ pixel x y) :
    picture regs a = glyph (digit (regs (y / 8 - 1)) (9 - x / 8)) (x % 8) (y % 8) := by
  have hoff : (a - bottomScreen).toNat / 3 = 239 - y + 240 * x := by
    rw [pixel] at ha
    have hsub := toNat_sub_add_ofNat ha (show 3 * (239 - y + 240 * x) + 3 ≤ 230400 by omega)
      (by omega)
    rw [mem_span] at ha
    omega
  rw [picture, hoff, show (239 - y + 240 * x) / 240 = x by omega,
    show 239 - (239 - y + 240 * x) % 240 = y by omega]

/-- The pixels lie inside the screen. -/
private theorem pixel_subset {x y : ℕ} (hx : x < 320) (hy : y < 240) :
    pixel x y ⊆ span bottomScreen (240 * 320 * 3) :=
  span_add_subset (by omega) (by omega)

/-- The bytes of the eight by eight pixels from `(x, y)` on. -/
def charBox (x y : ℕ) : Set U32 := {a | ∃ j < 8, a ∈ {a | ∃ i < 8, a ∈ pixel (x + i) (y + j)}}

/-- The bytes of a line of eight digits. -/
def line (y : ℕ) : Set U32 := {a | ∃ k < 8, a ∈ charBox (16 + 8 * k) y}

/-- The bytes of the sixteen lines. -/
def textArea : Set U32 := {a | ∃ i < 16, a ∈ line (8 * (i + 1))}

/-- So does the text, which leaves a margin on all sides. -/
theorem textArea_subset : textArea ⊆ span bottomScreen (240 * 320 * 3) := by
  rintro a ⟨row, hrow, k, hk, j, hj, i, hi, ha⟩
  exact pixel_subset (by omega) (by omega) ha

/-! ### What is drawn -/

/-- The three stores of a pixel. -/
private theorem stores_eq_fill (m : Mem) (p : U32) (col : U8) :
    ((m.write8 p col).write8 (p + 1) col).write8 (p + 1 + 1) col = m.fill p col 3 := by
  rw [Mem.write8_eq_fill, Mem.write8_eq_fill, Mem.write8_eq_fill,
    show p + 1 + 1 = p + BitVec.ofNat 32 2 by bv_omega]
  exact (congrArg (Mem.fill · _ _ _) (Mem.fill_add m (k := 1) (j := 1) (by omega))).trans
    (Mem.fill_add m (by omega))

/-- A `memset` with what the picture has there draws that part of it. -/
private theorem fill_overlay {P : U32 → U8} {b : U32} {v : U8} {n : ℕ} (m : Mem)
    (hP : ∀ a ∈ span b n, P a = v) : Overlay P (span b n) m (m.fill b v n) where
  on a ha := (Mem.fill_of_mem ha).trans (hP a ha).symm
  off := Mem.eqOn_fill m b v n

/-- On the screen `PX_TO_ADDR` is not negative. -/
private theorem ofInt_pxToAddr (x : ℕ) {y : ℕ} (hy : y < 240) :
    BitVec.ofInt 32 (pxToAddr x y) = BitVec.ofNat 32 (3 * (239 - y + 240 * x)) := by
  rw [← BitVec.ofInt_natCast, pxToAddr]
  congr 1
  omega

/-- A character is drawn dot by dot, in columns from the top. -/
private theorem drawChar_overlay {P : U32 → U8} {c : U32} {x y : ℕ} (m : Mem) (hy : y + 8 ≤ 240)
    (hP : ∀ j < 8, ∀ i < 8, ∀ a ∈ pixel (x + i) (y + j), P a = glyph c.toNat i j) :
    Overlay P (charBox x y) m (drawChar bottomScreen c x y m) := by
  refine Overlay.foldl_range fun j hj m₁ _ => Overlay.foldl_range fun i hi m₂ _ => ?_
  have hpos := ofInt_pxToAddr (x + i) (show y + j < 240 by omega)
  push_cast at hpos
  simp only [stores_eq_fill, hpos]
  exact fill_overlay m₂ (hP j hj i hi)

/-- The digits that are left when `n` are, of the line of a register. -/
private theorem drawHexLoop_overlay (regs : ℕ → U32) {row : ℕ} (hrow : row < 16) {n : ℕ}
    (hn : n ≤ 8)
    (m : Mem) :
    Overlay (picture regs) {a | ∃ k < n, a ∈ charBox (16 + 8 * k) (8 * (row + 1))} m
      (drawHexLoop bottomScreen (8 * (row + 1) : ℕ) n (regs row >>> (4 * (8 - n)))
        (8 + 8 * n : ℕ) m) := by
  induction n generalizing m with
  | zero =>
    have hnone : {a | ∃ k < 0, a ∈ charBox (16 + 8 * k) (8 * (row + 1))} = ∅ :=
      Set.ext fun a => by simp
    rw [hnone]
    exact Overlay.refl _ m
  | succ n ih =>
    have hsplit : {a | ∃ k < n + 1, a ∈ charBox (16 + 8 * k) (8 * (row + 1))} =
        charBox (16 + 8 * n) (8 * (row + 1)) ∪
          {a | ∃ k < n, a ∈ charBox (16 + 8 * k) (8 * (row + 1))} :=
      Set.ext fun a => Nat.exists_lt_succ_right.trans or_comm
    have hnum : regs row >>> (4 * (8 - (n + 1))) >>> 4 = regs row >>> (4 * (8 - n)) := by
      rw [← BitVec.shiftRight_add]
      congr 1
      omega
    have hx : ((16 + 8 * n : ℕ) : ℤ) - 8 = (8 + 8 * n : ℕ) := by omega
    rw [drawHexLoop, hnum, show 8 + 8 * (n + 1) = 16 + 8 * n by omega, hx, hsplit]
    refine (drawChar_overlay m (by omega) fun j hj i hi a ha => ?_).trans (ih (by omega) _)
    rw [picture_of_mem (by omega) (by omega) ha, show (8 * (row + 1) + j) / 8 - 1 = row by omega,
      show 9 - (16 + 8 * n + i) / 8 = 8 - (n + 1) by omega,
      show (16 + 8 * n + i) % 8 = i by omega, show (8 * (row + 1) + j) % 8 = j by omega, digit]

/-- A number is drawn digit by digit, from the last one on, as the code shifts it. -/
private theorem drawHex_overlay (regs : ℕ → U32) {row : ℕ} (hrow : row < 16) (m : Mem) :
    Overlay (picture regs) (line (8 * (row + 1))) m
      (drawHex bottomScreen (regs row) 16 ((row + 1) * 8) m) := by
  have h := drawHexLoop_overlay regs hrow le_rfl m
  have hy : ((8 * (row + 1) : ℕ) : ℤ) = (row + 1) * 8 := by omega
  rw [Nat.sub_self, Nat.mul_zero, BitVec.ushiftRight_zero, hy] at h
  exact h

/-- The registers of a dump. -/
def dump (regs : U32) (m : Mem) (i : ℕ) : U32 := m.read32 (regs + BitVec.ofNat 32 (4 * i))

/-- Stores to the screen leave a dump that is not on it. -/
theorem dump_of_off {regs : U32} {m m' : Mem} {A : Set U32}
    (hd : Disjoint (span regs 64) (span bottomScreen (240 * 320 * 3)))
    (hA : A ⊆ span bottomScreen (240 * 320 * 3)) (h : Set.EqOn m' m Aᶜ) {i : ℕ} (hi : i < 16) :
    dump regs m' i = dump regs m i :=
  Mem.read32_of_eqOn_compl h (hd.mono (span_add_subset (by omega) (by omega)) hA)

/-- The picture depends on the sixteen registers only. -/
theorem picture_congr {regs regs' : ℕ → U32} (h : ∀ i < 16, regs i = regs' i) :
    Set.EqOn (picture regs) (picture regs') textArea := by
  rintro a ⟨row, hrow, k, hk, j, hj, i, hi, ha⟩
  rw [picture_of_mem (by omega) (by omega) ha, picture_of_mem (by omega) (by omega) ha,
    show (8 * (row + 1) + j) / 8 - 1 = row by omega, h row hrow]

/-- The registers are drawn line by line; they are not on the screen, so that drawing one does not
change the next. -/
private theorem drawRegs_overlay {regs : U32} (m : Mem)
    (hd : Disjoint (span regs 64) (span bottomScreen (240 * 320 * 3))) :
    Overlay (picture (dump regs m)) textArea m (drawRegs regs m) := by
  refine Overlay.foldl_range fun row hrow m' hm' => ?_
  have hsub : {a | ∃ i < row, a ∈ line (8 * (i + 1))} ⊆ textArea := by
    rintro a ⟨i, hi, ha⟩
    exact ⟨i, by omega, ha⟩
  have hword : Mem.read32 m' (regs + BitVec.ofNat 32 (4 * row)) = dump regs m row :=
    dump_of_off hd (hsub.trans textArea_subset) hm'.off hrow
  rw [hword]
  exact drawHex_overlay (dump regs m) hrow m'

/-- However many rounds, the screen is the same. -/
theorem handleFatalError_overlay {n : ℕ} (hn : 0 < n) {regs : U32} (m : Mem)
    (hd : Disjoint (span regs 64) (span bottomScreen (240 * 320 * 3))) :
    Overlay (picture (dump regs m)) textArea m (handleFatalError n regs m) := by
  induction n, hn using Nat.le_induction with
  | base => exact drawRegs_overlay m hd
  | succ n hn ih =>
    have hdump : ∀ i < 16, dump regs (handleFatalError n regs m) i = dump regs m i :=
      fun i hi => dump_of_off hd textArea_subset ih.off hi
    have hround := drawRegs_overlay (handleFatalError n regs m) hd
    rw [handleFatalError, Function.iterate_succ_apply']
    rw [← Set.union_self textArea]
    exact ih.trans ⟨hround.on.trans (picture_congr hdump), hround.off⟩

/-! ### Reading the screen -/

/-- No two digits have the same glyph. -/
private theorem glyph_injective :
    ∀ c c' : Fin 16, (∀ j i : Fin 8, glyph c i j = glyph c' i j) → c = c' := by
  decide

/-- A digit is one of the sixteen glyphs. -/
private theorem digit_lt (w : U32) (k : ℕ) : digit w k < 16 := by
  rw [digit, BitVec.toNat_and]
  exact (Nat.and_le_right).trans_lt (by decide)

/-- A word is its eight digits. -/
private theorem eq_of_digits {w w' : U32} (h : ∀ k < 8, digit w k = digit w' k) : w = w' := by
  refine BitVec.eq_of_getLsbD_eq fun i hi => ?_
  have hdigit := BitVec.eq_of_toNat_eq (h (i / 4) (by omega))
  have hbit := congrArg (BitVec.getLsbD · (i % 4)) hdigit
  have hmask : (0xf : U32).getLsbD (i % 4) = true := by
    rw [show (0xf : U32) = BitVec.ofNat 32 (2 ^ 4 - 1) by rfl, BitVec.getLsbD_ofNat,
      Nat.testBit_two_pow_sub_one]
    simp
    omega
  simpa only [BitVec.getLsbD_and, BitVec.getLsbD_ushiftRight, Nat.div_add_mod, hmask,
    Bool.and_true] using hbit

/-- The registers can be read off the screen. -/
theorem eq_of_picture_eq {regs regs' : ℕ → U32}
    (h : Set.EqOn (picture regs) (picture regs') textArea) {row : ℕ} (hrow : row < 16) :
    regs row = regs' row := by
  refine eq_of_digits fun k hk => ?_
  have hglyph (j i : Fin 8) : glyph (digit (regs row) k) i j = glyph (digit (regs' row) k) i j := by
    have hi := i.isLt
    have hj := j.isLt
    -- the digit stands `7 - k` places from the left
    obtain ⟨a, ha⟩ : ∃ a, a ∈ pixel (16 + 8 * (7 - k) + i) (8 * (row + 1) + j) :=
      ⟨_, by rw [pixel, mem_span, BitVec.sub_self]; decide⟩
    have hcell := h ⟨row, hrow, 7 - k, by omega, j, hj, i, hi, ha⟩
    rwa [picture_of_mem (by omega) (by omega) ha, picture_of_mem (by omega) (by omega) ha,
      show (8 * (row + 1) + (j : ℕ)) / 8 - 1 = row by omega,
      show 9 - (16 + 8 * (7 - k) + (i : ℕ)) / 8 = k by omega,
      show (16 + 8 * (7 - k) + (i : ℕ)) % 8 = i by omega,
      show (8 * (row + 1) + (j : ℕ)) % 8 = j by omega] at hcell
  exact Fin.mk.inj (glyph_injective ⟨_, digit_lt (regs row) k⟩ ⟨_, digit_lt (regs' row) k⟩ hglyph)

end Arm9LinuxFw
