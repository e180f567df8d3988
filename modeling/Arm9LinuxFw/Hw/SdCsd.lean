import Arm9LinuxFw.Hw.SdInit

/-!
# The size of a card

`sdmmc_calc_size` computes the number of sectors of a card from the answer to `CMD9`, the CSD
register. This has 128 bits, of which the low 8 are not in the answer.

* `Mmcdevice.csd` is a field of the register, by the numbers of its bits. The code cuts the fields
  out of single bytes and puts them together again, in words; the lemmas `read_bl_len`, `c_size`
  and so on say that they come out whole.
* `Mmcdevice.csdSectors` is the size in sectors that the register says, a natural number, for the
  two versions of the register there are; the others are reserved, and say nothing.
* `SizedBy` is what the code makes of it. For a reserved version that is 0. For the other two it is
  at most the size of the card, and that size exactly if and only if the product of the fields
  stays below 2³² (`SizeFits`), since the code multiplies in 32 bits and divides by 512 at the end.
  A card of version 1 that says 4 GiB and the largest one of version 2 have size 0.
* `sdInit_total_size` takes this through `SD_Init`: after a start that succeeds, the size in the
  handle is `SizedBy` the last answer to `CMD9`, whatever else the controller has done.
-/

namespace Arm9LinuxFw.Sdmmc

open Hoare

/-! ### Fields -/

/-- The answer to a command, as one number. -/
def Mmcdevice.response (ctx : Mmcdevice) : BitVec 128 :=
  ctx.ret3 ++ ctx.ret2 ++ ctx.ret1 ++ ctx.ret0

/-- Bits of the register that the answer is of, from `lo` on. -/
def Mmcdevice.csd (ctx : Mmcdevice) (lo width : ℕ) : ℕ :=
  (ctx.response.extractLsb' (lo - 8) width).toNat

/-- The low bits of a byte of a wide number are a shorter field of it. -/
theorem toNat_and_mask {n : ℕ} (x : BitVec n) (s k : ℕ) (hk : k ≤ 8) :
    (x.extractLsb' s 8 &&& BitVec.ofNat 8 (2 ^ k - 1)).toNat = (x.extractLsb' s k).toNat := by
  have h8 : 2 ^ k - 1 < 2 ^ 8 :=
    (Nat.sub_lt (Nat.two_pow_pos k) one_pos).trans_le (Nat.pow_le_pow_right two_pos hk)
  rw [BitVec.toNat_and, BitVec.toNat_ofNat, Nat.mod_eq_of_lt h8, Nat.and_two_pow_sub_one_eq_mod,
    BitVec.extractLsb'_toNat, BitVec.extractLsb'_toNat]
  exact Nat.mod_mod_of_dvd _ (Nat.pow_dvd_pow 2 hk)

theorem toNat_ushiftRight {n : ℕ} (x : BitVec n) (s j : ℕ) (hj : j ≤ 8) :
    (x.extractLsb' s 8 >>> j).toNat = (x.extractLsb' (s + j) (8 - j)).toNat := by
  have h8 : 2 ^ 8 = 2 ^ j * 2 ^ (8 - j) := by rw [← pow_add, Nat.add_sub_cancel' hj]
  rw [BitVec.toNat_ushiftRight, BitVec.extractLsb'_toNat, BitVec.extractLsb'_toNat,
    Nat.shiftRight_add, Nat.shiftRight_eq_div_pow _ j, Nat.shiftRight_eq_div_pow _ j, h8,
    Nat.mod_mul_right_div_self]

private theorem and_mask_setWidth {n : ℕ} (x : BitVec n) (s k : ℕ) (hk : k ≤ 8) :
    (x.extractLsb' s 8 &&& BitVec.ofNat 8 (2 ^ k - 1)).setWidth 32 =
      (x.extractLsb' s k).setWidth 32 := by
  refine BitVec.eq_of_toNat_eq ?_
  rw [BitVec.toNat_setWidth, BitVec.toNat_setWidth, toNat_and_mask _ _ _ hk]

private theorem ushiftRight_setWidth {n : ℕ} (x : BitVec n) (s j : ℕ) (hj : j ≤ 8) :
    (x.extractLsb' s 8 >>> j).setWidth 32 = (x.extractLsb' (s + j) (8 - j)).setWidth 32 := by
  refine BitVec.eq_of_toNat_eq ?_
  rw [BitVec.toNat_setWidth, BitVec.toNat_setWidth, toNat_ushiftRight _ _ _ hj]

/-- A field behind another. -/
private theorem shiftLeft_or_setWidth {m k : ℕ} (a : BitVec m) (b : BitVec k) :
    a.setWidth 32 <<< k ||| b.setWidth 32 = (a ++ b).setWidth 32 := by
  refine BitVec.eq_of_getLsbD_eq fun i hi => ?_
  simp only [BitVec.getLsbD_or, BitVec.getLsbD_shiftLeft, BitVec.getLsbD_setWidth,
    BitVec.getLsbD_append]
  grind

/-- Two pieces of a number that touch are one piece. -/
theorem extract_adjacent {n : ℕ} (x : BitVec n) {s t l m : ℕ} (h : t = s + l) :
    (x.extractLsb' t m).setWidth 32 <<< l ||| (x.extractLsb' s l).setWidth 32 =
      (x.extractLsb' s (m + l)).setWidth 32 := by
  rw [shiftLeft_or_setWidth, BitVec.extractLsb'_append_extractLsb'_eq_extractLsb' h]

private theorem toNat_setWidth_extract {n k : ℕ} (x : BitVec n) (s : ℕ) (hk : k ≤ 32) :
    ((x.extractLsb' s k).setWidth 32).toNat = (x.extractLsb' s k).toNat := by
  rw [BitVec.toNat_setWidth]
  exact Nat.mod_eq_of_lt ((BitVec.isLt _).trans_le (Nat.pow_le_pow_right two_pos hk))

/-! ### What `sdmmc_calc_size` reads -/

section Fields

variable (ctx : Mmcdevice)

private theorem retByte_eq (i : ℕ) : ctx.retByte i = ctx.response.extractLsb' (8 * i) 8 := rfl

private theorem csd_lt (lo width : ℕ) : ctx.csd lo width < 2 ^ width := BitVec.isLt _

/-- `CSD_STRUCTURE` -/
private theorem csd_structure : (ctx.retByte 14 >>> 6).toNat = ctx.csd 126 2 :=
  toNat_ushiftRight ctx.response (8 * 14) 6 (by decide)

/-- `READ_BL_LEN` -/
private theorem read_bl_len : (ctx.retByte 9 &&& 0xf).toNat = ctx.csd 80 4 :=
  toNat_and_mask ctx.response (8 * 9) 4 (by decide)

/-- `C_SIZE_MULT` -/
private theorem c_size_mult :
    ((ctx.retByte 4 >>> 7).setWidth 32 ||| ((ctx.retByte 5 &&& 3).setWidth 32 <<< 1) : U32).toNat =
      ctx.csd 47 3 := by
  have hlow := ushiftRight_setWidth ctx.response (8 * 4) 7 (by decide)
  have hhigh := and_mask_setWidth ctx.response (8 * 5) 2 (by decide)
  rw [BitVec.or_comm]
  simp only [retByte_eq]
  rw [hlow, show (3 : U8) = BitVec.ofNat 8 (2 ^ 2 - 1) by rfl, hhigh,
    extract_adjacent _ (by rfl)]
  exact toNat_setWidth_extract _ _ (by decide)

/-- `C_SIZE`, as the first version has it -/
private theorem c_size :
    (((ctx.retByte 8 &&& 3).setWidth 32 <<< 8 ||| (ctx.retByte 7).setWidth 32) <<< 2 |||
        (ctx.retByte 6 >>> 6).setWidth 32 : U32).toNat = ctx.csd 62 12 := by
  have hlow := ushiftRight_setWidth ctx.response (8 * 6) 6 (by decide)
  have hhigh := and_mask_setWidth ctx.response (8 * 8) 2 (by decide)
  simp only [retByte_eq]
  rw [hlow, show (3 : U8) = BitVec.ofNat 8 (2 ^ 2 - 1) by rfl, hhigh,
    extract_adjacent _ (by rfl), extract_adjacent _ (by rfl)]
  exact toNat_setWidth_extract _ _ (by decide)

/-- `C_SIZE`, as the second version has it -/
private theorem c_size_two :
    (((ctx.retByte 7 &&& 0x3f).setWidth 32 <<< 8 ||| (ctx.retByte 6).setWidth 32) <<< 8 |||
        (ctx.retByte 5).setWidth 32 : U32).toNat = ctx.csd 48 22 := by
  have hhigh := and_mask_setWidth ctx.response (8 * 7) 6 (by decide)
  simp only [retByte_eq]
  rw [show (0x3f : U8) = BitVec.ofNat 8 (2 ^ 6 - 1) by rfl, hhigh,
    extract_adjacent _ (by rfl), extract_adjacent _ (by rfl)]
  exact toNat_setWidth_extract _ _ (by decide)

end Fields

/-! ### The size -/

/-- The size that the register of a card announces, before it is brought down to sectors: the first
version gives bytes, as blocks of `2 ^ READ_BL_LEN` in groups of `2 ^ (C_SIZE_MULT + 2)`, and the
second one sectors, in groups of 512 KiB. What the others would give is reserved. -/
def Mmcdevice.csdProduct (ctx : Mmcdevice) : ℕ → Option ℕ
  | 0 => some ((ctx.csd 62 12 + 1) * 2 ^ (ctx.csd 47 3 + 2) * 2 ^ ctx.csd 80 4)
  | 1 => some ((ctx.csd 48 22 + 1) * 1024)
  | _ => none

/-- The sectors that it announces. -/
def Mmcdevice.csdSectors (ctx : Mmcdevice) : ℕ → Option ℕ
  | 0 => (ctx.csdProduct 0).map (· / 512)
  | 1 => ctx.csdProduct 1
  | _ => none

/-- The product, which `sdmmc_calc_size` computes in a word, fits there. -/
def Mmcdevice.SizeFits (ctx : Mmcdevice) (version : ℕ) : Prop :=
  ∀ p ∈ ctx.csdProduct version, p < 2 ^ 32

/-- Version 1: the three fields of the capacity have a product of at most 32 bits. -/
private theorem sizeFits_zero {ctx : Mmcdevice} : ctx.SizeFits 0 ↔
    (ctx.csd 62 12 + 1) * 2 ^ (ctx.csd 47 3 + 2) * 2 ^ ctx.csd 80 4 < 2 ^ 32 :=
  ⟨fun h => h _ rfl, by rintro h p ⟨⟩; exact h⟩

/-- Version 2: the one field of the capacity, counted in KiB, fits into 32 bits. -/
private theorem sizeFits_one {ctx : Mmcdevice} :
    ctx.SizeFits 1 ↔ (ctx.csd 48 22 + 1) * 1024 < 2 ^ 32 :=
  ⟨fun h => h _ rfl, by rintro h p ⟨⟩; exact h⟩

/-- `size` is what the firmware makes of the register of a card. -/
structure Mmcdevice.SizedBy (ctx : Mmcdevice) (version : ℕ) (size : U32) : Prop where
  /-- never more than is announced -/
  le : ∀ n ∈ ctx.csdSectors version, size.toNat ≤ n
  /-- and just that exactly if the product fits in a word -/
  eq_iff : ∀ n ∈ ctx.csdSectors version, (size.toNat = n ↔ ctx.SizeFits version)
  /-- a card of a reserved version has no size -/
  reserved : ctx.csdSectors version = none → size = 0

/-- A number of bytes cut off at 32 bits loses no sector if and only if it loses nothing. -/
private theorem mod_div_eq_iff (n : ℕ) : n % 2 ^ 32 / 512 = n / 512 ↔ n < 2 ^ 32 := by
  omega

private theorem toNat_one_shiftLeft {k : ℕ} (hk : k < 32) :
    ((1 <<< k : ℕ) : U32).toNat = 2 ^ k := by
  rw [Nat.shiftLeft_eq, one_mul, BitVec.natCast_eq_ofNat, BitVec.toNat_ofNat]
  exact Nat.mod_eq_of_lt (Nat.pow_lt_pow_right (by decide) hk)

/-- The first version: `sdmmc_calc_size` multiplies in a word and divides then. -/
theorem sdmmcCalcSize_zero (ctx : Mmcdevice) :
    (sdmmcCalcSize ctx.retByte 0).toNat =
      (ctx.csd 62 12 + 1) * 2 ^ (ctx.csd 47 3 + 2) * 2 ^ ctx.csd 80 4 % 2 ^ 32 / 512 := by
  have hmult : ctx.csd 47 3 < 2 ^ 3 := csd_lt ctx 47 3
  have hlen : ctx.csd 80 4 < 2 ^ 4 := csd_lt ctx 80 4
  have hsize : ctx.csd 62 12 < 2 ^ 12 := csd_lt ctx 62 12
  simp only [sdmmcCalcSize, show (0 : ℤ) ≠ -1 by decide, if_false, if_true]
  rw [BitVec.toNat_udiv, BitVec.toNat_mul, BitVec.toNat_mul, BitVec.toNat_add, c_size,
    BitVec.toNat_add, c_size_mult, read_bl_len, show (1 : U32).toNat = 1 by rfl,
    show (2 : U32).toNat = 2 by rfl, show (512 : U32).toNat = 512 by rfl,
    Nat.mod_eq_of_lt (by omega : ctx.csd 62 12 + 1 < 2 ^ 32),
    Nat.mod_eq_of_lt (by omega : ctx.csd 47 3 + 2 < 2 ^ 32),
    toNat_one_shiftLeft (by omega : ctx.csd 80 4 < 32),
    toNat_one_shiftLeft (by omega : ctx.csd 47 3 + 2 < 32), Nat.mod_mul_mod]

/-- The second version. -/
theorem sdmmcCalcSize_one (ctx : Mmcdevice) :
    (sdmmcCalcSize ctx.retByte 1).toNat = (ctx.csd 48 22 + 1) * 1024 % 2 ^ 32 := by
  have hsize : ctx.csd 48 22 < 2 ^ 22 := csd_lt ctx 48 22
  simp only [sdmmcCalcSize, show (1 : ℤ) ≠ -1 by decide, if_false, if_true, one_ne_zero]
  rw [BitVec.toNat_mul, BitVec.toNat_add, c_size_two, show (1 : U32).toNat = 1 by rfl,
    show (1024 : U32).toNat = 1024 by rfl, Nat.mod_mul_mod]

/-- A negative type stands for the version that bits 126 and 127 of the register say. -/
private theorem sdmmcCalcSize_version (ctx : Mmcdevice) :
    sdmmcCalcSize ctx.retByte (-1) = sdmmcCalcSize ctx.retByte (ctx.csd 126 2) := by
  simp only [sdmmcCalcSize, if_true, csd_structure,
    show ((ctx.csd 126 2 : ℕ) : ℤ) ≠ -1 by omega, if_false]

/-- Of the reserved versions, the function makes no size at all. -/
private theorem sdmmcCalcSize_reserved (ctx : Mmcdevice) (version : ℕ) :
    sdmmcCalcSize ctx.retByte (version + 2 : ℕ) = 0 := by
  have h0 : ((version + 2 : ℕ) : ℤ) ≠ 0 := by omega
  have h1 : ((version + 2 : ℕ) : ℤ) ≠ 1 := by omega
  have hneg : ((version + 2 : ℕ) : ℤ) ≠ -1 := by omega
  simp only [sdmmcCalcSize, h0, h1, hneg, if_false]

/-- `sdmmc_calc_size` with a version that it is given. -/
private theorem sdmmcCalcSize_sizedBy (ctx : Mmcdevice) (version : ℕ) :
    ctx.SizedBy version (sdmmcCalcSize ctx.retByte version) := by
  match version with
  | 0 =>
    refine ⟨?_, ?_, fun h => by cases h⟩
    · rintro n ⟨⟩
      rw [Nat.cast_zero, sdmmcCalcSize_zero]
      exact Nat.div_le_div_right (Nat.mod_le _ _)
    · rintro n ⟨⟩
      rw [Nat.cast_zero, sdmmcCalcSize_zero, sizeFits_zero]
      exact mod_div_eq_iff _
  | 1 =>
    refine ⟨?_, ?_, fun h => by cases h⟩
    · rintro n ⟨⟩
      rw [Nat.cast_one, sdmmcCalcSize_one]
      exact Nat.mod_le _ _
    · rintro n ⟨⟩
      rw [Nat.cast_one, sdmmcCalcSize_one, sizeFits_one]
      exact Nat.mod_eq_iff_lt (by decide)
  | version + 2 =>
    refine ⟨?_, ?_, fun _ => sdmmcCalcSize_reserved ctx version⟩
    · rintro n ⟨⟩
    · rintro n ⟨⟩

/-- Of the cards of the first version, with blocks of 2 KiB at most, those of 4 GiB and no others
do not fit. -/
theorem sizeFits_zero_iff (ctx : Mmcdevice) (hlen : ctx.csd 80 4 ≤ 11) : ctx.SizeFits 0 ↔
    ¬(ctx.csd 62 12 = 4095 ∧ ctx.csd 47 3 = 7 ∧ ctx.csd 80 4 = 11) := by
  have hmult : ctx.csd 47 3 < 2 ^ 3 := csd_lt ctx 47 3
  have hsize : ctx.csd 62 12 < 2 ^ 12 := csd_lt ctx 62 12
  rw [sizeFits_zero, Nat.mul_assoc, ← pow_add]
  constructor
  · rintro hlt ⟨h1, h2, h3⟩
    rw [h1, h2, h3] at hlt
    exact absurd hlt (by decide)
  · intro hnot
    by_cases hmax : ctx.csd 47 3 + 2 + ctx.csd 80 4 = 20
    · rw [hmax]
      omega
    · -- a group has half as many bytes at most
      have hpow : 2 ^ (ctx.csd 47 3 + 2 + ctx.csd 80 4) ≤ 2 ^ 19 :=
        Nat.pow_le_pow_right two_pos (by omega)
      have hle := Nat.mul_le_mul (show ctx.csd 62 12 + 1 ≤ 2 ^ 12 by omega) hpow
      omega

/-- Of those of the second version, the largest one does not. -/
theorem sizeFits_one_iff (ctx : Mmcdevice) : ctx.SizeFits 1 ↔ ctx.csd 48 22 ≠ 2 ^ 22 - 1 := by
  have hsize : ctx.csd 48 22 < 2 ^ 22 := csd_lt ctx 48 22
  rw [sizeFits_one]
  omega

/-- The firmware takes a card of 4 GiB for an empty one. -/
theorem sdmmcCalcSize_zero_of_max (ctx : Mmcdevice)
    (h : ctx.csd 62 12 = 4095 ∧ ctx.csd 47 3 = 7 ∧ ctx.csd 80 4 = 11) :
    (sdmmcCalcSize ctx.retByte 0).toNat = 0 := by
  rw [sdmmcCalcSize_zero, h.1, h.2.1, h.2.2]
  rfl

/-- And so it does the largest one of the second version. -/
theorem sdmmcCalcSize_one_of_max (ctx : Mmcdevice) (h : ctx.csd 48 22 = 2 ^ 22 - 1) :
    (sdmmcCalcSize ctx.retByte 1).toNat = 0 := by
  rw [sdmmcCalcSize_one, h]
  rfl

/-- The `type` that `Nand_Init` and `SD_Init` pass: the register of an SD card says its version,
that of an MMC one is taken for the first. -/
def csdType : MmcDrive → ℤ
  | .handleNAND => 0
  | .handleSD => -1

/-- The version which that is. -/
def Mmcdevice.csdVersion (ctx : Mmcdevice) : MmcDrive → ℕ
  | .handleNAND => 0
  | .handleSD => ctx.csd 126 2

private theorem sdmmcCalcSize_csdType (ctx : Mmcdevice) (drive : MmcDrive) :
    sdmmcCalcSize ctx.retByte (csdType drive) =
      sdmmcCalcSize ctx.retByte (ctx.csdVersion drive) := by
  cases drive with
  | handleNAND => rfl
  | handleSD => exact sdmmcCalcSize_version ctx

/-- The size that the firmware has of a card is that of its register. -/
private theorem total_size_sizedBy (ctx : Mmcdevice) (drive : MmcDrive) :
    ctx.SizedBy (ctx.csdVersion drive) (sdmmcCalcSize ctx.retByte (csdType drive)) := by
  rw [sdmmcCalcSize_csdType]
  exact sdmmcCalcSize_sizedBy ctx _

/-! ### After the initialization -/

variable {σ : Type} {H : SdmmcHw σ}

/-- `CMD9` is the third command of the script, and is not sent again. -/
private theorem sdScript_third (cmd6Supported : Bool) :
    ∃ rest, (sdScript cmd6Supported).map Prod.fst = 0x10602 :: 0x10403 :: 0x10609 :: rest ∧
      0x10609 ∉ rest := by
  cases cmd6Supported with
  | false => exact ⟨_, rfl, by decide⟩
  | true => exact ⟨_, rfl, by decide⟩

/-- **The size of a card**, whatever the controller does: once `SD_Init` succeeds, the last `CMD9`
of it was answered, and the size is that of the register in the answer: never more than announced,
just that exactly if the product fits in a word, and nothing for a reserved version. -/
theorem sdInit_total_size (fuel : ℕ) (s : SdState σ) :
    wp (sdInit H fuel) (fun ret t => ret = 0 → ∃ before c after,
      t.commands = s.commands ++ (before ++ c :: after) ∧
      c.cmd = 0x10609 ∧ ¬c.Failed ∧ (∀ c' ∈ after, c'.cmd ≠ 0x10609) ∧
      c.reply.SizedBy (c.reply.csd 126 2) (t.dev .handleSD).total_size) (fun _ => True) s := by
  refine (wp_sdInit_session fuel s).mono ?_
  rintro ret t ⟨c₀, c₈, waits, last, tail, cmd6Supported, hcommands, hsession⟩ hret
  obtain ⟨hcmds, hok⟩ :=
    (hsession.script.eq_zero_iff (sdScript_ne_zero cmd6Supported)).mp hret
  obtain ⟨rest, hscript, hrest⟩ := sdScript_third cmd6Supported
  rw [hscript] at hcmds
  obtain ⟨c₂, tail₁, rfl, -, hcmds⟩ := List.map_eq_cons_iff.mp hcmds
  obtain ⟨c₃, tail₂, rfl, -, hcmds⟩ := List.map_eq_cons_iff.mp hcmds
  obtain ⟨c₉, after, rfl, hcmd, hcmds⟩ := List.map_eq_cons_iff.mp hcmds
  have hc₉ : ¬c₉.Failed := hok c₉ (by simp)
  have hsize : (t.dev .handleSD).total_size = sdmmcCalcSize c₉.reply.retByte (csdType .handleSD) :=
    (hsession.size.answered c₉ rfl hc₉).1
  refine ⟨c₀ :: c₈ :: ((waits ++ [last]).flatten ++ [c₂, c₃]), c₉, after, ?_, hcmd, hc₉,
    fun c' hc' heq => hrest ?_, ?_⟩
  · rw [hcommands]
    simp only [List.cons_append, List.append_assoc, List.nil_append]
  · rw [← heq, ← hcmds]
    exact List.mem_map_of_mem hc'
  · rw [hsize]
    exact total_size_sizedBy c₉.reply .handleSD

end Arm9LinuxFw.Sdmmc
