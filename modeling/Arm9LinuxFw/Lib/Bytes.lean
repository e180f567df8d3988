import Arm9LinuxFw.Lib.ByteMem

/-!
# Integers as bytes

The bytes of an integer, lowest first, as they lie in little-endian memory. Loads and stores of
whole integers are good for programs, lists of bytes for what a device hands over or a driver gets
to see; this module goes from one to the other.

* `leBytes x` lists the bytes; `leBytes_getElem?` and `leBytes_injective` say that they are the
  integer's eight-bit parts and make it up.
* `wordBytes ws` is a list of words laid out one after the other, four bytes a word.
* `Mem.write32_eq_writeBytes`: to store a word is to store its bytes.
-/

namespace ByteMem

/-- The bytes of an integer in memory, lowest first. -/
def leBytes {w : ℕ} (x : BitVec w) : List (BitVec 8) :=
  (List.range (w / 8)).map fun i => x.extractLsb' (8 * i) 8

theorem length_leBytes {w : ℕ} (x : BitVec w) : (leBytes x).length = w / 8 := by
  rw [leBytes, List.length_map, List.length_range]

theorem leBytes_getElem? {w : ℕ} (x : BitVec w) {i : ℕ} (hi : i < w / 8) :
    (leBytes x)[i]? = some (x.extractLsb' (8 * i) 8) := by
  rw [leBytes, List.getElem?_map, List.getElem?_range hi]
  rfl

/-- A word is made up of its bytes. -/
theorem leBytes_injective {x y : BitVec 32} (h : leBytes x = leBytes y) : x = y := by
  have hbyte (i : ℕ) (hi : i < 4) : x.extractLsb' (8 * i) 8 = y.extractLsb' (8 * i) 8 :=
    List.map_inj_left.mp h i (List.mem_range.mpr hi)
  refine BitVec.eq_of_getLsbD_eq fun j hj => ?_
  have hbit := congrArg (fun b => b.getLsbD (j % 8)) (hbyte (j / 8) (by omega))
  have hmod : j % 8 < 8 := Nat.mod_lt _ (by decide)
  simpa [hmod, Nat.div_add_mod] using hbit

/-- Words as they lie in memory. -/
def wordBytes (ws : List (BitVec 32)) : List (BitVec 8) := ws.flatMap leBytes

@[simp]
theorem wordBytes_append (ws us : List (BitVec 32)) :
    wordBytes (ws ++ us) = wordBytes ws ++ wordBytes us := List.flatMap_append

/-- A word takes four bytes. -/
@[simp]
theorem length_wordBytes (ws : List (BitVec 32)) : (wordBytes ws).length = 4 * ws.length := by
  induction ws with
  | nil => rfl
  | cons w ws ih =>
    rw [wordBytes, List.flatMap_cons, List.length_append, length_leBytes, List.length_cons]
    rw [wordBytes] at ih
    omega

namespace Mem

/-- A word is stored byte by byte. -/
theorem write32_eq_writeBytes (m : Mem) (a : Addr) (w : BitVec 32) :
    m.write32 a w = m.writeBytes a (leBytes w) := by
  have hlo (k : ℕ) (hk : k + 8 ≤ 16) :
      (w.extractLsb' 0 16).extractLsb' k 8 = w.extractLsb' k 8 := by
    refine BitVec.eq_of_getLsbD_eq fun i hi => ?_
    simp only [BitVec.getLsbD_extractLsb', hi, decide_true, Bool.true_and]
    rw [decide_eq_true (by omega), Bool.true_and, Nat.zero_add]
  have hhi (k : ℕ) (hk : k + 8 ≤ 16) :
      (w.extractLsb' 16 16).extractLsb' k 8 = w.extractLsb' (16 + k) 8 := by
    refine BitVec.eq_of_getLsbD_eq fun i hi => ?_
    simp only [BitVec.getLsbD_extractLsb', hi, decide_true, Bool.true_and]
    rw [decide_eq_true (by omega), Bool.true_and, Nat.add_assoc]
  have h2 : a + 1 + 1 = a + 2 := by bv_omega
  have h3 : a + 2 + 1 = a + 1 + 1 + 1 := by bv_omega
  have hbytes : leBytes w =
      [w.extractLsb' 0 8, w.extractLsb' 8 8, w.extractLsb' 16 8, w.extractLsb' 24 8] := rfl
  rw [hbytes, write32, write16, write16, hlo 0 (by omega), hlo 8 (by omega), hhi 0 (by omega),
    hhi 8 (by omega), h3, ← h2]
  rfl

end Mem

end ByteMem
