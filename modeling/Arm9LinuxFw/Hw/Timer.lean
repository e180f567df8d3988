import Arm9LinuxFw.Common

/-!
# Reading the tick counter

`hw/timer.c`: four cascaded 16-bit timers are the digits of one free-running 64-bit counter,
and `timerReadTicks` puts a value together from five reads of single digits, which it repeats
when the lowest digit has overflowed meanwhile.

* `TimerReads` is what a round of the loop reads, in program order, and `TimerReads.ticks` the value
  it would return. `timerReadTicks` takes the first round in which the lowest digit has not fallen.
* Every read takes its digit at a time of its own: `timerClock` is the counter as a function of
  time, and `TimerTimes` are the times of one round, in program order, all of them less than a
  period of the lowest timer apart (`TimerTimes.InOrder`).
* A round that is not repeated has seen no carry out of the lowest digit, so all its reads are
  digits of the same value (`TimerTimes.reads_eq`).
* The value put together from them is that one only up to an integer promotion: `quart << 16` is an
  `int`, and its sign fills the upper half of the result. `timerReadTicks_iff` says when this
  does no harm, for any value at the start and any timing, and that calls one after the other
  return values that do not fall under the same condition.
-/

namespace Arm9LinuxFw

/-! ### The reads -/

/-- What one round of the retry loop reads: `tmr0` twice, and the other three timers. -/
structure TimerReads where
  loStart : U16
  quart : U16
  val2 : U16
  val3 : U16
  loEnd : U16
  deriving DecidableEq

/-- The value returned after a round. The conversion of the `int` `quart << 16` to `u64` copies
its sign. -/
def TimerReads.ticks (r : TimerReads) : U64 :=
  let hi : U32 := r.val2.setWidth 32 ||| r.val3.setWidth 32 <<< 16
  hi.setWidth 64 <<< 32 ||| (r.quart.setWidth 32 <<< 16).signExtend 64 ||| r.loEnd.setWidth 64

/-- `timerReadTicks`, given what its rounds read: the first round without an overflow counts.
None means that all of them are repeated. -/
def timerReadTicks : List TimerReads → Option U64
  | [] => none
  | r :: rest => if r.loEnd < r.loStart then timerReadTicks rest else some r.ticks

/-! ### The counter -/

/-- The counter, `t` ticks after it was `T`. -/
def timerClock (T : U64) (t : ℕ) : U64 := T + BitVec.ofNat 64 t

/-- The value of timer `i`. -/
def timerDigit (i : ℕ) (x : U64) : U16 := x.extractLsb' (16 * i) 16

/-- The times of the reads of one round. -/
structure TimerTimes where
  loStart : ℕ
  quart : ℕ
  val2 : ℕ
  val3 : ℕ
  loEnd : ℕ
  deriving DecidableEq

/-- The reads happen in program order, which leaves open which operand of `|` comes first, and
in less than a period of the lowest timer. -/
structure TimerTimes.InOrder (t : TimerTimes) : Prop where
  quart : t.loStart ≤ t.quart
  val2 : t.quart ≤ t.val2 ∧ t.val2 ≤ t.loEnd
  val3 : t.quart ≤ t.val3 ∧ t.val3 ≤ t.loEnd
  period : t.loEnd < t.loStart + 2 ^ 16

/-- What the round reads. -/
def TimerTimes.reads (T : U64) (t : TimerTimes) : TimerReads where
  loStart := timerDigit 0 (timerClock T t.loStart)
  quart := timerDigit 1 (timerClock T t.quart)
  val2 := timerDigit 2 (timerClock T t.val2)
  val3 := timerDigit 3 (timerClock T t.val3)
  loEnd := timerDigit 0 (timerClock T t.loEnd)

/-- The round after which the loop exits, if it does. -/
def exitRound (T : U64) (rounds : List TimerTimes) : Option TimerTimes :=
  rounds.find? fun t => ¬ (t.reads T).loEnd < (t.reads T).loStart

/-- The loop returns what it puts together in the round after which it exits. -/
theorem timerReadTicks_eq (T : U64) (rounds : List TimerTimes) :
    timerReadTicks (rounds.map (TimerTimes.reads T)) =
      (exitRound T rounds).map fun t => (t.reads T).ticks := by
  induction rounds with
  | nil => rfl
  | cons t rounds ih =>
    rw [List.map_cons, timerReadTicks, exitRound, List.find?_cons]
    by_cases hover : (t.reads T).loEnd < (t.reads T).loStart
    · rw [if_pos hover, ih, decide_eq_false (not_not_intro hover), exitRound]
    · rw [if_neg hover, decide_eq_true hover, Option.map_some]

/-! ### No carry -/

/-- A digit of the counter at a time, as a number. -/
theorem timerDigit_toNat {i : ℕ} (hi : i ≤ 3) (T : U64) (t : ℕ) :
    (timerDigit i (timerClock T t)).toNat = (T.toNat + t) / 2 ^ (16 * i) % 2 ^ 16 := by
  have hdvd : 2 ^ (16 * i) * 2 ^ 16 ∣ 2 ^ 64 := by
    rw [← pow_add]
    exact Nat.pow_dvd_pow 2 (by omega)
  rw [timerDigit, timerClock, BitVec.extractLsb'_toNat, Nat.shiftRight_eq_div_pow,
    BitVec.toNat_add, BitVec.toNat_ofNat, Nat.add_mod_mod, ← Nat.mod_mul_right_div_self,
    Nat.mod_mod_of_dvd _ hdvd, Nat.mod_mul_right_div_self]

/-- Less than a period apart and not overflowed, two times have the same upper digits. -/
private theorem div_eq_of_no_overflow {a b : ℕ} (hab : a ≤ b) (hb : b < a + 2 ^ 16)
    (hlow : a % 2 ^ 16 ≤ b % 2 ^ 16) {s : ℕ} (has : a ≤ s) (hsb : s ≤ b) :
    s / 2 ^ 16 = b / 2 ^ 16 := by
  omega

/-- Between two times without a carry out of the lowest digit the others stay. -/
private theorem timerDigit_eq {i : ℕ} (hi : 1 ≤ i) (hi' : i ≤ 3) {T : U64} {s t : ℕ}
    (h : (T.toNat + s) / 2 ^ 16 = (T.toNat + t) / 2 ^ 16) :
    timerDigit i (timerClock T s) = timerDigit i (timerClock T t) := by
  have hsplit : 2 ^ (16 * i) = 2 ^ 16 * 2 ^ (16 * i - 16) := by
    rw [← pow_add]
    congr 1
    omega
  refine BitVec.eq_of_toNat_eq ?_
  rw [timerDigit_toNat hi', timerDigit_toNat hi', hsplit, ← Nat.div_div_eq_div_mul, h,
    Nat.div_div_eq_div_mul]

/-- A round that is not repeated reads the digits of the value at its last read. -/
private theorem TimerTimes.reads_eq {T : U64} {t : TimerTimes} (h : t.InOrder)
    (hexit : ¬ (t.reads T).loEnd < (t.reads T).loStart) :
    (t.reads T).quart = timerDigit 1 (timerClock T t.loEnd) ∧
      (t.reads T).val2 = timerDigit 2 (timerClock T t.loEnd) ∧
      (t.reads T).val3 = timerDigit 3 (timerClock T t.loEnd) := by
  obtain ⟨hquart, hval2, hval3, hperiod⟩ := h
  have hlow : (T.toNat + t.loStart) % 2 ^ 16 ≤ (T.toNat + t.loEnd) % 2 ^ 16 := by
    rw [BitVec.not_lt, BitVec.le_def] at hexit
    simpa only [reads, timerDigit_toNat (Nat.zero_le 3), Nat.mul_zero, pow_zero, Nat.div_one]
      using hexit
  have hsame {s : ℕ} (hs : t.loStart ≤ s) (hs' : s ≤ t.loEnd) :
      (T.toNat + s) / 2 ^ 16 = (T.toNat + t.loEnd) / 2 ^ 16 :=
    div_eq_of_no_overflow (by omega) (by omega) hlow (Nat.add_le_add_left hs _)
      (Nat.add_le_add_left hs' _)
  refine ⟨?_, ?_, ?_⟩
  · exact timerDigit_eq le_rfl (by decide) (hsame (by omega) (by omega))
  · exact timerDigit_eq (by decide) (by decide) (hsame (by omega) (by omega))
  · exact timerDigit_eq (by decide) le_rfl (hsame (by omega) (by omega))

/-! ### The sign -/

/-- The bits of the value put together from the digits of `x`: those of `x`, except that bit 31,
if set, sets the upper ones too. -/
private theorem getLsbD_ticks (x : U64) (loStart : U16) {k : ℕ} (hk : k < 64) :
    (TimerReads.ticks
      ⟨loStart, timerDigit 1 x, timerDigit 2 x, timerDigit 3 x, timerDigit 0 x⟩).getLsbD k =
        (x.getLsbD k || (x.getLsbD 31 && decide (32 ≤ k))) := by
  have hsign : ((x.extractLsb' (16 * 1) 16).setWidth 32 <<< 16 : U32).msb = x.getLsbD 31 := by
    simp [BitVec.msb_eq_getLsbD_last]
  simp only [TimerReads.ticks, timerDigit, BitVec.getLsbD_or, BitVec.getLsbD_shiftLeft,
    BitVec.getLsbD_setWidth, BitVec.getLsbD_signExtend, hsign, BitVec.getLsbD_extractLsb']
  -- one digit of the counter after the other
  rcases Nat.lt_or_ge k 16 with h16 | h16
  · have hlow : k < 32 ∧ k < 64 ∧ ¬ 32 ≤ k := by omega
    simp [h16, hlow]
  rcases Nat.lt_or_ge k 32 with h32 | h32
  · have hquart : ¬ k < 16 ∧ k - 16 < 16 ∧ k - 16 < 32 ∧ ¬ 32 ≤ k ∧ 16 + (k - 16) = k := by omega
    simp [h32, hquart, hk]
  rcases Nat.lt_or_ge k 48 with h48 | h48
  · have hval2 : ¬ k < 16 ∧ ¬ k < 32 ∧ k - 32 < 16 ∧ k - 32 < 32 ∧ k - 32 < 64 ∧
        32 + (k - 32) = k := by omega
    simp [h32, hval2, hk]
  · have hval3 : ¬ k < 16 ∧ ¬ k < 32 ∧ ¬ k - 32 < 16 ∧ k - 32 < 32 ∧ k - 32 < 64 ∧
        k - 32 - 16 < 16 ∧ k - 32 - 16 < 32 ∧ 48 + (k - 32 - 16) = k := by omega
    simp [h32, hval3, hk]

/-- The sign of `quart << 16` does no harm: it is clear, or the upper half is all ones anyway. -/
def SignHarmless (x : U64) : Prop := x.getLsbD 31 = false ∨ x.extractLsb' 32 32 = BitVec.allOnes 32

instance (x : U64) : Decidable (SignHarmless x) := inferInstanceAs (Decidable (_ ∨ _))

/-- What is put together from the digits of a value is that value, if the sign does no harm. -/
private theorem ticks_eq_iff (x : U64) (loStart : U16) :
    TimerReads.ticks
      ⟨loStart, timerDigit 1 x, timerDigit 2 x, timerDigit 3 x, timerDigit 0 x⟩ = x ↔
        SignHarmless x := by
  constructor
  · intro heq
    rcases hsign : x.getLsbD 31 with _ | _
    · exact Or.inl hsign
    · refine Or.inr (BitVec.eq_of_getLsbD_eq fun k hk => ?_)
      have hbit := getLsbD_ticks x loStart (show 32 + k < 64 by omega)
      rw [heq, hsign, decide_eq_true (Nat.le_add_right 32 k), Bool.and_true, Bool.or_true] at hbit
      rw [BitVec.getLsbD_extractLsb', hbit, BitVec.getLsbD_allOnes, Bool.and_true]
  · intro h
    refine BitVec.eq_of_getLsbD_eq fun k hk => ?_
    rw [getLsbD_ticks x loStart hk]
    rcases h with hsign | hones
    · rw [hsign, Bool.false_and, Bool.or_false]
    · by_cases h32 : 32 ≤ k
      · have hbit := congrArg (fun y : U32 => y.getLsbD (k - 32)) hones
        have hlt : k - 32 < 32 := by omega
        simp only [BitVec.getLsbD_extractLsb', BitVec.getLsbD_allOnes, hlt, decide_true,
          Bool.true_and, Nat.add_sub_cancel' h32] at hbit
        rw [hbit, Bool.true_or]
      · rw [decide_eq_false h32, Bool.and_false, Bool.or_false]

/-! ### The contract -/

/-- A call returns, if at all, the value the counter had at the last read. -/
def ReadsExactly (T : U64) (rounds : List TimerTimes) : Prop :=
  ∀ v, timerReadTicks (rounds.map (TimerTimes.reads T)) = some v →
    ∃ t, exitRound T rounds = some t ∧ v = timerClock T t.loEnd

/-- The last round returns the counter at its last read, if the sign does no harm there. -/
private theorem exitRound_ticks {T : U64} {rounds : List TimerTimes} (h : ∀ t ∈ rounds, t.InOrder)
    {t : TimerTimes} (ht : exitRound T rounds = some t) :
    timerReadTicks (rounds.map (TimerTimes.reads T)) = some (t.reads T).ticks ∧
      ((t.reads T).ticks = timerClock T t.loEnd ↔ SignHarmless (timerClock T t.loEnd)) := by
  refine ⟨by rw [timerReadTicks_eq, ht, Option.map_some], ?_⟩
  have hexit : ¬ (t.reads T).loEnd < (t.reads T).loStart := by
    simpa using List.find?_some ht
  obtain ⟨hquart, hval2, hval3⟩ := TimerTimes.reads_eq (h t (List.mem_of_find?_eq_some ht)) hexit
  rw [← ticks_eq_iff (timerClock T t.loEnd) (t.reads T).loStart, ← hquart, ← hval2, ← hval3]
  exact Iff.rfl

/-- **Reading the time.** A call returns the value the counter had at its last read if and only
if then bit 31 of it was clear or its upper half all ones; and of two such calls, the later one
returns no less, as long as the counter does not wrap. -/
theorem timerReadTicks_iff (T : U64) (rounds : List TimerTimes) (h : ∀ t ∈ rounds, t.InOrder) :
    (ReadsExactly T rounds ↔
      ∀ t, exitRound T rounds = some t → SignHarmless (timerClock T t.loEnd)) ∧
    ∀ later : List TimerTimes, (∀ t ∈ later, t.InOrder) → ∀ t t' v v',
      exitRound T rounds = some t → exitRound T later = some t' →
      SignHarmless (timerClock T t.loEnd) → SignHarmless (timerClock T t'.loEnd) →
      t.loEnd ≤ t'.loEnd → T.toNat + t'.loEnd < 2 ^ 64 →
      timerReadTicks (rounds.map (TimerTimes.reads T)) = some v →
      timerReadTicks (later.map (TimerTimes.reads T)) = some v' → v ≤ v' := by
  constructor
  · constructor
    · intro hexact t ht
      obtain ⟨hv, hiff⟩ := exitRound_ticks h ht
      obtain ⟨t', ht', heq⟩ := hexact _ hv
      obtain rfl := Option.some.inj (ht.symm.trans ht')
      exact hiff.mp heq
    · intro hsign v hv
      rw [timerReadTicks_eq, Option.map_eq_some_iff] at hv
      obtain ⟨t, ht, rfl⟩ := hv
      exact ⟨t, ht, (exitRound_ticks h ht).2.mpr (hsign t ht)⟩
  · intro later hlater t t' v v' ht ht' hsign hsign' hle hwrap hv hv'
    obtain ⟨hticks, hiff⟩ := exitRound_ticks h ht
    obtain ⟨hticks', hiff'⟩ := exitRound_ticks hlater ht'
    rw [hticks, hiff.mpr hsign, Option.some.injEq] at hv
    rw [hticks', hiff'.mpr hsign', Option.some.injEq] at hv'
    have hclock {s : ℕ} (hs : T.toNat + s < 2 ^ 64) : (timerClock T s).toNat = T.toNat + s := by
      rw [timerClock, BitVec.toNat_add, BitVec.toNat_ofNat, Nat.add_mod_mod, Nat.mod_eq_of_lt hs]
    rw [← hv, ← hv', BitVec.le_def, hclock hwrap, hclock (by omega)]
    omega

/-- A carry into the second timer between the reads: the first round is repeated, and the second
one returns the time. -/
theorem timerReadTicks_carry :
    ReadsExactly 0x1FFF0 [⟨0, 0x8, 0x10, 0x11, 0x12⟩, ⟨0x20, 0x21, 0x22, 0x23, 0x24⟩] := by
  refine (timerReadTicks_iff _ _ ?_).1.mpr ?_
  · intro t ht
    simp only [List.mem_cons, List.not_mem_nil, or_false] at ht
    rcases ht with rfl | rfl <;> exact ⟨by decide, by decide, by decide, by decide⟩
  · intro t ht
    obtain rfl : _ = t := Option.some.inj ht
    decide

/-- About 32 seconds after the start, bit 31 is set and the upper half of the result all ones;
half a minute later the time read is less. -/
theorem timerReadTicks_sign :
    ¬ ReadsExactly 0x80000000 [⟨0, 1, 2, 3, 4⟩] ∧
      timerReadTicks [TimerTimes.reads 0x80000000 ⟨0, 1, 2, 3, 4⟩] = some 0xFFFFFFFF80000004 ∧
      timerReadTicks [TimerTimes.reads 0x80000000
        ⟨0x80000000, 0x80000001, 0x80000002, 0x80000003, 0x80000004⟩] = some 0x100000004 := by
  have hread : timerReadTicks [TimerTimes.reads 0x80000000 ⟨0, 1, 2, 3, 4⟩] =
      some 0xFFFFFFFF80000004 := by decide
  refine ⟨?_, hread, by decide⟩
  intro hexact
  obtain ⟨t, ht, heq⟩ := hexact _ hread
  obtain rfl : _ = t := Option.some.inj ht
  exact absurd heq (by decide)

end Arm9LinuxFw
