import Mathlib.Data.List.Infix
import Mathlib.Data.Nat.ModEq
import Mathlib.Data.Nat.Notation
import Mathlib.Tactic.Common

/-!
# Single-producer single-consumer rings

A ring of `N` slots carries a stream of items: item number `k` of the stream lives in slot
`k % N` from the moment it is put until it is taken. `Window slot N sent got` is the
invariant of such a ring: what was taken is a prefix of what was sent, at most `N` items are
in flight, and every item in flight sits in its slot. The rules `Window.put` and
`Window.take` carry it through the two operations.

The two parties find their slots with counters that run modulo something: `Window.slot_eq_iff`
says what two positions *modulo the size* tell apart (an empty ring and a full one look the
same), `Window.counter_eq_iff` what two counters of a larger period do (they tell everything
apart). `toNat_and_mask` turns the mask of a power-of-two size into the remainder.
-/

namespace RingBuffer

variable {α : Type*}

/-! ### Remainders inside a window -/

/-- Two positions less than `N` apart have different slots. -/
theorem mod_ne_mod_of_lt {N k p : ℕ} (hkp : k < p) (hp : p < k + N) : k % N ≠ p % N := by
  intro h
  have hdvd : N ∣ p - k := (Nat.modEq_iff_dvd' hkp.le).mp h
  have := Nat.le_of_dvd (by omega) hdvd
  omega

/-- Positions at most `N` apart share a slot only when they agree or are exactly `N` apart. -/
theorem mod_eq_mod_iff {N c p : ℕ} (hcp : c ≤ p) (hp : p ≤ c + N) :
    c % N = p % N ↔ p = c ∨ p = c + N := by
  constructor
  · intro h
    by_contra hne
    exact mod_ne_mod_of_lt (N := N) (show c < p by omega) (by omega) h
  · rintro (rfl | rfl) <;> simp

/-- Masking with `2 ^ k - 1` is the remainder modulo `2 ^ k`. -/
theorem toNat_and_mask {w : ℕ} (x mask : BitVec w) {k : ℕ} (hmask : mask.toNat + 1 = 2 ^ k) :
    (x &&& mask).toNat = x.toNat % 2 ^ k := by
  rw [BitVec.toNat_and, show mask.toNat = 2 ^ k - 1 by omega, Nat.and_two_pow_sub_one_eq_mod]

/-! ### The window invariant -/

/-- The ring `slot` of `N` slots, after the stream `sent` was put and `got` was taken. -/
structure Window (slot : ℕ → α) (N : ℕ) (sent got : List α) : Prop where
  got_prefix : got <+: sent
  room : sent.length ≤ got.length + N
  holds : ∀ k (hk : k < sent.length), got.length ≤ k → slot (k % N) = sent[k]

namespace Window

variable {slot slot' : ℕ → α} {N : ℕ} {sent got : List α}

theorem init (slot : ℕ → α) (N : ℕ) : Window slot N [] [] where
  got_prefix := List.prefix_refl _
  room := by simp
  holds k hk := absurd hk (by simp)

theorem length_le (h : Window slot N sent got) : got.length ≤ sent.length :=
  h.got_prefix.length_le

/-- Everything was taken exactly when the counts agree. -/
theorem got_eq_iff (h : Window slot N sent got) : got = sent ↔ got.length = sent.length :=
  ⟨congrArg _, fun hl => h.got_prefix.eq_of_length hl⟩

/-- **Put.** A store into the slot of the next item keeps the window, provided that fewer
than `N` items are in flight: no item in flight is overwritten. -/
theorem put (h : Window slot N sent got) {x : α} (hroom : sent.length < got.length + N)
    (hnew : slot' (sent.length % N) = x)
    (hold : ∀ k, k % N ≠ sent.length % N → slot' (k % N) = slot (k % N)) :
    Window slot' N (sent ++ [x]) got where
  got_prefix := h.got_prefix.trans (List.prefix_append _ _)
  room := by rw [List.length_append, List.length_singleton]; omega
  holds k hk hgk := by
    rcases Nat.lt_or_ge k sent.length with hlt | hge
    · rw [hold k (mod_ne_mod_of_lt hlt (by omega)), h.holds k hlt hgk,
        List.getElem_append_left hlt]
    · obtain rfl : k = sent.length := by
        rw [List.length_append, List.length_singleton] at hk
        omega
      rw [hnew, List.getElem_concat_length rfl]

/-- The slot of the oldest item in flight holds that item. -/
theorem head_eq (h : Window slot N sent got) (hlt : got.length < sent.length) :
    slot (got.length % N) = sent[got.length] :=
  h.holds _ hlt le_rfl

/-- **Take.** Reading the slot of the oldest item in flight keeps the window. -/
theorem take (h : Window slot N sent got) (hlt : got.length < sent.length) :
    Window slot N sent (got ++ [slot (got.length % N)]) where
  got_prefix := by
    rw [h.head_eq hlt]
    have htake : got = sent.take got.length := List.prefix_iff_eq_take.mp h.got_prefix
    have hsucc : got ++ [sent[got.length]] = sent.take (got.length + 1) := by
      rw [List.take_succ_eq_append_getElem hlt, ← htake]
    rw [hsucc]
    exact List.take_prefix _ _
  room := by
    have := h.room
    rw [List.length_append, List.length_singleton]
    omega
  holds k hk hgk := h.holds k hk (by rw [List.length_append] at hgk; omega)

/-- Positions modulo the ring's size tell an empty ring from a partly filled one, but not
from a full one. -/
theorem slot_eq_iff (h : Window slot N sent got) :
    got.length % N = sent.length % N ↔
      got.length = sent.length ∨ sent.length = got.length + N := by
  rw [mod_eq_mod_iff h.length_le h.room, eq_comm (a := sent.length) (b := got.length)]

/-- Counters of a period above the ring's size tell an empty ring from every other one. -/
theorem counter_eq_iff (h : Window slot N sent got) {M : ℕ} (hM : N < M) :
    got.length % M = sent.length % M ↔ got.length = sent.length := by
  have hroom := h.room
  have hle := h.length_le
  rw [mod_eq_mod_iff h.length_le (by omega)]
  omega

end Window

end RingBuffer
