import Arm9LinuxFw.Lib.ByteMem

/-!
# Lists of buffers filled one after the other

A list of buffers, each a span of memory, stands for the sequence of their bytes. This module
says which bytes come among the first `n`, which is what a count of transferred bytes tells the
owner of such a list.

* `spansTake l n` is the set of the first `n` addresses of the buffers, one buffer after the other.
* `mem_spansTake` is the position of a byte: an address of a buffer is among the first `n` if and
  only if the lengths before the buffer and its distance from the start of the buffer come to less
  than `n`. It takes the buffers to be apart from each other (`SpansApart`).
* `ncard_spansTake`: these are as many addresses as `n` says, up to the length of all buffers
  (`spansLength`).

So a transfer that fills the buffers in order has stored what `spansTake` names, and one that leaves
gaps can be compared with it address by address.
-/

namespace ByteMem

theorem mem_spans_map {α : Type} {f : α → Addr × ℕ} {l : List α} {x : Addr} :
    x ∈ spans (l.map f) ↔ ∃ a ∈ l, x ∈ span (f a).1 (f a).2 := by
  simp

/-- The length of a list of buffers. -/
def spansLength (l : List (Addr × ℕ)) : ℕ := (l.map Prod.snd).sum

@[simp]
theorem spansLength_nil : spansLength [] = 0 := rfl

@[simp]
theorem spansLength_cons (p : Addr × ℕ) (l : List (Addr × ℕ)) :
    spansLength (p :: l) = p.2 + spansLength l := by
  rw [spansLength, List.map_cons, List.sum_cons, spansLength]

@[simp]
theorem spansLength_append (l l' : List (Addr × ℕ)) :
    spansLength (l ++ l') = spansLength l + spansLength l' := by
  rw [spansLength, List.map_append, List.sum_append, spansLength, spansLength]

/-- The buffers of a list are apart from each other. -/
def SpansApart (l : List (Addr × ℕ)) : Prop :=
  l.Pairwise fun p q => Disjoint (span p.1 p.2) (span q.1 q.2)

/-- The first `n` addresses of the buffers, one buffer after the other. -/
def spansTake : List (Addr × ℕ) → ℕ → Set Addr
  | [], _ => ∅
  | p :: l, n => span p.1 (min n p.2) ∪ spansTake l (n - p.2)

theorem spansTake_subset (l : List (Addr × ℕ)) (n : ℕ) : spansTake l n ⊆ spans l := by
  induction l generalizing n with
  | nil => exact Set.empty_subset _
  | cons p l ih =>
    rw [spansTake, spans_cons]
    exact Set.union_subset_union (span_mono (min_le_right ..)) (ih _)

/-- An address of the first buffer. -/
theorem mem_spansTake_head {p : Addr × ℕ} {l : List (Addr × ℕ)} {n : ℕ} {x : Addr}
    (hapart : SpansApart (p :: l)) (hx : x ∈ span p.1 p.2) :
    x ∈ spansTake (p :: l) n ↔ (x - p.1).toNat < n := by
  have hnot : x ∉ spansTake l (n - p.2) := by
    intro hin
    obtain ⟨q, hq, hxq⟩ := spansTake_subset _ _ hin
    exact Set.disjoint_left.mp ((List.pairwise_cons.mp hapart).1 q hq) hx hxq
  rw [spansTake, Set.mem_union, or_iff_left hnot, mem_span, lt_min_iff]
  exact and_iff_left hx

/-- The position of a byte among those of all buffers. -/
theorem mem_spansTake {pre post : List (Addr × ℕ)} {p : Addr × ℕ} {n : ℕ} {x : Addr}
    (hapart : SpansApart (pre ++ p :: post)) (hx : x ∈ span p.1 p.2) :
    x ∈ spansTake (pre ++ p :: post) n ↔ spansLength pre + (x - p.1).toNat < n := by
  induction pre generalizing n with
  | nil =>
    rw [spansLength_nil, Nat.zero_add]
    exact mem_spansTake_head hapart hx
  | cons q pre ih =>
    obtain ⟨hq, hrest⟩ := List.pairwise_cons.mp hapart
    have hnot : x ∉ span q.1 (min n q.2) := by
      intro hin
      exact Set.disjoint_left.mp (hq p (by simp)) (span_mono (min_le_right ..) hin) hx
    rw [List.cons_append, spansTake, Set.mem_union, or_iff_right hnot, ih hrest, spansLength_cons]
    omega

/-- The first `n` addresses are `n`, if the buffers have as many. -/
theorem ncard_spansTake {l : List (Addr × ℕ)} (hn : ∀ p ∈ l, p.2 ≤ 2 ^ 32) (hapart : SpansApart l)
    (n : ℕ) : (spansTake l n).ncard = min n (spansLength l) := by
  induction l generalizing n with
  | nil => simp [spansTake]
  | cons p l ih =>
    rw [List.forall_mem_cons] at hn
    obtain ⟨hp, hrest⟩ := List.pairwise_cons.mp hapart
    have hdisj : Disjoint (span p.1 (min n p.2)) (spansTake l (n - p.2)) := by
      rw [Set.disjoint_left]
      intro x hx hin
      obtain ⟨q, hq, hxq⟩ := spansTake_subset _ _ hin
      exact Set.disjoint_left.mp (hp q hq) (span_mono (min_le_right ..) hx) hxq
    rw [spansTake, Set.ncard_union_eq hdisj (Set.toFinite _) (Set.toFinite _),
      ncard_span _ ((min_le_right ..).trans hn.1), ih hn.2 hrest, spansLength_cons]
    omega

end ByteMem
