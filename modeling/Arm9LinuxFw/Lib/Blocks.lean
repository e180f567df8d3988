import Arm9LinuxFw.Lib.ByteMem

/-!
# Blocks of memory

What programs do to memory in blocks, as functions on memories, so that the effect of a loop can be
stated without the loop.

* `Mem.copy` and `Mem.fill` are what `memcpy` and `memset` leave. They compose by `copy_add` and
  `fill_add`, which is how a loop that copies or fills in pieces is proved: a store of a byte, a
  halfword or a word is a piece of one (`write32_eq_copy`, `write8_eq_fill`).
* `Mem.readWords` and `Mem.writeWords` are loads and stores of several words. Together they move a
  block as long as no store reaches a word that is still to be loaded, which the disjointness of
  source and destination gives.
* `Overlay P A m m'` says that on `A` the memory `m'` is the picture `P`, and `m` everywhere else.
  It is for stores whose values depend on their addresses alone: overlays of one picture compose in
  any order and any number (`Overlay.trans`), the areas they have drawn adding up. It speaks of
  functions in general.
-/

namespace ByteMem.Mem

/-! ### Copies and fills -/

/-- `n` bytes from `a` on put at `b`. -/
def copy (m : Mem) (b a : Addr) (n : ℕ) : Mem := fun x =>
  if x ∈ span b n then m (a + (x - b)) else m x

/-- `n` bytes from `b` on set to `v`. -/
def fill (m : Mem) (b : Addr) (v : BitVec 8) (n : ℕ) : Mem := fun x =>
  if x ∈ span b n then v else m x

theorem copy_of_mem {m : Mem} {a b x : Addr} {n : ℕ} (hx : x ∈ span b n) :
    m.copy b a n x = m (a + (x - b)) := if_pos hx

theorem fill_of_mem {m : Mem} {b x : Addr} {v : BitVec 8} {n : ℕ} (hx : x ∈ span b n) :
    m.fill b v n x = v := if_pos hx

theorem eqOn_copy (m : Mem) (b a : Addr) (n : ℕ) : Set.EqOn (m.copy b a n) m (span b n)ᶜ :=
  fun _ hx => if_neg hx

theorem eqOn_fill (m : Mem) (b : Addr) (v : BitVec 8) (n : ℕ) :
    Set.EqOn (m.fill b v n) m (span b n)ᶜ := fun _ hx => if_neg hx

@[simp]
theorem copy_zero (m : Mem) (b a : Addr) : m.copy b a 0 = m := by
  funext x
  exact if_neg (by simp)

@[simp]
theorem fill_zero (m : Mem) (b : Addr) (v : BitVec 8) : m.fill b v 0 = m := by
  funext x
  exact if_neg (by simp)

/-- A copy in two parts, of which the first does not reach what the second one reads. -/
theorem copy_add (m : Mem) {a b : Addr} {k j : ℕ} (h : k + j ≤ 2 ^ 32)
    (hd : Disjoint (span (a + BitVec.ofNat 32 k) j) (span b k)) :
    (m.copy b a k).copy (b + BitVec.ofNat 32 k) (a + BitVec.ofNat 32 k) j =
      m.copy b a (k + j) := by
  funext x
  by_cases hj : x ∈ span (b + BitVec.ofNat 32 k) j
  · have hoff : x - (b + BitVec.ofNat 32 k) = x - b - BitVec.ofNat 32 k := by bv_omega
    have hsrc : a + BitVec.ofNat 32 k + (x - (b + BitVec.ofNat 32 k)) = a + (x - b) := by
      rw [hoff]
      bv_omega
    have hread : a + (x - b) ∈ span (a + BitVec.ofNat 32 k) j := by
      rw [mem_span] at hj
      rw [← hsrc, mem_span, BitVec.add_comm, BitVec.add_sub_cancel]
      exact hj
    rw [copy_of_mem hj, copy_of_mem (span_add_subset le_rfl h hj), hsrc]
    exact eqOn_copy m b a k (Set.disjoint_left.mp hd hread)
  · rw [eqOn_copy _ _ _ _ hj]
    have hiff : x ∈ span b k ↔ x ∈ span b (k + j) := by
      rw [span_add b h, Set.mem_union, or_iff_left hj]
    simp only [copy, hiff]

theorem fill_add (m : Mem) {b : Addr} {v : BitVec 8} {k j : ℕ} (h : k + j ≤ 2 ^ 32) :
    (m.fill b v k).fill (b + BitVec.ofNat 32 k) v j = m.fill b v (k + j) := by
  funext x
  simp only [fill, span_add b h, Set.mem_union]
  split_ifs <;> grind

/-- A store of what was loaded moves a block. -/
theorem write8_eq_copy (m : Mem) (b a : Addr) : m.write8 b (m a) = m.copy b a 1 := by
  funext x
  by_cases hx : x = b
  · rw [hx, write8_same, copy_of_mem (by simp), BitVec.sub_self, BitVec.add_zero]
  · rw [write8_of_ne _ _ hx, eqOn_copy]
    simpa using hx

/-- A halfword loaded and stored is two bytes copied. -/
theorem write16_eq_copy (m : Mem) {b a : Addr} (hd : Disjoint (span a 2) (span b 2)) :
    m.write16 b (m.read16 a) = m.copy b a 2 := by
  have ha : span (a + 1) 1 ⊆ span a 2 := span_add_subset (k := 1) (by omega) (by omega)
  have hd' : Disjoint (span (a + 1) 1) (span b 1) :=
    Disjoint.mono ha (span_mono (by omega)) hd
  have hread : m (a + 1) = m.copy b a 1 (a + 1) :=
    (eqOn_copy m b a 1 (Set.disjoint_left.mp hd' (by simp))).symm
  rw [write16, read16, BitVec.extractLsb'_append_eq_right, BitVec.extractLsb'_append_eq_left,
    write8_eq_copy, hread, write8_eq_copy]
  exact copy_add m (k := 1) (by omega) hd'

/-- A word loaded and stored is four bytes copied. -/
theorem write32_eq_copy (m : Mem) {b a : Addr} (hd : Disjoint (span a 4) (span b 4)) :
    m.write32 b (m.read32 a) = m.copy b a 4 := by
  have ha : span (a + 2) 2 ⊆ span a 4 := span_add_subset (k := 2) (by omega) (by omega)
  have hb : span (b + 2) 2 ⊆ span b 4 := span_add_subset (k := 2) (by omega) (by omega)
  have hd' : Disjoint (span (a + 2) 2) (span b 2) := Disjoint.mono ha (span_mono (by omega)) hd
  have hread : m.read16 (a + 2) = (m.copy b a 2).read16 (a + 2) :=
    (read16_of_eqOn_compl (eqOn_copy m b a 2) hd').symm
  rw [write32, read32, BitVec.extractLsb'_append_eq_right, BitVec.extractLsb'_append_eq_left,
    write16_eq_copy m (hd.mono (span_mono (by omega)) (span_mono (by omega))), hread,
    write16_eq_copy _ (hd.mono ha hb)]
  exact copy_add m (k := 2) (by omega) hd'

theorem write8_eq_fill (m : Mem) (b : Addr) (v : BitVec 8) : m.write8 b v = m.fill b v 1 := by
  funext x
  simp only [write8, fill, span_one, Set.mem_singleton_iff]

/-- A store of zero. -/
theorem write32_zero (m : Mem) (b : Addr) : m.write32 b 0 = m.fill b 0 4 := by
  have h16 (m : Mem) (b : Addr) : m.write16 b 0 = m.fill b 0 2 := by
    rw [write16, show (0 : BitVec 16).extractLsb' 0 8 = 0 by rfl,
      show (0 : BitVec 16).extractLsb' 8 8 = 0 by rfl, write8_eq_fill, write8_eq_fill]
    exact fill_add m (k := 1) (by omega)
  rw [write32, show (0 : BitVec 32).extractLsb' 0 16 = 0 by rfl,
    show (0 : BitVec 32).extractLsb' 16 16 = 0 by rfl, h16, h16]
  exact fill_add m (k := 2) (by omega)

/-! ### Loads and stores of several words -/

/-- Words from `a` on. -/
def readWords (m : Mem) (a : Addr) : ℕ → List (BitVec 32)
  | 0 => []
  | n + 1 => m.read32 a :: m.readWords (a + 4) n

/-- Store of consecutive words. -/
def writeWords (m : Mem) (a : Addr) : List (BitVec 32) → Mem
  | [] => m
  | w :: ws => (m.write32 a w).writeWords (a + 4) ws

/-- Stores of several words change the block of these words only. -/
theorem eqOn_writeWords (m : Mem) (a : Addr) (ws : List (BitVec 32)) (h : 4 * ws.length ≤ 2 ^ 32) :
    Set.EqOn (m.writeWords a ws) m (span a (4 * ws.length))ᶜ := by
  induction ws generalizing m a with
  | nil => exact fun x _ => rfl
  | cons w ws ih =>
    rw [List.length_cons] at h ⊢
    intro x hx
    have h0 : x ∉ span a 4 := fun h => hx (span_mono (by omega) h)
    have h1 : x ∉ span (a + 4) (4 * ws.length) :=
      fun h' => hx (span_add_subset (k := 4) (by omega) h h')
    rw [writeWords, ih _ _ (by omega) h1, eqOn_write32 _ _ _ h0]

/-- And each of them is then in its place. -/
theorem read32_writeWords (m : Mem) (a : Addr) {ws : List (BitVec 32)} (h : 4 * ws.length ≤ 2 ^ 32)
    {i : ℕ} (hi : i < ws.length) :
    (m.writeWords a ws).read32 (a + BitVec.ofNat 32 (4 * i)) = ws[i] := by
  induction ws generalizing m a i with
  | nil => exact absurd hi (Nat.not_lt_zero i)
  | cons w ws ih =>
    rw [List.length_cons] at h hi
    rw [writeWords]
    cases i with
    | zero =>
      have hd : Disjoint (span a 4) (span (a + 4) (4 * ws.length)) := by
        have hd := disjoint_span_add (a := a) (k := 0) (j := 4) le_rfl
          (show 4 + 4 * ws.length ≤ 2 ^ 32 by omega)
        rwa [show a + BitVec.ofNat 32 0 = a by bv_omega] at hd
      rw [Nat.mul_zero, show a + BitVec.ofNat 32 0 = a by bv_omega,
        read32_of_eqOn_compl (eqOn_writeWords _ _ _ (by omega)) hd, read32_write32,
        List.getElem_cons_zero]
    | succ i =>
      have ha : a + BitVec.ofNat 32 (4 * (i + 1)) = a + 4 + BitVec.ofNat 32 (4 * i) := by bv_omega
      rw [ha, ih _ _ (by omega) (by omega), List.getElem_cons_succ]

/-- Loaded before any of it is stored, a run of words moves as a block. -/
theorem writeWords_readWords {m m' : Mem} {b a : Addr} {n : ℕ} (h : 4 * n ≤ 2 ^ 32)
    (hm : Set.EqOn m' m (span a (4 * n))) (hd : Disjoint (span a (4 * n)) (span b (4 * n))) :
    m'.writeWords b (m.readWords a n) = m'.copy b a (4 * n) := by
  induction n generalizing m' a b with
  | zero => rw [readWords, writeWords, Nat.mul_zero, copy_zero]
  | succ n ih =>
    have hfirst {c : Addr} : span c 4 ⊆ span c (4 * (n + 1)) := span_mono (by omega)
    have hrest {c : Addr} : span (c + 4) (4 * n) ⊆ span c (4 * (n + 1)) :=
      span_add_subset (k := 4) (by omega) h
    have hcross : Disjoint (span (a + 4) (4 * n)) (span b 4) := hd.mono hrest hfirst
    have hm' : Set.EqOn (m'.copy b a 4) m (span (a + 4) (4 * n)) := fun x hx =>
      (eqOn_copy m' b a 4 (Set.disjoint_left.mp hcross hx)).trans (hm (hrest hx))
    rw [readWords, writeWords, ← read32_congr (hm.mono hfirst),
      write32_eq_copy _ (hd.mono hfirst hfirst), ih (by omega) hm' (hd.mono hrest hrest),
      show 4 * (n + 1) = 4 + 4 * n by omega]
    exact copy_add m' (k := 4) (by omega) hcross

end ByteMem.Mem

namespace ByteMem

/-! ### Overlays -/

/-- On `A` the values of `P`, elsewhere those of `m`: what stores leave whose values depend on
nothing but where they go, in whatever order and however often they are made. -/
structure Overlay {α β : Type} (P : α → β) (A : Set α) (m m' : α → β) : Prop where
  on : Set.EqOn m' P A
  off : Set.EqOn m' m Aᶜ

namespace Overlay

variable {α β : Type} {P : α → β} {A B : Set α} {m m' m'' : α → β}

theorem refl (P m : α → β) : Overlay P ∅ m m := ⟨fun _ hx => hx.elim, fun _ _ => rfl⟩

theorem trans (h : Overlay P A m m') (h' : Overlay P B m' m'') : Overlay P (A ∪ B) m m'' where
  on x hx := by
    by_cases hB : x ∈ B
    · exact h'.on hB
    · exact (h'.off hB).trans (h.on (hx.resolve_right hB))
  off _ hx := (h'.off fun hB => hx (.inr hB)).trans (h.off fun hA => hx (.inl hA))

/-- A loop of stores. -/
theorem foldl_range {f : (α → β) → ℕ → α → β} {S : ℕ → Set α} {n : ℕ}
    (h : ∀ i < n, ∀ m', Overlay P {x | ∃ j < i, x ∈ S j} m m' → Overlay P (S i) m' (f m' i)) :
    Overlay P {x | ∃ j < n, x ∈ S j} m ((List.range n).foldl f m) := by
  induction n with
  | zero =>
    have hnone : {x | ∃ j < 0, x ∈ S j} = ∅ := Set.ext fun x => by simp
    rw [hnone]
    exact refl P m
  | succ n ih =>
    have hn := ih fun i hi => h i (by omega)
    have hsplit : {x | ∃ j < n + 1, x ∈ S j} = {x | ∃ j < n, x ∈ S j} ∪ S n :=
      Set.ext fun x => Nat.exists_lt_succ_right
    rw [List.range_succ, List.foldl_append, List.foldl_cons, List.foldl_nil, hsplit]
    exact hn.trans (h n (by omega) _ hn)

end Overlay

end ByteMem
