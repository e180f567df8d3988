import Mathlib.GroupTheory.Perm.List

/-!
# Circular doubly-linked lists

A heap of list nodes is a pair of link functions. `Represents D l h q` says that the nodes of
`q`, in this order, hang on the list head `h`: on the initialized nodes `D`, `next` is the
cyclic permutation of `h :: q` and `prev` its inverse, so the links form one cycle through the
head, the two directions are mutually inverse, and every node outside the list links to
itself.

* **Reading the links**: `Represents.next_head` is the first node, and
  `Represents.exists_iterate_next_iff` says that following the links from the head meets exactly
  the nodes of the list. A node is on the list if and only if it does not link to itself.
* **Rules**: `Represents.unlink` and `Represents.insertTail` carry the shape through the two
  pieces of pointer surgery an intrusive list is made of, whatever the order of the stores that
  produced the new links. Both come down to multiplying the permutation by one transposition.

Nothing is said about how the links are stored; a program instantiates the heap with the link fields
of its nodes, whatever objects those are in.
-/

namespace CircularList

/-- The link fields of a heap of list nodes. -/
structure Links (α : Type*) where
  prev : α → α
  next : α → α

variable {α : Type*} [DecidableEq α]

/-- The store `n->prev = p`. -/
def Links.setPrev (l : Links α) (n p : α) : Links α :=
  { l with prev := Function.update l.prev n p }

/-- The store `n->next = p`. -/
def Links.setNext (l : Links α) (n p : α) : Links α :=
  { l with next := Function.update l.next n p }

section Setters

variable (l : Links α) (n p x : α)

@[simp] theorem Links.setPrev_prev : (l.setPrev n p).prev x = if x = n then p else l.prev x := by
  simp [setPrev, Function.update_apply]

@[simp] theorem Links.setPrev_next : (l.setPrev n p).next = l.next := rfl

@[simp] theorem Links.setNext_next : (l.setNext n p).next x = if x = n then p else l.next x := by
  simp [setNext, Function.update_apply]

@[simp] theorem Links.setNext_prev : (l.setNext n p).prev = l.prev := rfl

end Setters

/-! ### The cyclic permutation of a list -/

/-- Dropping an inner element from a cycle multiplies it by one transposition. -/
theorem formPerm_remove {h n : α} {a b : List α} (hnd : (h :: (a ++ n :: b)).Nodup) :
    (h :: (a ++ b)).formPerm =
      Equiv.swap n ((h :: (a ++ n :: b)).formPerm n) * (h :: (a ++ n :: b)).formPerm := by
  have hrot : (h :: (a ++ n :: b)) ~r (n :: (b ++ h :: a)) := by
    have : (h :: a) ++ (n :: b) ~r (n :: b) ++ (h :: a) := List.isRotated_append
    simpa using this
  have hrot' : (b ++ h :: a) ~r (h :: (a ++ b)) := by
    have : b ++ (h :: a) ~r (h :: a) ++ b := List.isRotated_append
    simpa using this
  have hnd' : (n :: (b ++ h :: a)).Nodup := hrot.nodup_iff.mp hnd
  obtain ⟨y, l, hy⟩ : ∃ y l, b ++ h :: a = y :: l := List.exists_cons_of_ne_nil (by simp)
  rw [List.formPerm_eq_of_isRotated hnd hrot,
    ← List.formPerm_eq_of_isRotated (List.nodup_cons.mp hnd').2 hrot']
  rw [hy] at hnd' ⊢
  rw [List.formPerm_apply_head n y l hnd', List.formPerm_cons_cons, ← mul_assoc,
    Equiv.swap_mul_self, one_mul]

/-- Appending an element to a cycle multiplies it by one transposition. -/
theorem formPerm_concat {h n : α} {q : List α} (hnd : (h :: (q ++ [n])).Nodup) :
    (h :: (q ++ [n])).formPerm = Equiv.swap n h * (h :: q).formPerm := by
  have hrot : (h :: (q ++ [n])) ~r (n :: h :: q) := by
    have : (h :: q) ++ [n] ~r [n] ++ (h :: q) := List.isRotated_append
    simpa using this
  rw [List.formPerm_eq_of_isRotated hnd hrot, List.formPerm_cons_cons]

/-! ### Represented lists -/

/-- Of the nodes in `D`, those of `q` hang on the head `h` in this order, and every other one
links to itself. Nothing is said about nodes outside `D`. -/
structure Represents (D : Set α) (l : Links α) (h : α) (q : List α) : Prop where
  nodup : (h :: q).Nodup
  mem : ∀ x ∈ h :: q, x ∈ D
  next_eq : ∀ x ∈ D, l.next x = (h :: q).formPerm x
  prev_eq : ∀ x ∈ D, l.prev x = (h :: q).formPerm.symm x

namespace Represents

variable {D : Set α} {l l' : Links α} {h n : α} {q : List α}

/-- Self-linked nodes represent the empty list at every head among them. -/
theorem of_selfLinked (hnext : ∀ x ∈ D, l.next x = x) (hprev : ∀ x ∈ D, l.prev x = x)
    (hh : h ∈ D) : Represents D l h [] where
  nodup := List.nodup_singleton h
  mem x hx := by
    obtain rfl := List.mem_singleton.mp hx
    exact hh
  next_eq x hx := by rw [List.formPerm_singleton]; exact hnext x hx
  prev_eq x hx := by rw [List.formPerm_singleton]; exact hprev x hx

theorem head_mem (r : Represents D l h q) : h ∈ D := r.mem h List.mem_cons_self

theorem notMem_head (r : Represents D l h q) : h ∉ q := (List.nodup_cons.mp r.nodup).1

/-- Links lead from nodes to nodes. -/
theorem next_mem (r : Represents D l h q) {x : α} (hx : x ∈ D) : l.next x ∈ D := by
  rw [r.next_eq x hx]
  by_cases hmem : x ∈ h :: q
  · exact r.mem _ (List.formPerm_apply_mem_of_mem hmem)
  · rwa [List.formPerm_apply_of_notMem hmem]

theorem prev_mem (r : Represents D l h q) {x : α} (hx : x ∈ D) : l.prev x ∈ D := by
  rw [r.prev_eq x hx]
  by_cases hmem : (h :: q).formPerm.symm x ∈ h :: q
  · exact r.mem _ hmem
  · have hfix := List.formPerm_apply_of_notMem hmem
    rw [Equiv.apply_symm_apply] at hfix
    rwa [← hfix]

/-- The two directions are mutually inverse. -/
theorem next_prev (r : Represents D l h q) {x : α} (hx : x ∈ D) : l.next (l.prev x) = x := by
  rw [r.next_eq _ (r.prev_mem hx), r.prev_eq x hx, Equiv.apply_symm_apply]

theorem prev_next (r : Represents D l h q) {x : α} (hx : x ∈ D) : l.prev (l.next x) = x := by
  rw [r.prev_eq _ (r.next_mem hx), r.next_eq x hx, Equiv.symm_apply_apply]

/-- A node links to itself exactly when it is not on a list with another node. -/
theorem prev_eq_self_iff (r : Represents D l h q) {x : α} (hx : x ∈ D) :
    l.prev x = x ↔ x ∉ h :: q ∨ q = [] := by
  rw [r.prev_eq x hx, Equiv.symm_apply_eq]
  by_cases hmem : x ∈ h :: q
  · rw [eq_comm, List.formPerm_apply_mem_eq_self_iff (h :: q) r.nodup x hmem]
    simp [hmem, List.length_cons, ← List.length_eq_zero_iff]
  · simp [List.formPerm_apply_of_notMem hmem, hmem]

/-- **Membership** is decided by one `prev` comparison. -/
theorem prev_ne_self_iff_mem (r : Represents D l h q) (hD : n ∈ D) (hn : n ≠ h) :
    n ≠ l.prev n ↔ n ∈ q := by
  rw [ne_comm, Ne, r.prev_eq_self_iff hD, List.mem_cons]
  rcases eq_or_ne q [] with rfl | hq
  · simp
  · simp [hn, hq]

/-- **Emptiness** is decided by one `prev` comparison. -/
theorem prev_head_eq_iff (r : Represents D l h q) : l.prev h = h ↔ q = [] := by
  rw [r.prev_eq_self_iff r.head_mem]
  simp

/-- The first node is the head's successor. -/
theorem next_head {x : α} (r : Represents D l h (x :: q)) : l.next h = x := by
  rw [r.next_eq h r.head_mem, List.formPerm_apply_head h x q r.nodup]

/-- The successors of the head and the nodes are the nodes and the head again. -/
theorem map_next (r : Represents D l h q) : (h :: q).map l.next = q ++ [h] := by
  have hrotate : (h :: q).map l.next = (h :: q).rotate 1 := by
    refine List.ext_getElem (by simp) fun k hk _ => ?_
    rw [List.length_map] at hk
    rw [List.getElem_map, r.next_eq _ (r.mem _ (List.getElem_mem hk)),
      List.formPerm_apply_getElem _ r.nodup k hk, List.getElem_rotate]
  rw [hrotate, List.rotate_cons_succ, List.rotate_zero]

/-- The predecessors of the nodes and the head are the head and the nodes. -/
theorem map_prev (r : Represents D l h q) : (q ++ [h]).map l.prev = h :: q := by
  have hback : ∀ x ∈ h :: q, (l.prev ∘ l.next) x = x := fun x hx => r.prev_next (r.mem x hx)
  rw [← r.map_next, List.map_map, List.map_congr_left hback, List.map_id']

/-- Following `next` from the head meets the nodes of the list, and nothing else. -/
theorem exists_iterate_next_iff (r : Represents D l h q) :
    (∃ k, l.next^[k] h = n) ↔ n ∈ h :: q := by
  -- the links agree with the permutation on `D` only, so the orbit has to stay there
  have hiter (k : ℕ) : l.next^[k] h = ((h :: q).formPerm ^ k) h := by
    induction k with
    | zero => rfl
    | succ k ih =>
      have hD : ((h :: q).formPerm ^ k) h ∈ D := by
        rw [List.formPerm_pow_apply_head h q r.nodup]
        exact r.mem _ (List.getElem_mem _)
      rw [Function.iterate_succ_apply', ih, r.next_eq _ hD, pow_succ', Equiv.Perm.mul_apply]
  constructor
  · rintro ⟨k, rfl⟩
    rw [hiter, List.formPerm_pow_apply_head h q r.nodup]
    exact List.getElem_mem _
  · intro hn
    obtain ⟨k, hk, rfl⟩ := List.getElem_of_mem hn
    refine ⟨k, ?_⟩
    rw [hiter, List.formPerm_pow_apply_head h q r.nodup]
    simp only [Nat.mod_eq_of_lt hk]

/-- **Unlinking.** Links that join the neighbours of `n` and close `n` on itself represent
the list without `n`, whether `n` was on it or not. -/
theorem unlink (r : Represents D l h q) (hD : n ∈ D) (hn : n ≠ h)
    (hnext : ∀ x, l'.next x =
      if x = n then n else if x = l.prev n then l.next n else l.next x)
    (hprev : ∀ x, l'.prev x =
      if x = n then n else if x = l.next n then l.prev n else l.prev x) :
    Represents D l' h (q.erase n) := by
  by_cases hmem : n ∈ q
  -- on the list, the cycle loses one transposition; off it, the stores change nothing
  · obtain ⟨a, b, rfl⟩ := List.append_of_mem hmem
    have hna : n ∉ a := fun hna => List.disjoint_of_nodup_append
      (List.nodup_cons.mp r.nodup).2 hna (by simp)
    rw [List.erase_append_right _ hna, List.erase_cons_head]
    have hsub : List.Sublist (h :: (a ++ b)) (h :: (a ++ n :: b)) :=
      ((List.sublist_cons_self n b).append_left a).cons_cons h
    have hperm := formPerm_remove r.nodup
    have hpn := r.prev_eq n hD
    have hxn := r.next_eq n hD
    set σ := (h :: (a ++ n :: b)).formPerm with hσ
    refine ⟨r.nodup.sublist hsub, fun x hx => r.mem x (hsub.subset hx), ?_, ?_⟩
    · intro x hx
      rw [hperm, hnext, hpn, hxn, r.next_eq x hx, ← hσ, Equiv.Perm.mul_apply]
      split_ifs with h1 h2
      · rw [h1, Equiv.swap_apply_right]
      · rw [h2, Equiv.apply_symm_apply, Equiv.swap_apply_left]
      · rw [Equiv.swap_apply_of_ne_of_ne (fun hx => h2 ((Equiv.eq_symm_apply σ).mpr hx))
          fun hx => h1 (σ.injective hx)]
    · intro x hx
      have hsymm : (Equiv.swap n (σ n) * σ).symm x = σ.symm (Equiv.swap n (σ n) x) := by
        rw [Equiv.symm_apply_eq, Equiv.Perm.mul_apply, Equiv.apply_symm_apply,
          Equiv.swap_apply_self]
      rw [hperm, hprev, hpn, hxn, r.prev_eq x hx, ← hσ, hsymm]
      split_ifs with h1 h2
      · rw [h1, Equiv.swap_apply_left, Equiv.symm_apply_apply]
      · rw [h2, Equiv.swap_apply_right]
      · rw [Equiv.swap_apply_of_ne_of_ne h1 h2]
  · have hself : n ∉ h :: q := by simp [hn, hmem]
    have hp : l.prev n = n := (r.prev_eq_self_iff hD).mpr (Or.inl hself)
    have hx : l.next n = n := by rw [r.next_eq n hD, List.formPerm_apply_of_notMem hself]
    rw [List.erase_of_not_mem hmem]
    refine ⟨r.nodup, r.mem, ?_, ?_⟩
    · intro x hxD
      rw [hnext, hp, hx, ← r.next_eq x hxD]
      split_ifs with h1 <;> simp [*]
    · intro x hxD
      rw [hprev, hp, hx, ← r.prev_eq x hxD]
      split_ifs with h1 <;> simp [*]

/-- **Insertion at the tail.** Links that put a self-linked `n` between the head and its old
predecessor represent the list with `n` appended. -/
theorem insertTail (r : Represents D l h q) (hD : n ∈ D) (hn : n ∉ h :: q)
    (hnext : ∀ x, l'.next x =
      if x = n then h else if x = l.prev h then n else l.next x)
    (hprev : ∀ x, l'.prev x =
      if x = h then n else if x = n then l.prev h else l.prev x) :
    Represents D l' h (q ++ [n]) := by
  have hnd : (h :: (q ++ [n])).Nodup := by
    rw [← List.cons_append]
    exact List.Nodup.append r.nodup (List.nodup_singleton n) (by simpa using hn)
  have hperm := formPerm_concat hnd
  have hfix : (h :: q).formPerm n = n := List.formPerm_apply_of_notMem hn
  have hfix' : (h :: q).formPerm.symm n = n := by rw [Equiv.symm_apply_eq, hfix]
  have hph := r.prev_eq h r.head_mem
  have hmem : ∀ x ∈ h :: (q ++ [n]), x ∈ D := by
    intro x hx
    rw [← List.cons_append, List.mem_append, List.mem_singleton] at hx
    obtain hx | rfl := hx
    · exact r.mem x hx
    · exact hD
  set σ := (h :: q).formPerm with hσ
  refine ⟨hnd, hmem, ?_, ?_⟩
  · intro x hx
    rw [hperm, hnext, hph, r.next_eq x hx, ← hσ, Equiv.Perm.mul_apply]
    split_ifs with h1 h2
    · rw [h1, hfix, Equiv.swap_apply_left]
    · rw [h2, Equiv.apply_symm_apply, Equiv.swap_apply_right]
    · rw [Equiv.swap_apply_of_ne_of_ne
        (fun hx => h1 (σ.injective (hx.trans hfix.symm)))
        fun hx => h2 ((Equiv.eq_symm_apply σ).mpr hx)]
  · intro x hx
    have hsymm : (Equiv.swap n h * σ).symm x = σ.symm (Equiv.swap n h x) := by
      rw [Equiv.symm_apply_eq, Equiv.Perm.mul_apply, Equiv.apply_symm_apply,
        Equiv.swap_apply_self]
    rw [hperm, hprev, hph, r.prev_eq x hx, ← hσ, hsymm]
    split_ifs with h1 h2
    · rw [h1, Equiv.swap_apply_right, hfix']
    · rw [h2, Equiv.swap_apply_left]
    · rw [Equiv.swap_apply_of_ne_of_ne h2 h1]

/-- **A new node.** Links that agree on `D` and close `n` on itself represent the same list
among one node more, which was not on it. -/
theorem addNode (r : Represents D l h q) (hn : n ∉ h :: q)
    (hnext : ∀ x, l'.next x = if x = n then n else l.next x)
    (hprev : ∀ x, l'.prev x = if x = n then n else l.prev x) :
    Represents (insert n D) l' h q := by
  have hfix : (h :: q).formPerm n = n := List.formPerm_apply_of_notMem hn
  refine ⟨r.nodup, fun x hx => Set.mem_insert_of_mem n (r.mem x hx), ?_, ?_⟩
  · intro x hx
    rw [hnext]
    split_ifs with h1
    · rw [h1, hfix]
    · exact r.next_eq x (hx.resolve_left h1)
  · intro x hx
    rw [hprev]
    split_ifs with h1
    · rw [h1, eq_comm, Equiv.symm_apply_eq, hfix]
    · exact r.prev_eq x (hx.resolve_left h1)

end Represents

end CircularList
