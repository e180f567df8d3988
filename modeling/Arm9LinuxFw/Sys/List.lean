import Arm9LinuxFw.Lib.CircularList

/-!
# Intrusive lists

The list primitives of `sys/list.h`, store by store, over a heap of link fields. Each one is
connected to the list it represents.

* `listNodeInit`, `listRemove` and `listAddTail` are the surgery. What the links are after each of
  them is said first, link by link; that is where the order of the stores counts, as the nodes
  concerned may be the same. From it follow the rules on represented lists: a node of its own,
  one node less, one node more at the end.
* `listNodeEmbedded` and `listEmpty` are one `prev` comparison each. They decide membership
  and emptiness, since a node on no list links to itself.
* `listAppendIfNotEmbedded` appends unless the node is there already, and says whether it did.
-/

namespace Arm9LinuxFw

open CircularList

variable {α : Type*} [DecidableEq α]

/-- `listNodeInit`, and `listHeadInit` with it. -/
def listNodeInit (l : Links α) (n : α) : Links α := (l.setNext n n).setPrev n n

/-- `listNodeEmbedded`. -/
def listNodeEmbedded (l : Links α) (n : α) : Bool := n ≠ l.prev n

/-- `listEmpty`. -/
def listEmpty (l : Links α) (h : α) : Bool := !listNodeEmbedded l h

/-- `listHead`. -/
def listHead (l : Links α) (h : α) : α := l.next h

/-- `listRemove`. -/
def listRemove (l : Links α) (n : α) : Links α :=
  let l := l.setPrev (l.next n) (l.prev n)
  let l := l.setNext (l.prev n) (l.next n)
  (l.setNext n n).setPrev n n

/-- `listAddTail`. -/
def listAddTail (l : Links α) (n h : α) : Links α :=
  let l := l.setPrev n (l.prev h)
  let l := l.setNext (l.prev h) n
  let l := l.setNext n h
  l.setPrev h n

/-- `listAppendIfNotEmbedded`. -/
def listAppendIfNotEmbedded (l : Links α) (n h : α) : Bool × Links α :=
  if !listNodeEmbedded l n then (true, listAddTail l n h) else (false, l)

/-! ### What the links are after each primitive -/

private theorem listRemove_next (l : Links α) (n x : α) :
    (listRemove l n).next x =
      if x = n then n else if x = l.prev n then l.next n else l.next x := by
  simp [listRemove]

private theorem listRemove_prev (l : Links α) (n x : α) :
    (listRemove l n).prev x =
      if x = n then n else if x = l.next n then l.prev n else l.prev x := by
  simp [listRemove]

private theorem listAddTail_next {l : Links α} {n h : α} (hn : n ≠ h) (x : α) :
    (listAddTail l n h).next x =
      if x = n then h else if x = l.prev h then n else l.next x := by
  simp [listAddTail, hn.symm]

private theorem listAddTail_prev (l : Links α) (n h x : α) :
    (listAddTail l n h).prev x =
      if x = h then n else if x = n then l.prev h else l.prev x := by
  simp [listAddTail]

private theorem listNodeInit_next (l : Links α) (n x : α) :
    (listNodeInit l n).next x = if x = n then n else l.next x := by
  simp [listNodeInit]

private theorem listNodeInit_prev (l : Links α) (n x : α) :
    (listNodeInit l n).prev x = if x = n then n else l.prev x := by
  simp [listNodeInit]

/-! ### The represented list -/

section Spec

variable {D : Set α} {l : Links α} {h n : α} {q : List α}

/-- A head by itself is an empty list. -/
theorem represents_listHeadInit (l : Links α) (h : α) :
    Represents {h} (listNodeInit l h) h [] := by
  refine .of_selfLinked (fun x hx => ?_) (fun x hx => ?_) rfl
  · obtain rfl : x = h := hx
    rw [listNodeInit_next, if_pos rfl]
  · obtain rfl : x = h := hx
    rw [listNodeInit_prev, if_pos rfl]

/-- A node that is initialized is on no list. -/
theorem represents_listNodeInit (r : Represents D l h q) (hn : n ∉ h :: q) :
    Represents (insert n D) (listNodeInit l n) h q :=
  r.addNode hn (listNodeInit_next l n) (listNodeInit_prev l n)

/-- The one comparison tells whether a node is on the list. -/
theorem listNodeEmbedded_iff (r : Represents D l h q) (hD : n ∈ D) (hn : n ≠ h) :
    listNodeEmbedded l n = true ↔ n ∈ q := by
  rw [listNodeEmbedded, decide_eq_true_iff, r.prev_ne_self_iff_mem hD hn]

theorem listEmpty_iff (r : Represents D l h q) : listEmpty l h = true ↔ q = [] := by
  rw [← r.prev_head_eq_iff, eq_comm (a := l.prev h)]
  simp [listEmpty, listNodeEmbedded]

theorem listHead_eq (r : Represents D l h (n :: q)) : listHead l h = n := r.next_head

/-- **Removal**, which does nothing to a node that is on no list. -/
theorem represents_listRemove (r : Represents D l h q) (hD : n ∈ D) (hn : n ≠ h) :
    Represents D (listRemove l n) h (q.erase n) :=
  r.unlink hD hn (listRemove_next l n) (listRemove_prev l n)

/-- Removing the node at the head of a list leaves the rest of it. -/
theorem represents_listRemove_head (r : Represents D l h (n :: q)) :
    Represents D (listRemove l n) h q := by
  have hn : n ≠ h := fun heq => r.notMem_head (heq ▸ List.mem_cons_self)
  simpa using represents_listRemove r (r.mem n (by simp)) hn

/-- **Appending** a node that is on no list. -/
theorem represents_listAddTail (r : Represents D l h q) (hD : n ∈ D) (hn : n ≠ h) (hq : n ∉ q) :
    Represents D (listAddTail l n h) h (q ++ [n]) :=
  r.insertTail hD (by simp [hn, hq]) (listAddTail_next hn) (listAddTail_prev l n h)

/-- A node that is on the list stays where it is. -/
theorem listAppendIfNotEmbedded_of_mem (r : Represents D l h q) (hn : n ≠ h) (hq : n ∈ q) :
    listAppendIfNotEmbedded l n h = (false, l) := by
  have hD : n ∈ D := r.mem n (List.mem_cons_of_mem h hq)
  simp [listAppendIfNotEmbedded, (listNodeEmbedded_iff r hD hn).mpr hq]

/-- Any other is appended. -/
theorem listAppendIfNotEmbedded_of_notMem (r : Represents D l h q) (hD : n ∈ D) (hn : n ≠ h)
    (hq : n ∉ q) : listAppendIfNotEmbedded l n h = (true, listAddTail l n h) := by
  have hemb : listNodeEmbedded l n = false := by
    rw [Bool.eq_false_iff, Ne, listNodeEmbedded_iff r hD hn]
    exact hq
  simp [listAppendIfNotEmbedded, hemb]

/-- The list after an append: the node is added at the tail unless it was there. -/
theorem represents_listAppendIfNotEmbedded (r : Represents D l h q) (hD : n ∈ D) (hn : n ≠ h) :
    Represents D (listAppendIfNotEmbedded l n h).2 h (if n ∈ q then q else q ++ [n]) := by
  split_ifs with hq
  · rw [listAppendIfNotEmbedded_of_mem r hn hq]
    exact r
  · rw [listAppendIfNotEmbedded_of_notMem r hD hn hq]
    exact represents_listAddTail r hD hn hq

end Spec

end Arm9LinuxFw
