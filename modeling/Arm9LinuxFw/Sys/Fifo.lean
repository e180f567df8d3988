import Arm9LinuxFw.Lib.Transition
import Arm9LinuxFw.Sys.List

/-!
# The pending list as a queue

What the list primitives of `sys/list.h` are used for: a first-in first-out queue that holds no
node twice.

* `Fifo` is the queue and `fifoStep` its operations, stated without links: append a node unless it
  is in the queue, remove one, and take the first. Answers are recorded.
* `ListHeap` is a heap of links with a list head and some queue nodes, and `listStep` works on it
  with the primitives, store by store as in `Sys/List`.
* `HoldsFifo` is the simulation: the links represent the queue (`Represents` of
  `Lib/CircularList`), and the answers so far are the same. Each operation has a case.
* `pendingList_fifo` is the result for every sequence of operations: the links form one cycle
  through the head in the order of the queue, both ways round, and every answer of the
  primitives is the queue's.
-/

namespace Arm9LinuxFw

open CircularList Transition

variable {α : Type*} [DecidableEq α]

/-! ### Operations -/

/-- The operations on a list head and its queue nodes. -/
inductive ListOp (α : Type*)
  /-- `listAppendIfNotEmbedded(n, head)` -/
  | append (n : α)
  /-- `listRemove(n)`, of a node on the list or not -/
  | remove (n : α)
  /-- `listRemove(listHead(head))`, of a list that is not empty -/
  | removeHead
  deriving DecidableEq

/-- What is learned from an operation. -/
inductive ListAnswer (α : Type*)
  /-- `listAppendIfNotEmbedded` returned `ret` -/
  | appended (ret : Bool)
  /-- node `n` was taken off the list, if it was on it -/
  | removed (n : α)
  deriving DecidableEq

/-- A heap of links, with the answers so far. -/
structure ListHeap (α : Type*) where
  links : Links α
  answers : List (ListAnswer α)

/-- One operation on the heap, with list head `h` and queue nodes `nodes`. -/
def listStep (h : α) (nodes : List α) (s : ListHeap α) : ListOp α → Option (ListHeap α)
  | .append n =>
      if n ∈ nodes then
        let (ret, links) := listAppendIfNotEmbedded s.links n h
        some ⟨links, s.answers ++ [.appended ret]⟩
      else none
  | .remove n =>
      if n ∈ nodes then some ⟨listRemove s.links n, s.answers ++ [.removed n]⟩ else none
  | .removeHead =>
      if listEmpty s.links h then none
      else
        let n := listHead s.links h
        some ⟨listRemove s.links n, s.answers ++ [.removed n]⟩

/-- `listHeadInit` of the head and `listNodeInit` of every node, over whatever links the memory
held before. -/
def listInit (l : Links α) (h : α) (nodes : List α) : ListHeap α where
  links := nodes.foldl listNodeInit (listNodeInit l h)
  answers := []

/-! ### The abstract queue -/

/-- A queue, oldest node first, with the answers so far. -/
structure Fifo (α : Type*) where
  queue : List α
  answers : List (ListAnswer α)

/-- One operation on the queue: a node that is queued already is not queued again. -/
def fifoStep (nodes : List α) (s : Fifo α) : ListOp α → Option (Fifo α)
  | .append n =>
      if n ∈ nodes then
        if n ∈ s.queue then some ⟨s.queue, s.answers ++ [.appended false]⟩
        else some ⟨s.queue ++ [n], s.answers ++ [.appended true]⟩
      else none
  | .remove n =>
      if n ∈ nodes then some ⟨s.queue.erase n, s.answers ++ [.removed n]⟩ else none
  | .removeHead =>
      match s.queue with
      | [] => none
      | n :: rest => some ⟨rest, s.answers ++ [.removed n]⟩

/-- The empty queue. -/
def fifoInit : Fifo α := ⟨[], []⟩

/-! ### The simulation -/

/-- The initialized nodes. -/
def listNodes (h : α) (nodes : List α) : Set α := {x | x ∈ h :: nodes}

/-- The links represent the queue, and the answers are the same. -/
structure HoldsFifo (h : α) (nodes : List α) (s : ListHeap α) (q : Fifo α) : Prop where
  represents : Represents (listNodes h nodes) s.links h q.queue
  answers : s.answers = q.answers

section Simulation

variable {h : α} {nodes : List α}

/-- Nodes initialized one after the other are on no list. -/
private theorem represents_foldl_listNodeInit {D : Set α} {l : Links α} (r : Represents D l h [])
    (hnodes : h ∉ nodes) :
    Represents (D ∪ {x | x ∈ nodes}) (nodes.foldl listNodeInit l) h [] := by
  induction nodes generalizing D l with
  | nil => simpa using r
  | cons n nodes ih =>
    rw [List.mem_cons, not_or] at hnodes
    have hinit : Represents (insert n D) (listNodeInit l n) h [] :=
      represents_listNodeInit r (by simpa using Ne.symm hnodes.1)
    have hunion : insert n D ∪ {x | x ∈ nodes} = D ∪ {x | x ∈ n :: nodes} := by
      refine Set.ext fun x => ?_
      simp only [Set.mem_union, Set.mem_insert_iff, Set.mem_ofPred_eq, List.mem_cons]
      tauto
    rw [List.foldl_cons, ← hunion]
    exact ih hinit hnodes.2

/-- The list is empty at the start. -/
private theorem holdsFifo_init (l : Links α) (hnodes : h ∉ nodes) :
    HoldsFifo h nodes (listInit l h nodes) fifoInit where
  represents := by
    have hall := represents_foldl_listNodeInit (represents_listHeadInit l h) hnodes
    have hunion : {h} ∪ {x | x ∈ nodes} = listNodes h nodes := by
      refine Set.ext fun x => ?_
      simp [listNodes]
    rw [hunion] at hall
    exact hall
  answers := rfl

/-- **One operation** has the same answer on the links and on the queue. -/
theorem HoldsFifo.step (hnodes : h ∉ nodes) {s : ListHeap α} {q : Fifo α}
    (hq : HoldsFifo h nodes s q) (op : ListOp α) :
    Option.Rel (HoldsFifo h nodes) (listStep h nodes s op) (fifoStep nodes q op) := by
  obtain ⟨hrep, hans⟩ := hq
  cases op with
  | append n =>
    simp only [listStep, fifoStep]
    by_cases hn : n ∈ nodes
    · have hD : n ∈ listNodes h nodes := List.mem_cons_of_mem h hn
      have hne := ne_of_mem_of_not_mem hn hnodes
      rw [if_pos hn, if_pos hn, hans]
      by_cases hmem : n ∈ q.queue
      · rw [if_pos hmem, listAppendIfNotEmbedded_of_mem hrep hne hmem]
        exact .some ⟨hrep, rfl⟩
      · rw [if_neg hmem, listAppendIfNotEmbedded_of_notMem hrep hD hne hmem]
        exact .some ⟨represents_listAddTail hrep hD hne hmem, rfl⟩
    · rw [if_neg hn, if_neg hn]
      exact .none
  | remove n =>
    simp only [listStep, fifoStep]
    by_cases hn : n ∈ nodes
    · have hD : n ∈ listNodes h nodes := List.mem_cons_of_mem h hn
      rw [if_pos hn, if_pos hn, hans]
      exact .some ⟨represents_listRemove hrep hD (ne_of_mem_of_not_mem hn hnodes), rfl⟩
    · rw [if_neg hn, if_neg hn]
      exact .none
  | removeHead =>
    simp only [listStep, fifoStep]
    rcases hqueue : q.queue with _ | ⟨n, rest⟩
    · rw [if_pos ((listEmpty_iff hrep).mpr hqueue)]
      exact .none
    · have hempty : listEmpty s.links h ≠ true := by
        rw [Ne, listEmpty_iff hrep, hqueue]
        exact List.cons_ne_nil n rest
      rw [hqueue] at hrep
      rw [if_neg hempty, listHead_eq hrep, hans]
      exact .some ⟨represents_listRemove_head hrep, rfl⟩

end Simulation

/-! ### The contract -/

/-- The links of a heap hold the queue, and the primitives answer for it. -/
structure FifoShape (h : α) (nodes : List α) (s : ListHeap α) (q : Fifo α) : Prop where
  /-- no node is queued twice -/
  nodup : q.queue.Nodup
  subset : ∀ n ∈ q.queue, n ∈ nodes
  /-- `next` leads from the head through the queue and back to the head -/
  map_next : (h :: q.queue).map s.links.next = q.queue ++ [h]
  /-- `prev` leads the other way -/
  map_prev : (q.queue ++ [h]).map s.links.prev = h :: q.queue
  inverse : ∀ x ∈ h :: nodes,
    s.links.next (s.links.prev x) = x ∧ s.links.prev (s.links.next x) = x
  /-- every other node links to itself -/
  selfLinked : ∀ x ∈ nodes, x ∉ q.queue → s.links.next x = x ∧ s.links.prev x = x
  empty : listEmpty s.links h = true ↔ q.queue = []
  embedded : ∀ n ∈ nodes, listNodeEmbedded s.links n = true ↔ n ∈ q.queue
  /-- to append a queued node again changes nothing -/
  refuses : ∀ n ∈ q.queue, listAppendIfNotEmbedded s.links n h = (false, s.links)
  /-- what the operations have answered is what the queue answers -/
  answers : s.answers = q.answers

/-- The links form one cycle through the head, in the order of the queue. -/
private theorem HoldsFifo.shape {h : α} {nodes : List α} (hnodes : h ∉ nodes) {s : ListHeap α}
    {q : Fifo α}
    (hq : HoldsFifo h nodes s q) : FifoShape h nodes s q where
  nodup := (List.nodup_cons.mp hq.represents.nodup).2
  subset n hn := by
    rcases List.mem_cons.mp (hq.represents.mem n (List.mem_cons_of_mem h hn)) with rfl | hmem
    · exact absurd hn hq.represents.notMem_head
    · exact hmem
  map_next := hq.represents.map_next
  map_prev := hq.represents.map_prev
  inverse x hx := ⟨hq.represents.next_prev hx, hq.represents.prev_next hx⟩
  selfLinked x hx hnot := by
    have hD : x ∈ listNodes h nodes := List.mem_cons_of_mem h hx
    have hself : x ∉ h :: q.queue := by simp [ne_of_mem_of_not_mem hx hnodes, hnot]
    have hprev := (hq.represents.prev_eq_self_iff hD).mpr (Or.inl hself)
    refine ⟨?_, hprev⟩
    rw [← hprev, hq.represents.next_prev hD, hprev]
  empty := listEmpty_iff hq.represents
  embedded n hn :=
    listNodeEmbedded_iff hq.represents (List.mem_cons_of_mem h hn) (ne_of_mem_of_not_mem hn hnodes)
  refuses n hn := by
    have hne : n ≠ h := by
      rintro rfl
      exact hq.represents.notMem_head hn
    exact listAppendIfNotEmbedded_of_mem hq.represents hne hn
  answers := hq.answers

/-- **The pending list is a queue without duplicates**: from the initialization of a head and
any number of nodes on, in any order of operations. -/
theorem pendingList_fifo (l : Links α) (h : α) (nodes : List α) (hnodes : h ∉ nodes)
    (ops : List (ListOp α)) :
    Option.Rel (FifoShape h nodes) (exec (listStep h nodes) (listInit l h nodes) ops)
      (exec (fifoStep nodes) fifoInit ops) := by
  have hstep : ∀ s q op, HoldsFifo h nodes s q →
      Option.Rel (HoldsFifo h nodes) (listStep h nodes s op) (fifoStep nodes q op) :=
    fun s q op hq => hq.step hnodes op
  have hrel := exec_rel hstep (holdsFifo_init l hnodes) ops
  generalize exec (listStep h nodes) (listInit l h nodes) ops = s at hrel ⊢
  generalize exec (fifoStep nodes) fifoInit ops = q at hrel ⊢
  cases hrel with
  | some hq => exact .some (hq.shape hnodes)
  | none => exact .none

/-- Two nodes of three: one appended twice, the other taken off in between, and the first one
taken from the head. -/
theorem pendingList_fifo_twice : ∃ s q,
    exec (listStep 0 [1, 2, 3]) (listInit ⟨fun _ => 0, fun _ => 0⟩ 0 [1, 2, 3])
      [.append 1, .append 2, .append 1, .remove 2, .append 3, .removeHead] = some s ∧
    FifoShape 0 [1, 2, 3] s q ∧ q.queue = [3] ∧
    q.answers = [.appended true, .appended true, .appended false, .removed 2, .appended true,
      .removed 1] := by
  have hrel := pendingList_fifo ⟨fun _ => 0, fun _ => 0⟩ 0 [1, 2, 3] (by decide)
    [.append 1, .append 2, .append 1, .remove 2, .append 3, .removeHead]
  obtain ⟨q, hq⟩ : ∃ q, exec (fifoStep [1, 2, 3]) fifoInit
      [.append 1, .append 2, .append 1, .remove 2, .append 3, .removeHead] = some q := ⟨_, rfl⟩
  rw [hq] at hrel
  generalize hs : exec (listStep 0 [1, 2, 3]) (listInit ⟨fun _ => 0, fun _ => 0⟩ 0 [1, 2, 3])
    [.append 1, .append 2, .append 1, .remove 2, .append 3, .removeHead] = s at hrel
  cases hrel with
  | @some s _ hshape =>
    cases hq
    exact ⟨s, _, rfl, hshape, rfl, rfl⟩

end Arm9LinuxFw
