import Arm9LinuxFw.Virt.Manager

/-!
# The state after initialization

`virtDevInitAll` leaves an empty pending list among the nodes of all queues of the table, and
every queue with the number of its device for an owner, whatever memory held before.

* `DevTable.HasQueue` says that there is such a queue, and `pendingNodes` are the list nodes of all
  of them, with the head. They are set up device by device, so the lemmas go through the sets of the
  devices below a number (`nodesBelow`).
* `virtDevInitAll_spec` has the list and the owners. The order of the two loops of `virtDevInit`
  matters for the list: a queue is reset, and with that removed from whatever list it is on, only
  after it was initialized as a node by itself.
* `Clear` are the values of a device and its queues after a reset; `clear_virtDevReset` says that a
  reset brings them about, and `initDevs_clear` that the initialization does.

A reset does not give `priv` a value, so `Clear` says nothing of it.
-/

namespace Arm9LinuxFw

open CircularList

variable {ω : Type*} (T : DevTable ω)

/-- The table has a device `d` with a queue `q`. -/
def DevTable.HasQueue (d q : ℕ) : Prop := d < T.count ∧ q < (T.dev d).vqn

/-- The nodes of the first `n` devices, and the list head. -/
def nodesBelow (n : ℕ) : Set ListNode :=
  {x | x = .vqueuePendingList ∨ ∃ d q, x = .vq d q ∧ d < n ∧ q < (T.dev d).vqn}

/-- The list nodes of the firmware. -/
def pendingNodes : Set ListNode := nodesBelow T T.count

/-- Every queue names the device whose array it is in. -/
def Owned (n : ℕ) (w : Fw ω) : Prop :=
  ∀ d q, d < n → q < (T.dev d).vqn → (w.vqs d q).owner = BitVec.ofNat 8 d

variable {T}

theorem mem_pendingNodes {d q : ℕ} (h : T.HasQueue d q) : .vq d q ∈ pendingNodes T :=
  Or.inr ⟨d, q, rfl, h⟩

theorem hasQueue_of_mem {d q : ℕ} (h : .vq d q ∈ pendingNodes T) : T.HasQueue d q := by
  rcases h with h | ⟨_, _, h, hd, hq⟩
  · cases h
  · obtain ⟨rfl, rfl⟩ := ListNode.vq.inj h
    exact ⟨hd, hq⟩

/-! ### The queues of one device -/

section Queues

variable {D : Set ListNode} (d : ℕ)

/-- Queues that are on no list stay so when they are reset: `listRemove` changes nothing then. -/
private theorem resetQueues_represents {n : ℕ} {w : Fw ω}
    (r : Represents D w.links .vqueuePendingList []) (hD : ∀ q < n, .vq d q ∈ D) :
    Represents D (resetQueues d n w).links .vqueuePendingList [] := by
  induction n with
  | zero => exact r
  | succ n ih =>
    have hbefore := ih fun q hq => hD q (Nat.lt_succ_of_lt hq)
    exact represents_listRemove hbefore (hD n (Nat.lt_succ_self n)) (by simp)

/-- A reset leaves the owners of the queues. -/
private theorem resetQueues_owner (n : ℕ) (w : Fw ω) (d' q' : ℕ) :
    ((resetQueues d n w).vqs d' q').owner = (w.vqs d' q').owner := by
  induction n with
  | zero => rfl
  | succ n ih =>
    rw [← ih, resetQueues, Fw.setQueue_vqs]
    split_ifs with h
    · rw [h.1, h.2]
      rfl
    · rfl

/-- Of each queue of the device everything is reset but the owner, the number and `priv`. -/
private theorem resetQueues_vqs (n : ℕ) (w : Fw ω) (d' q' : ℕ) :
    (resetQueues d n w).vqs d' q' =
      if d' = d ∧ q' < n then ⟨(w.vqs d' q').owner, (w.vqs d' q').id, 0, 0, 0, 0, 0, 0, 0,
        (w.vqs d' q').priv⟩ else w.vqs d' q' := by
  induction n with
  | zero => simp [resetQueues]
  | succ n ih =>
    rw [resetQueues, Fw.setQueue_vqs]
    split_ifs with h hlt hlt
    · obtain ⟨rfl, rfl⟩ := h
      rw [virtQueueReset, ih, if_neg (by omega)]
    · omega
    · rw [ih, if_pos (by omega)]
    · rw [ih, if_neg (by omega)]

private theorem resetQueues_devs (n : ℕ) (w : Fw ω) : (resetQueues d n w).devs = w.devs := by
  induction n with
  | zero => rfl
  | succ n ih => exact ih

private theorem initQueues_devs (n : ℕ) (w : Fw ω) : (initQueues d n w).devs = w.devs := by
  induction n with
  | zero => rfl
  | succ n ih => exact ih

/-- Every queue of the device becomes a node of its own, outside of the pending list. -/
private theorem initQueues_represents {n : ℕ} {w : Fw ω}
    (r : Represents D w.links .vqueuePendingList []) :
    Represents (D ∪ {x | ∃ q < n, x = .vq d q}) (initQueues d n w).links .vqueuePendingList [] := by
  induction n with
  | zero => simpa [initQueues] using r
  | succ n ih =>
    have hinit := represents_listNodeInit (n := .vq d n) ih (by simp)
    have hreset := represents_listRemove hinit (Set.mem_insert _ _) (by simp)
    have hnodes : insert (ListNode.vq d n) (D ∪ {x | ∃ q < n, x = .vq d q}) =
        D ∪ {x | ∃ q < n + 1, x = .vq d q} := by
      refine Set.ext fun x => ?_
      simp only [Set.mem_insert_iff, Set.mem_union, Set.mem_ofPred_eq, Nat.lt_succ_iff_lt_or_eq]
      grind
    rw [← hnodes]
    exact hreset

private theorem initQueues_vqs_of_ne (n : ℕ) (w : Fw ω) {d' : ℕ} (hd : d' ≠ d) (q' : ℕ) :
    (initQueues d n w).vqs d' q' = w.vqs d' q' := by
  induction n with
  | zero => rfl
  | succ n ih => rw [initQueues, Fw.setQueue_vqs, if_neg fun h => hd h.1, ih]

/-- A queue belongs to the device that initialized it. -/
private theorem initQueues_owner (n : ℕ) (w : Fw ω) (d' q' : ℕ) :
    ((initQueues d n w).vqs d' q').owner =
      if d' = d ∧ q' < n then BitVec.ofNat 8 d else (w.vqs d' q').owner := by
  induction n with
  | zero => simp [initQueues]
  | succ n ih =>
    rw [initQueues, Fw.setQueue_vqs]
    split_ifs with h hlt hlt
    · rfl
    · omega
    · rw [ih, if_pos (by omega)]
    · rw [ih, if_neg (by omega)]

end Queues

/-! ### The devices -/

/-- One device more, and the list is still empty, now among its queues too. -/
private theorem virtDevInit_represents {n : ℕ} {w : Fw ω}
    (r : Represents (nodesBelow T n) w.links .vqueuePendingList []) :
    Represents (nodesBelow T (n + 1)) (virtDevInit T n w).links .vqueuePendingList [] := by
  have hnodes : nodesBelow T n ∪ {x | ∃ q < (T.dev n).vqn, x = .vq n q} =
      nodesBelow T (n + 1) := by
    refine Set.ext fun x => ?_
    simp only [nodesBelow, Set.mem_union, Set.mem_ofPred_eq, Nat.lt_succ_iff_lt_or_eq]
    grind
  have hinit : Represents (nodesBelow T (n + 1)) (initQueues n (T.dev n).vqn
      (w.setDev n { w.devs n with id := BitVec.ofNat 32 n })).links .vqueuePendingList [] := by
    rw [← hnodes]
    exact initQueues_represents n r
  refine resetQueues_represents n hinit fun q hq => ?_
  exact Or.inr ⟨n, q, rfl, Nat.lt_succ_self n, hq⟩

/-- One device more with queues of its own. -/
private theorem virtDevInit_owned {n : ℕ} {w : Fw ω} (h : Owned T n w) :
    Owned T (n + 1) (virtDevInit T n w) := by
  intro d q hd hq
  change ((resetQueues n (T.dev n).vqn _).vqs d q).owner = _
  rw [resetQueues_owner]
  change ((initQueues n (T.dev n).vqn _).vqs d q).owner = _
  rw [initQueues_owner]
  split_ifs with hn
  · rw [hn.1]
  · have hne : d ≠ n := by
      rintro rfl
      exact hn ⟨rfl, hq⟩
    exact h d q (by omega) hq

/-- What a reset leaves of a queue: owner, number, and the word that is private to the device. -/
theorem virtDevReset_vqs (d : ℕ) (w : Fw ω) (d' q' : ℕ) :
    (virtDevReset T d w).vqs d' q' =
      if d' = d ∧ q' < (T.dev d).vqn then ⟨(w.vqs d' q').owner, (w.vqs d' q').id,
        0, 0, 0, 0, 0, 0, 0, (w.vqs d' q').priv⟩ else w.vqs d' q' :=
  resetQueues_vqs d _ _ d' q'

/-- What it leaves of a device: its identifier. -/
theorem virtDevReset_devs (d : ℕ) (w : Fw ω) (d' : ℕ) :
    (virtDevReset T d w).devs d' =
      if d' = d then ⟨(w.devs d).id, 0, 0, 0⟩ else w.devs d' := by
  change (resetQueues d _ _).devs d' = _
  rw [resetQueues_devs]
  split_ifs with h
  · rw [h]
    exact Function.update_self ..
  · exact Function.update_of_ne h ..

/-- Device `d` and its queues are as a reset leaves them. -/
structure Clear (d : ℕ) (w : Fw ω) : Prop where
  dev : ∃ id, w.devs d = ⟨id, 0, 0, 0⟩
  queue : ∀ q < (T.dev d).vqn,
    ∃ owner id priv, w.vqs d q = ⟨owner, id, 0, 0, 0, 0, 0, 0, 0, priv⟩

/-- After its reset, a device and its queues have the values of the start. -/
private theorem clear_virtDevReset (d : ℕ) (w : Fw ω) : Clear (T := T) d (virtDevReset T d w) where
  dev := ⟨_, by rw [virtDevReset_devs, if_pos rfl]⟩
  queue q hq := ⟨_, _, _, by rw [virtDevReset_vqs, if_pos ⟨rfl, hq⟩]⟩

/-- Initializing a device leaves the others alone. -/
theorem Clear.virtDevInit {d n : ℕ} {w : Fw ω} (h : Clear (T := T) d w) (hn : d ≠ n) :
    Clear (T := T) d (virtDevInit T n w) where
  dev := by
    obtain ⟨id, hid⟩ := h.dev
    rw [Arm9LinuxFw.virtDevInit, virtDevReset_devs, if_neg hn, initQueues_devs]
    exact ⟨id, (Function.update_of_ne hn ..).trans hid⟩
  queue q hq := by
    rw [Arm9LinuxFw.virtDevInit, virtDevReset_vqs, if_neg fun h => hn h.1,
      initQueues_vqs_of_ne n _ _ hn]
    exact h.queue q hq

/-- So they have after the initialization. -/
theorem initDevs_clear {d n : ℕ} (hd : d < n) (w : Fw ω) : Clear (T := T) d (initDevs T n w) := by
  induction n with
  | zero => exact absurd hd (Nat.not_lt_zero d)
  | succ n ih =>
    rcases Nat.lt_succ_iff_lt_or_eq.mp hd with hlt | rfl
    · exact (ih hlt).virtDevInit (Nat.ne_of_lt hlt)
    · exact clear_virtDevReset d _

/-- Devices are numbered by their place in the table. -/
theorem virtDevInitAll_id {d : ℕ} (hd : d < T.count) (w : Fw ω) :
    ((virtDevInitAll T w).devs d).id = BitVec.ofNat 32 d := by
  have hinit (n : ℕ) (hn : d < n) (v : Fw ω) :
      ((initDevs T n v).devs d).id = BitVec.ofNat 32 d := by
    induction n with
    | zero => exact absurd hn (Nat.not_lt_zero d)
    | succ n ih =>
      rw [initDevs, virtDevInit, virtDevReset_devs, initQueues_devs]
      split_ifs with heq
      · simp [heq, Fw.setDev]
      · simpa [heq, Fw.setDev] using ih (by omega)
  exact hinit T.count hd _

/-- What holds of the pending list and the owners after `virtDevInitAll`. -/
theorem virtDevInitAll_spec (w : Fw ω) :
    Represents (pendingNodes T) (virtDevInitAll T w).links .vqueuePendingList [] ∧
      Owned T T.count (virtDevInitAll T w) := by
  have hinit (n : ℕ) (v : Fw ω) (r : Represents (nodesBelow T 0) v.links .vqueuePendingList []) :
      Represents (nodesBelow T n) (initDevs T n v).links .vqueuePendingList [] ∧
        Owned T n (initDevs T n v) := by
    induction n with
    | zero => exact ⟨r, fun d q hd => absurd hd (Nat.not_lt_zero d)⟩
    | succ n ih => exact ⟨virtDevInit_represents ih.1, virtDevInit_owned ih.2⟩
  refine hinit T.count _ ?_
  -- before the first device the list head is the only node
  have hnodes : nodesBelow T 0 = {.vqueuePendingList} := by
    refine Set.ext fun x => ?_
    simp [nodesBelow]
  rw [hnodes]
  exact represents_listHeadInit w.links .vqueuePendingList

end Arm9LinuxFw
