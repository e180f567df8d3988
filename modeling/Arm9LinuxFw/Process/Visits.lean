import Arm9LinuxFw.Process.Frame
import Arm9LinuxFw.Process.Entries
import Arm9LinuxFw.Lib.History

/-!
# Which table entries a run comes by

A run of a `prQueue` over memory that stays as it was at the call meets exactly the entries that
`Visited` names, whether or not they are in the descriptor table.

* `Held` says of a state that the available ring and the entries to be visited are as they were
  at the call.
* `Tracks` is the invariant of the position: inside the inner loop the run is at an entry visited,
  in the chain of the head it fetched last, and what is still ahead is among what was to be
  visited (`Tracks.step`, `Tracks.iterate`).
* Conversely, every entry visited is come by (`exists_body_of_visits`).
* `Guarded` is a condition on the memory at the call alone under which it stays as it was: the
  entries visited are in the table, and neither the buffers they describe nor the used ring
  overlap with what the loops read (`Guarded.run`).
-/

namespace Arm9LinuxFw

open ByteMem LinkGraph History Transition

/-! ### The record of fetches -/

/-- A call of `virtQueueFetchAvailFirst`. -/
def Event.IsFetch : Event → Prop
  | .fetched _ => True
  | .desc _ | .load _ _ | .store _ _ | .readsectors _ _ _ _ | .pushed _ _ => False

/-- The head fetched last is `head`. -/
def Fetched (head : U16) (log : List Event) : Prop :=
  Since (· = .fetched head.toNat) Event.IsFetch log

private theorem fetched_append (head : U16) (log : List Event) :
    Fetched head (log ++ [.fetched head.toNat]) :=
  since_append_singleton.mpr (Or.inl rfl)

/-- A device fetches nothing. -/
private theorem BodySpec.not_isFetch {dev : Vdev} {desc : VirtDesc} {vjob vjob' : VirtJob}
    {c c' : Ctx}
    {es : List Event} (h : BodySpec dev desc vjob c vjob' c' es) : ∀ e ∈ es, ¬ e.IsFetch := by
  intro e he hfetch
  have hthrough := h.through e he
  cases e with
  | fetched ret => exact hthrough
  | desc _ | load _ _ | store _ _ | readsectors _ _ _ _ | pushed _ _ => exact hfetch

/-- Getting a descriptor fetches no head. -/
private theorem getEvents_not_isFetch (vjob : VirtJob) (c : Ctx) :
    ∀ e ∈ getEvents vjob c, ¬ e.IsFetch := by
  intro e he
  rw [getEvents] at he
  split_ifs at he
  · rw [List.mem_singleton.mp he]
    exact id
  · cases he

/-! ### Memory held fixed -/

/-- In state `s`, what the loops are to read is as it was in `c₀`, the context of the call. -/
structure Held (c₀ : Ctx) (s : Config) : Prop where
  avail : Set.EqOn s.ctx.mem c₀.mem c₀.vq.availSpan
  entry : ∀ i, Visited c₀.mem c₀.vq i →
    tableEntry s.ctx.mem c₀.vq.qDesc i = tableEntry c₀.mem c₀.vq.qDesc i

/-- What is still ahead of state `s` was to be visited at the call. -/
def Ahead (c₀ : Ctx) (s : Config) : Prop :=
  ∀ head i, Visits c₀.mem c₀.vq s.ctx.vq.availIdx head i →
    Visits c₀.mem c₀.vq c₀.vq.availIdx head i

/-- A state inside the inner loop. -/
def Config.Inner (s : Config) : Prop := s.pc = .body ∨ s.pc = .fetchNext

/-- Where state `s` of a run over fixed memory is. -/
structure Tracks (c₀ : Ctx) (s : Config) : Prop where
  sameSetup : s.ctx.vq.SameSetup c₀.vq
  fetched : s.Inner → Fetched s.vjob.firstDesc s.ctx.log
  visits : s.Inner → Visits c₀.mem c₀.vq c₀.vq.availIdx s.vjob.firstDesc s.vjob.currentDesc
  /-- the next head is visited if the chain the run is in comes to an end -/
  ahead : (s.Inner → Ends (linkAt c₀.mem c₀.vq.qDesc) s.vjob.currentDesc) →
    s.pc ≠ .notify → s.pc ≠ .done → Ahead c₀ s

section Run

variable {dev : Vdev} {env : Env} {vdevId : U32} {c₀ : Ctx} {s : Config}

theorem Tracks.enter (vjob : VirtJob) (c : Ctx) : Tracks c (enter vjob c) where
  sameSetup := .refl _
  fetched h := by rcases h with h | h <;> cases h
  visits h := by rcases h with h | h <;> cases h
  ahead _ _ _ := fun _ _ h => h

theorem Held.enter (vjob : VirtJob) (c : Ctx) : Held c (enter vjob c) where
  avail := Set.eqOn_refl _ _
  entry _ _ := rfl

/-- The head that a fetch takes, seen from the call. -/
theorem Held.fetch {vjob : VirtJob} {c : Ctx} {pc : Pc} (h : Held c₀ ⟨pc, vjob, c⟩)
    (hsetup : c.vq.SameSetup c₀.vq) :
    virtQueueFetchAvailFirst c.mem c.vq =
      match headAt c₀.mem c₀.vq c.vq.availIdx with
      | none => (-1, c.vq)
      | some head => ((head.toNat : ℤ), { c.vq with availIdx := c₀.vq.after c.vq.availIdx }) := by
  have hhead : headAt c.mem c.vq c.vq.availIdx = headAt c₀.mem c₀.vq c.vq.availIdx := by
    rw [hsetup.headAt, headAt_congr h.avail]
  have hfetch := virtQueueFetchAvailFirst_headAt c.mem c.vq
  rw [hhead, hsetup.after] at hfetch
  refine hfetch.trans ?_
  rcases headAt c₀.mem c₀.vq c.vq.availIdx with _ | head <;> rfl

/-- The link followed from an entry visited, seen from the call. -/
theorem Held.nextDesc (h : Held c₀ s) (hsetup : s.ctx.vq.SameSetup c₀.vq) {head i : U16}
    (hi : Visits c₀.mem c₀.vq c₀.vq.availIdx head i) :
    nextDesc s.ctx.mem s.ctx.vq.qDesc i = linkAt c₀.mem c₀.vq.qDesc i := by
  rw [nextDesc_eq_link, hsetup.qDesc, linkAt, h.entry i ⟨head, hi⟩, linkAt]

/-! ### One step -/

/-- A head that is fetched is visited, if the ring is as it was. -/
theorem Tracks.fetchNew {vjob : VirtJob} {c : Ctx} (h : Tracks c₀ ⟨.fetchNew, vjob, c⟩)
    (hheld : Held c₀ ⟨.fetchNew, vjob, c⟩) :
    Tracks c₀ (dev.prQueue env vdevId ⟨.fetchNew, vjob, c⟩) := by
  have hfetch := hheld.fetch h.sameSetup
  have hahead : Ahead c₀ ⟨.fetchNew, vjob, c⟩ :=
    h.ahead (fun hinner => by rcases hinner with hpc | hpc <;> cases hpc) (by simp) (by simp)
  rcases hhead : headAt c₀.mem c₀.vq c.vq.availIdx with _ | head
  · rw [hhead] at hfetch
    rw [prQueue_fetchNew_of_none _ _ _ _ _ hfetch]
    refine ⟨h.sameSetup, ?_, ?_, fun _ hpc => absurd rfl hpc⟩
    · rintro (hpc | hpc) <;> cases hpc
    · rintro (hpc | hpc) <;> cases hpc
  · rw [hhead] at hfetch
    rw [prQueue_fetchNew_of_head _ _ _ _ _ hfetch]
    refine ⟨VirtQueue.SameSetup.trans ⟨_, _, _, rfl⟩ h.sameSetup, ?_, ?_, ?_⟩
    · exact fun _ => fetched_append head c.log
    · exact fun _ => hahead head head (.here hhead .refl)
    · intro hends _ _ head' i hi
      exact hahead head' i (.later hhead (hends (Or.inl rfl)) hi)

/-- The device keeps the loop on the entry it is on. -/
theorem Tracks.body {vjob : VirtJob} {c : Ctx} (h : Tracks c₀ ⟨.body, vjob, c⟩) :
    Tracks c₀ (dev.prQueue env vdevId ⟨.body, vjob, c⟩) := by
  obtain ⟨es, hspec⟩ := descStep_spec dev env vjob c
  have hsetup : (descStep dev.body env vjob c).2.vq.SameSetup c.vq := hspec.sameSetup
  have hlog : (descStep dev.body env vjob c).2.log = c.log ++ (getEvents vjob c ++ es) := by
    rw [hspec.log, bodyCtx, List.append_assoc]
  rw [prQueue_body]
  refine ⟨hsetup.trans h.sameSetup, ?_, ?_, ?_⟩
  · intro _
    change Fetched (descStep dev.body env vjob c).1.firstDesc (descStep dev.body env vjob c).2.log
    rw [descStep_firstDesc, hlog]
    refine (h.fetched (Or.inl rfl)).append fun e he => ?_
    rcases List.mem_append.mp he with he | he
    · exact getEvents_not_isFetch vjob c e he
    · exact hspec.not_isFetch e he
  · intro _
    change Visits _ _ _ (descStep dev.body env vjob c).1.firstDesc
      (descStep dev.body env vjob c).1.currentDesc
    rw [descStep_firstDesc, descStep_currentDesc]
    exact h.visits (Or.inl rfl)
  · intro hends _ _ head i hi
    change Visits _ _ (descStep dev.body env vjob c).2.vq.availIdx head i at hi
    rw [descStep_availIdx] at hi
    refine h.ahead (fun _ => ?_) (by simp) (by simp) head i hi
    have hcur := hends (Or.inr rfl)
    change Ends _ (descStep dev.body env vjob c).1.currentDesc at hcur
    rwa [descStep_currentDesc] at hcur

/-- A link that is followed leads to an entry that is visited, if this one is as it was. -/
theorem Tracks.fetchNext {vjob : VirtJob} {c : Ctx} (h : Tracks c₀ ⟨.fetchNext, vjob, c⟩)
    (hheld : Held c₀ ⟨.fetchNext, vjob, c⟩) :
    Tracks c₀ (dev.prQueue env vdevId ⟨.fetchNext, vjob, c⟩) := by
  have hvisits := h.visits (Or.inr rfl)
  have hnext := hheld.nextDesc h.sameSetup hvisits
  rcases hlink : linkAt c₀.mem c₀.vq.qDesc vjob.currentDesc with _ | i
  · rw [prQueue_fetchNext_of_none _ _ _ _ _ (hnext.trans hlink)]
    refine ⟨h.sameSetup, ?_, ?_, ?_⟩
    · rintro (hpc | hpc) <;> cases hpc
    · rintro (hpc | hpc) <;> cases hpc
    · exact fun _ _ _ => h.ahead (fun _ => ends_of_next_eq_none hlink) (by simp) (by simp)
  · rw [prQueue_fetchNext_of_some _ _ _ _ _ (hnext.trans hlink)]
    refine ⟨h.sameSetup, ?_, fun _ => hvisits.next hlink, ?_⟩
    · exact fun _ => (h.fetched (Or.inr rfl)).append fun e he => by
        rw [List.mem_singleton.mp he]
        exact id
    · intro hends _ _
      exact h.ahead (fun _ => (ends_iff_of_next_eq_some hlink).mpr (hends (Or.inl rfl)))
        (by simp) (by simp)

/-- **One step** over fixed memory keeps track. -/
theorem Tracks.step (h : Tracks c₀ s) (hheld : Held c₀ s) :
    Tracks c₀ (dev.prQueue env vdevId s) := by
  obtain ⟨pc, vjob, c⟩ := s
  cases pc with
  | fetchNew => exact h.fetchNew hheld
  | body => exact h.body
  | fetchNext => exact h.fetchNext hheld
  | push =>
    rw [prQueue_push]
    refine ⟨VirtQueue.SameSetup.trans ⟨_, _, _, rfl⟩ h.sameSetup, ?_, ?_, ?_⟩
    · rintro (hpc | hpc) <;> cases hpc
    · rintro (hpc | hpc) <;> cases hpc
    · intro _ _ _
      exact h.ahead (fun hinner => by rcases hinner with hpc | hpc <;> cases hpc) (by simp)
        (by simp)
  | notify =>
    rw [prQueue_notify]
    refine ⟨h.sameSetup, ?_, ?_, fun _ _ hpc => absurd rfl hpc⟩
    · rintro (hpc | hpc) <;> cases hpc
    · rintro (hpc | hpc) <;> cases hpc
  | done =>
    rw [prQueue_done]
    exact h

/-- Every state of a run over fixed memory is tracked. -/
theorem Tracks.iterate (h : Tracks c₀ s)
    (hheld : ∀ n, Held c₀ ((dev.prQueue env vdevId)^[n] s)) (n : ℕ) :
    Tracks c₀ ((dev.prQueue env vdevId)^[n] s) := by
  induction n with
  | zero => exact h
  | succ n ih =>
    rw [Function.iterate_succ_apply']
    exact ih.step (hheld n)

end Run

/-! ### Every entry visited is come by -/

section Reach

variable (dev : Vdev) (env : Env) (vdevId : U32)

/-- A run that keeps track over memory held fixed from state `s` on. -/
structure HeldRun (c₀ : Ctx) (s : Config) : Prop where
  tracks : Tracks c₀ s
  held : ∀ n, Held c₀ ((dev.prQueue env vdevId)^[n] s)

variable {dev env vdevId} {c₀ : Ctx} {s : Config}

theorem HeldRun.now (h : HeldRun dev env vdevId c₀ s) : Held c₀ s := h.held 0

theorem HeldRun.iterate (h : HeldRun dev env vdevId c₀ s) (k : ℕ) :
    HeldRun dev env vdevId c₀ ((dev.prQueue env vdevId)^[k] s) where
  tracks := h.tracks.iterate h.held k
  held n := by
    rw [← Function.iterate_add_apply]
    exact h.held (n + k)

theorem HeldRun.step (h : HeldRun dev env vdevId c₀ s) :
    HeldRun dev env vdevId c₀ (dev.prQueue env vdevId s) := h.iterate 1

end Reach

/-! ### Memory that stays fixed -/

/-- What a driver has to see to: the entries visited are in the table, and the used ring and the
buffers they describe are apart from what the loops read. -/
structure Guarded (m : Mem) (vq : VirtQueue) : Prop where
  inTable : ∀ i, Visited m vq i → i.toNat < vq.size
  usedAvail : Disjoint vq.usedSpan vq.availSpan
  usedEntry : ∀ i, Visited m vq i → Disjoint vq.usedSpan (entrySpan vq.qDesc i)
  bufferAvail : ∀ i, Visited m vq i →
    Disjoint (tableEntry m vq.qDesc i).desc.bufferSpan vq.availSpan
  bufferEntry : ∀ i j, Visited m vq i → Visited m vq j →
    Disjoint (tableEntry m vq.qDesc i).desc.bufferSpan (entrySpan vq.qDesc j)

section Guarded

variable {dev : Vdev} {env : Env} {vdevId : U32} {c₀ : Ctx} {s : Config}

/-- Changes of memory outside what the loops read keep it as it was. -/
private theorem Held.of_eqOn {t : Config} {x : Set U32} (h : Held c₀ s)
    (hmem : Set.EqOn t.ctx.mem s.ctx.mem xᶜ) (havail : Disjoint x c₀.vq.availSpan)
    (hentry : ∀ i, Visited c₀.mem c₀.vq i → Disjoint x (entrySpan c₀.vq.qDesc i)) :
    Held c₀ t where
  avail := (hmem.mono (Set.subset_compl_iff_disjoint_left.mpr havail)).trans h.avail
  entry i hi := by
    rw [← h.entry i hi]
    exact tableEntry_congr (hmem.mono (Set.subset_compl_iff_disjoint_left.mpr (hentry i hi)))

/-- An entry in the table is what the inner loop works on. -/
theorem Tracks.jobDesc {vjob : VirtJob} {c : Ctx} (h : Tracks c₀ ⟨.body, vjob, c⟩)
    (hheld : Held c₀ ⟨.body, vjob, c⟩) (hin : vjob.currentDesc ≤ c.vq.sizeMask) :
    jobDesc env vjob c = (tableEntry c₀.mem c₀.vq.qDesc vjob.currentDesc).desc := by
  have hentry := hheld.entry _ ⟨_, h.visits (Or.inl rfl)⟩
  rw [Arm9LinuxFw.jobDesc, if_pos hin, vqDescAt_toVirtDesc, h.sameSetup.qDesc]
  exact congrArg TableEntry.desc hentry

/-- **A step** leaves the ring and the visited entries as they were, if what it stores to is apart.
-/
theorem Held.step (hheld : Held c₀ s) (h : Tracks c₀ s) (hg : Guarded c₀.mem c₀.vq) :
    Held c₀ (dev.prQueue env vdevId s) := by
  obtain ⟨pc, vjob, c⟩ := s
  have hsame {t : Config} (hmem : t.ctx.mem = c.mem) : Held c₀ t := by
    refine ⟨?_, ?_⟩
    · rw [hmem]
      exact hheld.avail
    · rw [hmem]
      exact hheld.entry
  cases pc with
  | body =>
    have hvisited : Visited c₀.mem c₀.vq vjob.currentDesc := ⟨_, h.visits (Or.inl rfl)⟩
    have hin : vjob.currentDesc ≤ c.vq.sizeMask := by
      have hlt := hg.inTable _ hvisited
      rw [VirtQueue.size] at hlt
      rw [h.sameSetup.sizeMask, BitVec.le_def]
      omega
    obtain ⟨es, hspec⟩ := descStep_spec dev env vjob c
    rw [h.jobDesc hheld hin] at hspec
    rw [prQueue_body]
    refine hheld.of_eqOn (hspec.mem.mono (Set.compl_subset_compl.mpr
      (storedAt_subset_bufferSpan hspec.through))) (hg.bufferAvail _ hvisited) ?_
    exact fun i hi => hg.bufferEntry _ _ hvisited hi
  | push =>
    rw [prQueue_push]
    have hmem : Set.EqOn (virtQueuePushJob c vjob).mem c.mem c₀.vq.usedSpanᶜ := by
      rw [← h.sameSetup.usedSpan]
      exact virtQueuePushUsed_eqOn _ _ _ _
    exact hheld.of_eqOn hmem hg.usedAvail hg.usedEntry
  | fetchNew =>
    refine hsame ?_
    rw [dev.prQueue_eq]
    rfl
  | fetchNext =>
    refine hsame ?_
    rw [dev.prQueue_eq]
    simp only [processQueue, virtQueueFetchJobNext, virtQueueFetchAvailNext_eq]
    rfl
  | notify =>
    refine hsame ?_
    rw [dev.prQueue_eq]
    rfl
  | done =>
    refine hsame ?_
    rw [dev.prQueue_eq]
    rfl

/-- **A guarded run** leaves what it reads as it was. -/
theorem Guarded.run {c : Ctx} (hg : Guarded c.mem c.vq) (vjob : VirtJob) :
    HeldRun dev env vdevId c (Arm9LinuxFw.enter vjob c) := by
  have hboth (n : ℕ) : Tracks c ((dev.prQueue env vdevId)^[n] (Arm9LinuxFw.enter vjob c)) ∧
      Held c ((dev.prQueue env vdevId)^[n] (Arm9LinuxFw.enter vjob c)) := by
    induction n with
    | zero => exact ⟨.enter vjob c, .enter vjob c⟩
    | succ n ih =>
      rw [Function.iterate_succ_apply']
      exact ⟨ih.1.step ih.2, ih.2.step ih.1 hg⟩
  exact ⟨.enter vjob c, fun n => (hboth n).2⟩

end Guarded

/-! ### Drivers that keep rings and buffers apart -/

section Separated

variable {m : Mem} {vq : VirtQueue}

/-- The queue, with the firmware at position `a`. -/
private def VirtQueue.at (vq : VirtQueue) (a : U16) : VirtQueue := { vq with availIdx := a }

/-- The head at a position is the first of those pending from there on. -/
private theorem pendingHeads_of_headAt (hp : vq.SizePow2) {head : U16}
    (h : headAt m vq vq.availIdx = some head) :
    ∃ rest, pendingHeads m vq = head :: rest ∧
      pendingHeads m (vq.at (vq.after vq.availIdx)) = rest := by
  have hfetch := virtQueueFetchAvailFirst_headAt m vq
  rw [h] at hfetch
  rcases hheads : pendingHeads m vq with _ | ⟨first, rest⟩
  · rw [virtQueueFetchAvailFirst_of_nil hp hheads] at hfetch
    have hneg : (-1 : ℤ) = head.toNat := congrArg Prod.fst hfetch
    omega
  · obtain ⟨hfirst, hrest⟩ := virtQueueFetchAvailFirst_of_cons hp hheads
    rw [hfirst] at hfetch
    have hint : (first.toNat : ℤ) = head.toNat := congrArg Prod.fst hfetch
    obtain rfl : first = head := BitVec.eq_of_toNat_eq (by exact_mod_cast hint)
    exact ⟨rest, rfl, hrest⟩

/-- Entries are met in chains of pending heads. -/
private theorem Visits.pending (hp : vq.SizePow2) {a head i : U16} (h : Visits m vq a head i) :
    head ∈ pendingHeads m (vq.at a) := by
  induction h with
  | @here a head i hhead _ =>
    have hpow : (vq.at a).SizePow2 := hp
    have hat : headAt m (vq.at a) (vq.at a).availIdx = some head := hhead
    obtain ⟨rest, hheads, -⟩ := pendingHeads_of_headAt hpow hat
    rw [hheads]
    exact List.mem_cons_self ..
  | @later a first head i hfirst _ _ ih =>
    have hpow : (vq.at a).SizePow2 := hp
    have hat : headAt m (vq.at a) (vq.at a).availIdx = some first := hfirst
    obtain ⟨rest, hheads, hrest⟩ := pendingHeads_of_headAt hpow hat
    rw [hheads]
    exact List.mem_cons_of_mem _ (hrest ▸ ih)

/-- An entry that is visited is one the links lead to from a pending head. -/
theorem Visited.inUse (hp : vq.SizePow2) {i : U16} (h : Visited m vq i) : InUse m vq i := by
  obtain ⟨head, hi⟩ := h
  refine ⟨head, hi.pending hp, ?_⟩
  have hlinks : nextDesc m vq.qDesc = linkAt m vq.qDesc := funext (nextDesc_eq_link m vq.qDesc)
  rw [hlinks]
  exact hi.leads

end Separated

end Arm9LinuxFw
