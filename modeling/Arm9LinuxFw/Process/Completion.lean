import Arm9LinuxFw.Process.Termination

/-!
# Every fetched request is completed

For a driver that keeps rings and buffers apart, one call of a `prQueue` returns, having
fetched every pending head and pushed exactly one used entry for each, in the order of the
fetches and labelled with the head.

* `fetchedHeads` and `pushedEntries` read the record of events: the heads that calls of
  `virtQueueFetchAvailFirst` returned, and the used entries that were pushed.
* `Progress` relates the record to the rings at every step of the run: the heads fetched so far and
  those still pending make up the heads pending at the call; the entries pushed, and the
  request in flight if there is one, carry the heads fetched; and the used ring holds the entries
  pushed, at the places after the ones it held before. It contains the frame of `Frame`, which has
  the rings stay what they are.
* There is one lemma for each place in the loops where the account moves, a head that is fetched,
  none found, a push, and one for a round of the inner loop, in which it does not
  (`Progress.fetch_head`, `Progress.fetch_none`, `Progress.push`, `Progress.body`).
* `Completed` is what the account says of a call that has returned, and `prQueue_completes` the
  result. That a call returns at all is `Termination`.
* `Declined` is a queue that is not ready: nothing is fetched, pushed or stored, whatever the driver
  has in memory, and the host is told all the same.
-/

namespace Arm9LinuxFw

open ByteMem LinkGraph Transition RingBuffer

/-! ### Reading the record of events -/

/-- The heads that calls of `virtQueueFetchAvailFirst` returned. -/
def fetchedHeads (es : List Event) : List U16 :=
  es.filterMap fun
    | .fetched ret => if 0 ≤ ret then some (BitVec.ofInt 16 ret) else none
    | _ => none

/-- The arguments of the calls of `virtQueuePushUsed`. -/
def pushedEntries (es : List Event) : List (U16 × U32) :=
  es.filterMap fun
    | .pushed first len => some (first, len)
    | _ => none

@[simp]
theorem fetchedHeads_append (es es' : List Event) :
    fetchedHeads (es ++ es') = fetchedHeads es ++ fetchedHeads es' := List.filterMap_append

@[simp]
theorem pushedEntries_append (es es' : List Event) :
    pushedEntries (es ++ es') = pushedEntries es ++ pushedEntries es' := List.filterMap_append

@[simp]
theorem fetchedHeads_head (head : U16) : fetchedHeads [.fetched (head.toNat : ℤ)] = [head] := by
  simp [fetchedHeads]

/-- Accesses to the table and to buffers are neither fetches nor pushes. -/
private theorem fetched_pushed_of_access {es : List Event}
    (h : ∀ e ∈ es, (∃ i, e = .desc i) ∨ ∃ desc r w, e.Through desc r w) :
    fetchedHeads es = [] ∧ pushedEntries es = [] := by
  constructor
  · rw [fetchedHeads, List.filterMap_eq_nil_iff]
    intro e he
    cases e
    case fetched ret =>
      rcases h _ he with ⟨i, hi⟩ | ⟨_, _, _, hthrough⟩
      · cases hi
      · exact hthrough.elim
    all_goals rfl
  · rw [pushedEntries, List.filterMap_eq_nil_iff]
    intro e he
    cases e
    case pushed first len =>
      rcases h _ he with ⟨i, hi⟩ | ⟨_, _, _, hthrough⟩
      · cases hi
      · exact hthrough.elim
    all_goals rfl

/-- The request that is fetched and not yet pushed. -/
def inFlight (s : Config) : List U16 :=
  match s.pc with
  | .body | .fetchNext | .push => [s.vjob.firstDesc]
  | .fetchNew | .notify | .done => []

/-! ### The invariant -/

/-- The state `s` of a run from `c₀`, `es` being the events recorded since the call. -/
structure Progress (c₀ : Ctx) (s : Config) (es : List Event) : Prop extends Frame c₀ s where
  log : s.ctx.log = c₀.log ++ es
  fetched : fetchedHeads es ++ pendingHeads c₀.mem s.ctx.vq = pendingHeads c₀.mem c₀.vq
  pushed : (pushedEntries es).map Prod.fst ++ inFlight s = fetchedHeads es
  drained : s.pc = .notify ∨ s.pc = .done → pendingHeads c₀.mem s.ctx.vq = []
  usedIdx : s.ctx.vq.usedIdx.toNat % c₀.vq.size =
    (c₀.vq.usedIdx.toNat + (pushedEntries es).length) % c₀.vq.size
  usedLast : vqUsedLast s.ctx.mem c₀.vq.qUsed =
    vqUsedLast c₀.mem c₀.vq.qUsed + BitVec.ofNat 16 (pushedEntries es).length
  usedRing : Window
    (fun k => vqUsedRing s.ctx.mem c₀.vq.qUsed ((c₀.vq.usedIdx.toNat + k) % c₀.vq.size))
    c₀.vq.size ((pushedEntries es).map fun p => (p.1.setWidth 32, p.2)) []

variable {dev : Vdev} {env : Env} {vdevId : U32} {c₀ : Ctx} {s : Config} {es : List Event}

/-- Nothing is done yet. -/
theorem Progress.enter (vjob : VirtJob) (c : Ctx) : Progress c (enter vjob c) [] where
  toFrame := .enter vjob c
  log := (List.append_nil _).symm
  fetched := rfl
  pushed := rfl
  drained h := by rcases h with h | h <;> cases h
  usedIdx := rfl
  usedLast := by simp [Arm9LinuxFw.enter, pushedEntries]
  usedRing := .init _ _

/-- Fewer entries are pushed than the ring has slots. -/
private theorem Progress.length_lt (h : Progress c₀ s es) :
    (pushedEntries es).length < c₀.vq.size := by
  -- one for each head fetched, and these were all pending at the call
  refine lt_of_le_of_lt ?_ (length_pendingHeads_lt c₀.mem c₀.vq)
  rw [← h.fetched, ← h.pushed]
  simp only [List.length_append, List.length_map]
  omega

/-- A step that records accesses only, and keeps the rings, keeps the account. -/
theorem Progress.access (h : Progress c₀ s es) {t : Config} (hframe : Frame c₀ t)
    {es' : List Event} (hlog : t.ctx.log = s.ctx.log ++ es')
    (hes : fetchedHeads es' = [] ∧ pushedEntries es' = [])
    (havail : t.ctx.vq.availIdx = s.ctx.vq.availIdx)
    (husedIdx : t.ctx.vq.usedIdx = s.ctx.vq.usedIdx)
    (hmem : Set.EqOn t.ctx.mem s.ctx.mem c₀.vq.usedSpan) (hflight : inFlight t = inFlight s)
    (hpc : t.pc = .notify ∨ t.pc = .done → s.pc = .notify ∨ s.pc = .done) :
    Progress c₀ t (es ++ es') := by
  have hheads : pendingHeads c₀.mem t.ctx.vq = pendingHeads c₀.mem s.ctx.vq :=
    (hframe.sameSetup.trans h.sameSetup.symm).pendingHeads havail _
  have hpushed : pushedEntries (es ++ es') = pushedEntries es := by
    rw [pushedEntries_append, hes.2, List.append_nil]
  have hfetched : fetchedHeads (es ++ es') = fetchedHeads es := by
    rw [fetchedHeads_append, hes.1, List.append_nil]
  refine ⟨hframe, ?_, ?_, ?_, ?_, ?_, ?_, ?_⟩
  · rw [hlog, h.log, List.append_assoc]
  · rw [hfetched, hheads, h.fetched]
  · rw [hpushed, hfetched, hflight, h.pushed]
  · intro ht
    rw [hheads, h.drained (hpc ht)]
  · rw [hpushed, husedIdx, h.usedIdx]
  · rw [hpushed, vqUsedLast_congr hmem, h.usedLast]
  · rw [hpushed]
    simp only [vqUsedRing_congr hmem (Nat.mod_lt _ c₀.vq.size_pos)]
    exact h.usedRing

/-! ### Its preservation, one kind of step at a time -/

/-- A head that is fetched is the first of those pending, and its job begins. -/
private theorem Progress.fetch_head {vjob : VirtJob} {c : Ctx}
    (h : Progress c₀ ⟨.fetchNew, vjob, c⟩ es)
    {head : U16} {rest : List U16} {t : Config} (hframe : Frame c₀ t)
    (ht : t = ⟨.body, .start head,
      { c with log := c.log ++ [.fetched head.toNat], vq := c.vq.advance }⟩)
    (hheads : pendingHeads c₀.mem c.vq = head :: rest)
    (hrest : pendingHeads c₀.mem c.vq.advance = rest) :
    Progress c₀ t (es ++ [.fetched head.toNat]) := by
  subst ht
  have hpushed : pushedEntries (es ++ [.fetched head.toNat]) = pushedEntries es := by
    simp [pushedEntries]
  have hfetched : fetchedHeads (es ++ [.fetched head.toNat]) = fetchedHeads es ++ [head] := by
    rw [fetchedHeads_append, fetchedHeads_head]
  have hold : (pushedEntries es).map Prod.fst = fetchedHeads es := by
    have := h.pushed
    rwa [show inFlight ⟨.fetchNew, vjob, c⟩ = [] from rfl, List.append_nil] at this
  refine ⟨hframe, ?_, ?_, ?_, fun hpc => (by simp at hpc), ?_, ?_, ?_⟩
  · rw [← List.append_assoc, ← h.log]
  · rw [hfetched, List.append_assoc, ← h.fetched]
    change fetchedHeads es ++ ([head] ++ pendingHeads c₀.mem c.vq.advance) = _
    rw [hrest, hheads, List.singleton_append]
  · rw [hpushed, hfetched, hold]
    rfl
  · rw [hpushed]
    exact h.usedIdx
  · rw [hpushed]
    exact h.usedLast
  · rw [hpushed]
    exact h.usedRing

/-- When none is found, as many were pushed as were pending. -/
private theorem Progress.fetch_none {vjob vjob' : VirtJob} {c : Ctx}
    (h : Progress c₀ ⟨.fetchNew, vjob, c⟩ es) {t : Config} (hframe : Frame c₀ t)
    (ht : t = ⟨.notify, vjob', { c with log := c.log ++ [.fetched (-1)], vq := c.vq }⟩)
    (hheads : pendingHeads c₀.mem c.vq = []) : Progress c₀ t (es ++ [.fetched (-1)]) := by
  subst ht
  have hpushed : pushedEntries (es ++ [.fetched (-1)]) = pushedEntries es := by
    simp [pushedEntries]
  have hfetched : fetchedHeads (es ++ [.fetched (-1)]) = fetchedHeads es := by
    simp [fetchedHeads]
  refine ⟨hframe, ?_, ?_, ?_, fun _ => hheads, ?_, ?_, ?_⟩
  · rw [← List.append_assoc, ← h.log]
  · rw [hfetched]
    exact h.fetched
  · rw [hpushed, hfetched]
    exact h.pushed
  · rw [hpushed]
    exact h.usedIdx
  · rw [hpushed]
    exact h.usedLast
  · rw [hpushed]
    exact h.usedRing

/-- Slots counted from a base position are told apart like slots counted from zero. -/
private theorem add_mod_ne_add_mod {N u a b : ℕ} (h : a % N ≠ b % N) : (u + a) % N ≠ (u + b) % N :=
  fun heq => h (Nat.ModEq.add_left_cancel' u heq)

/-- **A push** completes the job of the head fetched last. -/
theorem Progress.push {vjob : VirtJob} {c : Ctx} (h : Progress c₀ ⟨.push, vjob, c⟩ es)
    (hsep : Separated c₀.mem c₀.vq) :
    Progress c₀ ⟨.fetchNew, vjob, virtQueuePushJob c vjob⟩
      (es ++ [.pushed vjob.firstDesc vjob.totalWritten]) := by
  have hp : c.vq.SizePow2 := h.sameSetup.sizePow2 hsep.sizePow2
  have hsize : c.vq.size = c₀.vq.size := h.sameSetup.size
  have hq : c.vq.qUsed = c₀.vq.qUsed := h.sameSetup.qUsed
  have husedIdx : c.vq.usedIdx.toNat % c₀.vq.size =
    (c₀.vq.usedIdx.toNat + (pushedEntries es).length) % c₀.vq.size := h.usedIdx
  have hpushed : pushedEntries (es ++ [.pushed vjob.firstDesc vjob.totalWritten]) =
      pushedEntries es ++ [(vjob.firstDesc, vjob.totalWritten)] := pushedEntries_append _ _
  have hfetched : fetchedHeads (es ++ [.pushed vjob.firstDesc vjob.totalWritten]) =
      fetchedHeads es := by
    simp [fetchedHeads]
  -- the push writes one slot of the ring, the next one in the history
  have hring {i : ℕ} (hi : i < c₀.vq.size) := virtQueuePushUsed_ring c.mem c.vq vjob.firstDesc
    vjob.totalWritten hp (hsize ▸ hi)
  simp only [hq, hsize] at hring
  refine ⟨h.toFrame.push hsep, ?_, ?_, ?_, fun hpc => (by simp at hpc),
    ?_, ?_, ?_⟩
  · rw [← List.append_assoc, ← h.log]
    rfl
  · rw [hfetched]
    exact h.fetched
  · rw [hpushed, hfetched, ← h.pushed, List.map_append]
    exact List.append_nil _
  · rw [hpushed, List.length_append, List.length_singleton, ← Nat.add_assoc, Nat.add_mod,
      ← husedIdx, ← Nat.add_mod, ← hsize]
    exact hp.succ_mod c.vq.usedIdx
  · rw [hpushed, List.length_append, List.length_singleton, BitVec.ofNat_add, ← BitVec.add_assoc,
      ← h.usedLast, ← hq]
    exact virtQueuePushUsed_last c.mem c.vq vjob.firstDesc vjob.totalWritten
  · rw [hpushed, List.map_append]
    refine h.usedRing.put ?_ ?_ ?_
    · rw [List.length_map]
      simpa using h.length_lt
    · change vqUsedRing (virtQueuePushUsed c.mem c.vq vjob.firstDesc vjob.totalWritten).1 _ _ = _
      rw [hring (Nat.mod_lt _ c₀.vq.size_pos), List.length_map, Nat.add_mod_mod, husedIdx,
        if_pos rfl]
    · intro k hk
      change vqUsedRing (virtQueuePushUsed c.mem c.vq vjob.firstDesc vjob.totalWritten).1 _ _ = _
      rw [List.length_map] at hk
      rw [hring (Nat.mod_lt _ c₀.vq.size_pos), husedIdx, Nat.add_mod_mod,
        if_neg (add_mod_ne_add_mod hk)]

/-- A round of the inner loop fetches no head and pushes nothing. -/
theorem Progress.body {vjob : VirtJob} {c : Ctx} (h : Progress c₀ ⟨.body, vjob, c⟩ es)
    (hsep : Separated c₀.mem c₀.vq) : ∃ es',
    Progress c₀ ⟨.fetchNext, (descStep dev.body env vjob c).1, (descStep dev.body env vjob c).2⟩
      (es ++ es') := by
  have huse : InUse c₀.mem c₀.vq vjob.currentDesc := h.inUse (Or.inl rfl)
  have hmem : Set.EqOn (descStep dev.body env vjob c).2.mem c.mem
      (descOf c₀.mem c₀.vq vjob.currentDesc).bufferSpanᶜ := h.toFrame.descStep_eqOn hsep
  obtain ⟨es', hspec⟩ := descStep_spec dev env vjob c
  refine ⟨getEvents vjob c ++ es', h.access (h.toFrame.body hsep) ?_ ?_
    (descStep_availIdx dev env vjob c) ?_ ?_ ?_ fun hpc => (by simp at hpc)⟩
  · rw [hspec.log, bodyCtx, List.append_assoc]
  · refine fetched_pushed_of_access ?_
    intro e he
    rcases List.mem_append.mp he with he | he
    · rw [getEvents] at he
      split_ifs at he
      · exact Or.inl ⟨_, List.mem_singleton.mp he⟩
      · simp at he
    · exact Or.inr ⟨_, _, _, hspec.through e he⟩
  · change (descStep dev.body env vjob c).2.vq.usedIdx = c.vq.usedIdx
    rw [hspec.vq]
    rfl
  · exact hmem.mono (Set.subset_compl_iff_disjoint_left.mpr (hsep.bufferUsed _ huse))
  · change [(descStep dev.body env vjob c).1.firstDesc] = [vjob.firstDesc]
    rw [descStep_firstDesc]

/-- **One step** keeps the account. -/
theorem Progress.step (h : Progress c₀ s es) (hsep : Separated c₀.mem c₀.vq) :
    ∃ es', Progress c₀ (dev.prQueue env vdevId s) es' := by
  have hintact := h.toFrame.intact hsep
  have hframe : Frame c₀ (dev.prQueue env vdevId s) := h.toFrame.step hsep
  obtain ⟨pc, vjob, c⟩ := s
  cases pc with
  | fetchNew =>
    rcases hheads : pendingHeads c₀.mem c.vq with _ | ⟨head, rest⟩
    · have hstep := prQueue_fetchNew_of_none dev env vdevId vjob c
        (hintact.fetch_of_nil hsep.sizePow2 hheads)
      exact ⟨_, h.fetch_none hframe hstep hheads⟩
    · obtain ⟨hfetch, hrest⟩ := hintact.fetch_of_cons hsep.sizePow2 hheads
      have hstep := prQueue_fetchNew_of_head dev env vdevId vjob c hfetch
      exact ⟨_, h.fetch_head hframe hstep hheads hrest⟩
  | body =>
    rw [prQueue_body]
    obtain ⟨es', hbody⟩ : ∃ es', Progress c₀
        ⟨.fetchNext, (descStep dev.body env vjob c).1, (descStep dev.body env vjob c).2⟩
        (es ++ es') := h.body hsep
    exact ⟨_, hbody⟩
  | fetchNext =>
    have hnext := hintact.nextDesc_eq (h.inUse (Or.inr rfl))
    have hdesc : fetchedHeads [.desc vjob.currentDesc] = [] ∧
      pushedEntries [.desc vjob.currentDesc] = [] := ⟨rfl, rfl⟩
    rcases hlink : nextDesc c₀.mem c₀.vq.qDesc vjob.currentDesc with _ | i
    · rw [prQueue_fetchNext_of_none _ _ _ _ _ (hnext.trans hlink)] at hframe ⊢
      exact ⟨_, h.access hframe rfl hdesc rfl rfl (Set.eqOn_refl _ _) rfl
        fun hpc => (by simp at hpc)⟩
    · rw [prQueue_fetchNext_of_some _ _ _ _ _ (hnext.trans hlink)] at hframe ⊢
      exact ⟨_, h.access hframe rfl hdesc rfl rfl (Set.eqOn_refl _ _) rfl
        fun hpc => (by simp at hpc)⟩
  | push =>
    rw [prQueue_push]
    exact ⟨_, h.push hsep⟩
  | notify =>
    rw [prQueue_notify] at hframe ⊢
    exact ⟨es ++ [], h.access hframe (List.append_nil _).symm ⟨rfl, rfl⟩ rfl rfl
      (Set.eqOn_refl _ _) rfl fun _ => Or.inl rfl⟩
  | done =>
    rw [prQueue_done]
    exact ⟨es, h⟩

/-- The account is kept over a run. -/
theorem Progress.iterate (h : Progress c₀ s es) (hsep : Separated c₀.mem c₀.vq) (n : ℕ) :
    ∃ es', Progress c₀ ((dev.prQueue env vdevId)^[n] s) es' := by
  induction n with
  | zero => exact ⟨es, h⟩
  | succ n ih =>
    obtain ⟨es', h'⟩ := ih
    rw [Function.iterate_succ_apply']
    exact h'.step hsep

/-! ### The call as a whole -/

/-- What a call on `c` that returned in `t`, having recorded `es`, has done. -/
structure Completed (c : Ctx) (t : Config) (es : List Event) : Prop where
  returned : t.pc = .done
  log : t.ctx.log = c.log ++ es
  /-- every pending head was fetched, in order -/
  fetched : fetchedHeads es = pendingHeads c.mem c.vq
  /-- one entry was pushed for each head fetched, in order and with the head for its id -/
  pushed : (pushedEntries es).map Prod.fst = fetchedHeads es
  /-- the driver is told of exactly these -/
  usedLast : vqUsedLast t.ctx.mem c.vq.qUsed =
    vqUsedLast c.mem c.vq.qUsed + BitVec.ofNat 16 (fetchedHeads es).length
  /-- and finds them in the ring -/
  usedRing : ∀ k (hk : k < (pushedEntries es).length),
    vqUsedRing t.ctx.mem c.vq.qUsed ((c.vq.usedIdx.toNat + k) % c.vq.size) =
      ((pushedEntries es)[k].1.setWidth 32, (pushedEntries es)[k].2)
  /-- nothing is left to fetch -/
  drained : (virtQueueFetchAvailFirst t.ctx.mem t.ctx.vq).1 = -1

/-- A call on `c` that returned in `t` has looked for a head once, in vain, and left the queue and
memory as they were. -/
structure Declined (c : Ctx) (t : Config) : Prop where
  returned : t.pc = .done
  log : t.ctx.log = c.log ++ [.fetched (-1)]
  vq : t.ctx.vq = c.vq
  mem : t.ctx.mem = c.mem

/-- A call on a queue that is not ready fetches once, in vain, and notifies. -/
private theorem iterate_of_not_ready (vjob : VirtJob) (hr : c₀.vq.ready = 0) :
    (dev.prQueue env vdevId)^[2] (enter vjob c₀) =
      ⟨.done, ⟨BitVec.ofInt 16 (-1), BitVec.ofInt 16 (-1), 0⟩,
        { c₀ with log := c₀.log ++ [.fetched (-1)]
                  virq := virtDevNotifyHost c₀.virq vdevId VIRQ_VQUEUE }⟩ := by
  have hfetch := prQueue_fetchNew_of_none dev env vdevId vjob c₀
    (virtQueueFetchAvailFirst_of_not_ready hr)
  change dev.prQueue env vdevId (dev.prQueue env vdevId ⟨.fetchNew, vjob, c₀⟩) = _
  rw [hfetch, prQueue_notify]

/-- With rings and buffers apart, and chains that end, a call completes what is pending. -/
private theorem exists_completed (vjob : VirtJob) {c : Ctx} (hsep : Separated c.mem c.vq)
    (hends : ∀ head ∈ pendingHeads c.mem c.vq, Ends (nextDesc c.mem c.vq.qDesc) head) :
    ∃ k es, Completed c ((dev.prQueue env vdevId)^[k] (enter vjob c)) es := by
  obtain ⟨k, -, hdone⟩ : ∃ k ≤ c.vq.size * (2 * c.vq.size + 2),
      ((dev.prQueue env vdevId)^[k] (enter vjob c)).pc = .done :=
    prQueue_returns hsep.sizePow2 (hsep.heldFixed vjob).alwaysIntact hsep.inTable hends
  obtain ⟨es, h⟩ : ∃ es, Progress c ((dev.prQueue env vdevId)^[k] (enter vjob c)) es :=
    (Progress.enter vjob c).iterate hsep k
  obtain ⟨t, ht⟩ : ∃ t, (dev.prQueue env vdevId)^[k] (enter vjob c) = t := ⟨_, rfl⟩
  rw [ht] at hdone h
  have hnone : pendingHeads c.mem t.ctx.vq = [] := h.drained (Or.inr hdone)
  have hflight : inFlight t = [] := by rw [inFlight, hdone]
  have hfetched := h.fetched
  have hpushed := h.pushed
  rw [hnone, List.append_nil] at hfetched
  rw [hflight, List.append_nil] at hpushed
  refine ⟨k, es, ?_⟩
  rw [ht]
  refine ⟨hdone, h.log, hfetched, hpushed, ?_, ?_, ?_⟩
  · rw [h.usedLast, ← hpushed, List.length_map]
  · intro j hj
    have hslot := h.usedRing.holds j (by rwa [List.length_map]) (Nat.zero_le _)
    rw [List.getElem_map, Nat.add_mod_mod] at hslot
    exact hslot
  · have hintact : Intact c t := h.toFrame.intact hsep
    rw [hintact.fetch_of_nil hsep.sizePow2 hnone]

/-- **Completion.** If rings and buffers are kept apart and the chain of every pending head
ends, a call returns, and it has completed every pending request exactly once and in order. A
queue that is not ready is left alone, wherever its rings are. -/
theorem prQueue_completes (dev : Vdev) (env : Env) (vdevId : U32) (vjob : VirtJob) (c : Ctx) :
    (Separated c.mem c.vq →
      (∀ head ∈ pendingHeads c.mem c.vq, Ends (nextDesc c.mem c.vq.qDesc) head) →
      ∃ k es, Completed c ((dev.prQueue env vdevId)^[k] (enter vjob c)) es) ∧
    (c.vq.ready = 0 → ∃ k, Declined c ((dev.prQueue env vdevId)^[k] (enter vjob c))) := by
  refine ⟨fun hsep hends => exists_completed vjob hsep hends, fun hr => ⟨2, ?_⟩⟩
  rw [iterate_of_not_ready vjob hr]
  exact ⟨rfl, rfl, rfl, rfl⟩

/-- The context of a queue that was reset and not set up again. -/
def resetCtx : Ctx := { chainsCtx with vq := { VirtQueue.configured 0 0 0 0 with ready := 0 } }

/-- The block device completes both requests, and leaves a queue alone after a reset. -/
theorem prQueue_completes_request :
    (∃ k es, Completed chainsCtx
        ((Vdev.prQueue .sdmcDevice zeroEnv 0)^[k] (enter ⟨0, 0, 0⟩ chainsCtx)) es ∧
      fetchedHeads es = [0, 4]) ∧
    ∃ k, Declined resetCtx
      ((Vdev.prQueue .sdmcDevice zeroEnv 0)^[k] (enter ⟨0, 0, 0⟩ resetCtx)) := by
  constructor
  · obtain ⟨k, es, h⟩ := (prQueue_completes .sdmcDevice zeroEnv 0 ⟨0, 0, 0⟩ chainsCtx).1
      chainsCtx_separated chainsCtx_ends
    exact ⟨k, es, h, h.fetched.trans chainsCtx_pendingHeads⟩
  · exact (prQueue_completes _ _ _ _ _).2 rfl

end Arm9LinuxFw
