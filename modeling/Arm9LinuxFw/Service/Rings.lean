import Arm9LinuxFw.Service.Discipline

/-!
# The service on the rings

Each queue of the service is a run of the two ring protocols of `Rings/Avail` and `Rings/Used`.

* `Service.availSys` and `Service.usedSys` are what a queue of the service is of them: queue and
  memory as they are, and the histories of the driver's account.
* Every step of the service is on both either a step of the protocol or none, so their invariants
  carry over; `AvailSys.Inv.congr` and `UsedSys.Inv.congr` are for the steps that are none.
* `RingInv` puts the invariants together: what the driver has read are the first of the
  entries pushed, these are for the first of the heads fetched, and these are the first of the
  heads published. The request that a call is working on, if it is past its fetch and not yet
  pushed, is in between (`Service.flight`).
* `Calls.ringInv` is the step of a call, on the queue that it is about and on the other one.
-/

namespace Arm9LinuxFw

open ByteMem Transition RingBuffer

/-! ### The protocols, up to what does not concern them -/

/-- The available ring is not concerned with the rest of the queue. -/
theorem AvailSys.Inv.congr {s t : AvailSys} (h : s.Inv) (hsetup : t.vq.SameSetup s.vq)
    (hidx : t.vq.availIdx = s.vq.availIdx) (hmem : Set.EqOn t.mem s.mem s.vq.availSpan)
    (hsent : t.sent = s.sent) (hgot : t.got = s.got) : t.Inv := by
  obtain ⟨availIdx, usedIdx, priv, hvq⟩ := hsetup
  have hready : t.vq.ready = s.vq.ready := by rw [hvq]
  have hsize : t.vq.size = s.vq.size := by rw [hvq]; rfl
  have hqAvail : t.vq.qAvail = s.vq.qAvail := by rw [hvq]
  refine ⟨hready ▸ h.ready, ?_, ?_, ?_, ?_⟩
  · rw [VirtQueue.SizePow2, hsize]
    exact h.sizePow2
  · rw [hidx, hsize, hgot]
    exact h.availIdx
  · rw [hqAvail, vqAvailLast_congr hmem, hsent]
    exact h.last
  · rw [hqAvail, hsize, hsent, hgot]
    refine ⟨h.window.got_prefix, h.window.room, fun k hk hgk => ?_⟩
    rw [vqAvailRing_congr hmem (Nat.mod_lt _ s.vq.size_pos)]
    exact h.window.holds k hk hgk

/-- Nor is the used ring. -/
theorem UsedSys.Inv.congr {s t : UsedSys} (h : s.Inv) (hsetup : t.vq.SameSetup s.vq)
    (hidx : t.vq.usedIdx = s.vq.usedIdx) (hmem : Set.EqOn t.mem s.mem s.vq.usedSpan)
    (hseen : t.seen = s.seen) (hsent : t.sent = s.sent) (hgot : t.got = s.got) : t.Inv := by
  obtain ⟨availIdx, usedIdx, priv, hvq⟩ := hsetup
  have hsize : t.vq.size = s.vq.size := by rw [hvq]; rfl
  have hqUsed : t.vq.qUsed = s.vq.qUsed := by rw [hvq]
  refine ⟨?_, hsize ▸ h.size_le, ?_, ?_, ?_, ?_⟩
  · rw [VirtQueue.SizePow2, hsize]
    exact h.sizePow2
  · rw [hidx, hsize, hsent]
    exact h.usedIdx
  · rw [hqUsed, vqUsedLast_congr hmem, hsent]
    exact h.last
  · rw [hseen, hgot]
    exact h.seen
  · rw [hqUsed, hsize, hsent, hgot]
    refine ⟨h.window.got_prefix, h.window.room, fun k hk hgk => ?_⟩
    rw [vqUsedRing_congr hmem (Nat.mod_lt _ s.vq.size_pos)]
    exact h.window.holds k hk hgk

/-- A publication stores to the available ring only. -/
theorem driverPublish_eqOn (m : Mem) (vq : VirtQueue) (head : U16) :
    Set.EqOn (driverPublish m vq head) m vq.availSpanᶜ := by
  have hn : 4 + 2 * vq.size ≤ 2 ^ 32 := by have := vq.size_le; omega
  have hslot : (vqAvailLast m vq.qAvail).toNat % vq.size < vq.size := Nat.mod_lt _ vq.size_pos
  intro x hx
  rw [driverPublish, Mem.eqOn_write16 _ _ _ fun h => hx (span_add_subset (by omega) hn h),
    Mem.eqOn_write16 _ _ _ fun h => hx (span_add_subset (by omega) hn h)]

namespace Service

/-! ### The queue as a run of the protocols -/

section Systems

variable (s : Service) (dev : Vdev)

/-- The head of the request that a call is at. -/
def flight : List U16 :=
  match s.call with
  | none => []
  | some c => if c.queue = (dev.index, 0) then inFlight ⟨c.pc, c.vjob, s.ctx dev⟩ else []

/-- The heads that the firmware has fetched. -/
def fetched : List U16 := (s.account dev).done.map Prod.fst ++ s.flight dev

/-- A used entry as it is in the ring. -/
def entry (p : U16 × U32) : U32 × U32 := (p.1.setWidth 32, p.2)

def availSys : AvailSys where
  vq := s.queue dev
  mem := s.mem
  sent := (s.account dev).sent
  got := s.fetched dev

def usedSys : UsedSys where
  vq := s.queue dev
  mem := s.mem
  seen := (s.account dev).seen
  sent := (s.account dev).done.map entry
  got := (s.account dev).got

structure RingInv : Prop where
  avail : (s.availSys dev).Inv
  used : (s.usedSys dev).Inv
  /-- one slot of the available ring is free -/
  room : (s.account dev).sent.length < (s.account dev).got.length + (s.queue dev).size

end Systems

variable {s t : Service} {dev : Vdev}

/-- What was read was pushed, and what was pushed was fetched. -/
theorem RingInv.lengths (h : s.RingInv dev) :
    (s.account dev).got.length ≤ (s.account dev).done.length ∧
      (s.account dev).done.length ≤ (s.fetched dev).length ∧
      (s.fetched dev).length ≤ (s.account dev).sent.length := by
  refine ⟨?_, ?_, h.avail.window.length_le⟩
  · have hle := h.used.window.length_le
    rwa [usedSys, List.length_map] at hle
  · simp [fetched]

/-- So steps that leave a queue and its rings leave its account. -/
theorem RingInv.congr (h : s.RingInv dev) (hqueue : (t.queue dev).SameSetup (s.queue dev))
    (havail : (t.queue dev).availIdx = (s.queue dev).availIdx)
    (hused : (t.queue dev).usedIdx = (s.queue dev).usedIdx)
    (hmem : Set.EqOn t.mem s.mem ((s.queue dev).availSpan ∪ (s.queue dev).usedSpan))
    (hsent : (t.account dev).sent = (s.account dev).sent)
    (hdone : (t.account dev).done = (s.account dev).done)
    (hgot : (t.account dev).got = (s.account dev).got)
    (hseen : (t.account dev).seen = (s.account dev).seen)
    (hflight : t.flight dev = s.flight dev) : t.RingInv dev where
  avail := h.avail.congr hqueue havail (hmem.mono Set.subset_union_left) hsent
    (by simp only [availSys, fetched, hdone, hflight])
  used := h.used.congr hqueue hused (hmem.mono Set.subset_union_right) hseen
    (by simp only [usedSys, hdone]) hgot
  room := by
    rw [hsent, hgot, hqueue.size]
    exact h.room

/-! ### Steps of a call -/

section Call

variable {c : QueueCall} {env : Env}

/-- What is in flight is the request of the call, by its place in the loops. -/
theorem Calls.flight_eq (h : s.Calls dev c) :
    s.flight dev = inFlight ⟨c.pc, c.vjob, s.ctx dev⟩ := by
  simp only [flight, h.call, h.queue, if_true]

theorem Calls.flight_of_ne (h : s.Calls dev c) {dev' : Vdev} (hne : dev' ≠ dev) :
    s.flight dev' = [] := by
  have hindex : dev.index ≠ dev'.index := fun heq => hne (Vdev.index_injective heq.symm)
  simp [flight, h.call, h.queue, hindex]

/-- What is in flight after a step of a call. -/
theorem advance_flight (h : s.Calls dev c) (u : Config) (dev' : Vdev) :
    (s.advance dev c u).flight dev' = if dev' = dev then inFlight u else [] := by
  have hindex : dev.index = dev'.index ↔ dev' = dev :=
    ⟨fun heq => Vdev.index_injective heq.symm, fun heq => by rw [heq]⟩
  simp only [flight, advance_call]
  split_ifs with hdone hdev hdev
  · simp [inFlight, hdone]
  · rfl
  · simp [h.queue, hdev, inFlight]
  · simp [h.queue, hindex, hdev]

/-- The other queue is left alone. -/
theorem Calls.ringInv_of_ne (h : s.Calls dev c) (hkept : s.Kept dev) (hrings : s.RingsApart)
    {dev' : Vdev} (hne : dev' ≠ dev) (hinv : s.RingInv dev') :
    (s.advance dev c (callNext env s dev c)).RingInv dev' := by
  have hqueue : (s.advance dev c (callNext env s dev c)).queue dev' = s.queue dev' := by
    rw [advance_queue, if_neg hne]
  have haccount : (s.advance dev c (callNext env s dev c)).account dev' = s.account dev' := by
    rw [advance_account, if_neg hne]
  refine hinv.congr (by rw [hqueue]; exact .refl _) (by rw [hqueue]) (by rw [hqueue]) ?_
    (by rw [haccount]) (by rw [haccount]) (by rw [haccount]) (by rw [haccount]) ?_
  · refine Set.eqOn_union.mpr ⟨?_, h.eqOn_used hkept hrings fun _ => hne.symm⟩
    exact (h.eqOn_ring hkept hrings dev').mono Set.subset_union_left
  · rw [advance_flight h, if_neg hne, h.flight_of_ne hne]

/-- A step of the call that moves neither ring on. -/
theorem Calls.ringInv_of_same (h : s.Calls dev c) (hkept : s.Kept dev) (hrings : s.RingsApart)
    (hinv : s.RingInv dev) (hpush : c.pc ≠ .push)
    (havail : (callNext env s dev c).ctx.vq.availIdx = (s.queue dev).availIdx)
    (hused : (callNext env s dev c).ctx.vq.usedIdx = (s.queue dev).usedIdx)
    (hflight : inFlight (callNext env s dev c) = inFlight ⟨c.pc, c.vjob, s.ctx dev⟩) :
    (s.advance dev c (callNext env s dev c)).RingInv dev := by
  have haccount : (s.advance dev c (callNext env s dev c)).account dev = s.account dev := by
    rw [advance_account, if_pos rfl, Account.record, if_neg hpush]
  refine hinv.congr (advance_sameSetup dev) ?_ ?_ ?_ (by rw [haccount]) (by rw [haccount])
    (by rw [haccount]) (by rw [haccount]) ?_
  · rw [advance_queue, if_pos rfl, havail]
  · rw [advance_queue, if_pos rfl, hused]
  · refine Set.eqOn_union.mpr ⟨?_, h.eqOn_used hkept hrings fun hpc => absurd hpc hpush⟩
    exact (h.eqOn_ring hkept hrings dev).mono Set.subset_union_left
  · rw [advance_flight h, if_pos rfl, hflight, h.flight_eq]

/-- A fetch is one of the protocol, and never from a full ring. -/
private theorem Calls.ringInv_fetchNew (env : Env) (h : s.Calls dev c) (hkept : s.Kept dev)
    (hrings : s.RingsApart) (hinv : s.RingInv dev) (hpc : c.pc = .fetchNew) :
    (s.advance dev c (callNext env s dev c)).RingInv dev ∧
      ((callNext env s dev c).pc = .notify → s.fetched dev = (s.account dev).sent) := by
  have hfetch := hinv.avail.fetch_eq
  have hlens := hinv.lengths
  have hroom := hinv.room
  have hnotFull : (s.account dev).sent.length ≠ (s.fetched dev).length + (s.queue dev).size := by
    omega
  simp only [availSys, or_iff_left hnotFull] at hfetch
  by_cases hall : (s.fetched dev).length = (s.account dev).sent.length
  -- in vain: everything published was fetched
  · rw [if_pos hall] at hfetch
    have hnext := prQueue_fetchNew_of_none dev env (s.fw.devs dev.index).id c.vjob (s.ctx dev)
      hfetch
    rw [← hpc] at hnext
    change callNext env s dev c = _ at hnext
    refine ⟨h.ringInv_of_same hkept hrings hinv (by rw [hpc]; decide) (by rw [hnext])
      (by rw [hnext]) (by rw [hnext, hpc]; rfl), fun _ => ?_⟩
    exact hinv.avail.window.got_prefix.eq_of_length hall
  · rw [if_neg hall] at hfetch
    have hnext := prQueue_fetchNew_of_head dev env (s.fw.devs dev.index).id c.vjob (s.ctx dev)
      hfetch
    rw [← hpc] at hnext
    change callNext env s dev c = _ at hnext
    have haccount (u : Config) : (s.advance dev c u).account dev = s.account dev := by
      rw [advance_account, if_pos rfl, Account.record, if_neg (by rw [hpc]; decide)]
    have hstep : AvailSys.step (s.availSys dev) .fetch =
        some ((s.advance dev c (callNext env s dev c)).availSys dev) := by
      have hflight : s.flight dev = [] := by rw [h.flight_eq, hpc]; rfl
      have hpos : ∀ n : ℕ, (0 : ℤ) ≤ n := Int.natCast_nonneg
      simp only [AvailSys.step, availSys, hfetch, fetched, haccount, advance_flight h, hflight,
        advance_queue, if_pos, hnext, hpos, ofInt_toNat, List.append_nil, advance_mem]
      rfl
    have havail := hinv.avail.fetch hstep
    have hused : ((s.advance dev c (callNext env s dev c)).usedSys dev).Inv := by
      refine hinv.used.congr (advance_sameSetup dev) ?_ ?_ ?_ ?_ ?_
      · simp only [usedSys, advance_queue, if_pos, hnext]
      · exact h.eqOn_used hkept hrings fun hpush => absurd (hpc.symm.trans hpush) (by decide)
      · simp only [usedSys, haccount]
      · simp only [usedSys, haccount]
      · simp only [usedSys, haccount]
    refine ⟨⟨havail, hused, ?_⟩, fun hnotify => ?_⟩
    · rw [haccount, (advance_sameSetup dev).size]
      exact hroom
    · rw [hnext] at hnotify
      cases hnotify

/-- A push is one of the protocol. -/
private theorem Calls.ringInv_push (h : s.Calls dev c) (hkept : s.Kept dev) (hrings : s.RingsApart)
    (hinv : s.RingInv dev) (hpc : c.pc = .push) :
    (s.advance dev c (callNext env s dev c)).RingInv dev := by
  have hlens := hinv.lengths
  have hroom := hinv.room
  have hnext := prQueue_push dev env (s.fw.devs dev.index).id c.vjob (s.ctx dev)
  rw [← hpc] at hnext
  change callNext env s dev c = _ at hnext
  have haccount (u : Config) : (s.advance dev c u).account dev =
      { s.account dev with
        done := (s.account dev).done ++ [(c.vjob.firstDesc, c.vjob.totalWritten)] } := by
    rw [advance_account, if_pos rfl, Account.record, if_pos hpc]
  have hstep : UsedSys.step (s.usedSys dev) (.push c.vjob.firstDesc c.vjob.totalWritten) =
      some ((s.advance dev c (callNext env s dev c)).usedSys dev) := by
    have hlt : ((s.account dev).done.map entry).length <
        (s.account dev).got.length + (s.queue dev).size := by
      rw [List.length_map]
      omega
    simp only [UsedSys.step, usedSys, haccount, advance_queue, if_pos, hnext, hlt, List.map_append,
      advance_mem, virtQueuePushJob]
    rfl
  refine ⟨hinv.avail.congr (advance_sameSetup dev) ?_ ?_ ?_ ?_, hinv.used.push hstep, ?_⟩
  · simp only [availSys, advance_queue, if_pos, hnext]
    rfl
  · exact (h.eqOn_ring hkept hrings dev).mono Set.subset_union_left
  · simp only [availSys, haccount]
  -- the request in flight has become the last one done
  · have hflight : s.flight dev = [c.vjob.firstDesc] := by rw [h.flight_eq, hpc]; rfl
    simp only [availSys, fetched, haccount, advance_flight h, if_pos, hnext, hflight,
      List.map_append]
    exact List.append_nil _
  · rw [haccount, (advance_sameSetup dev).size]
    exact hroom

/-- **A step of a call** keeps the rings. When it leaves the loop, everything was fetched. -/
theorem Calls.ringInv (env : Env) (h : s.Calls dev c) (hkept : s.Kept dev) (hrings : s.RingsApart)
    (hinv : s.RingInv dev) :
    (s.advance dev c (callNext env s dev c)).RingInv dev ∧
      (c.pc = .fetchNew → (callNext env s dev c).pc = .notify →
        s.fetched dev = (s.account dev).sent) := by
  by_cases hfetch : c.pc = .fetchNew
  · obtain ⟨hring, hnotify⟩ := h.ringInv_fetchNew env hkept hrings hinv hfetch
    exact ⟨hring, fun _ => hnotify⟩
  refine ⟨?_, fun hpc => absurd hpc hfetch⟩
  by_cases hpush : c.pc = .push
  · exact h.ringInv_push hkept hrings hinv hpush
  · obtain ⟨havail, hused, hflight⟩ := callNext_same hfetch hpush
    exact h.ringInv_of_same hkept hrings hinv hpush havail hused hflight

end Call

end Service

end Arm9LinuxFw
