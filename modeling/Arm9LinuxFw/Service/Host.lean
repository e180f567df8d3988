import Arm9LinuxFw.Service.Signals

/-!
# What the host does

`Disciplined` is what the drivers promise of a step, and `ServiceInv` the invariant of the whole.

* A driver may store to memory as long as the rings stay and memory is in order afterwards; it
  publishes a head only if a slot of the ring stays free besides, which is where the firmware's
  count of the ring needs it; and its commands operate queues, they do not set them up.
* `ServiceInv` has memory in order (`Discipline`), the rings (`Rings`), and the signals (`Signals`).
* There is one lemma for each thing that a host can do, a store, a publication, a used entry
  read and a command, and each says of the whole invariant that it is kept. What a step
  does not concern is carried over by `Kept.congr` and `RingInv.congr`.

Steps of the firmware need no promise; they are in the modules about calls.
-/

namespace Arm9LinuxFw

open ByteMem Transition CircularList

namespace Service

variable {env : Env} {sectors : Option U32} {s t : Service} {dev : Vdev}

/-! ### The discipline -/

/-- The state after the host has stored to memory. -/
def store (s : Service) (m : Mem) : Service := { s with fw := s.fw.setMem m }

/-- What the drivers promise. Between publications the rings are not theirs to write to; one
slot of the available ring stays free; queues that are in use are not set up again. -/
def Disciplined (env : Env) (sectors : Option U32) (s : Service) : ServiceAction → Prop
  | .fill m =>
      (∀ dev, Set.EqOn m s.mem ((s.queue dev).availSpan ∪ (s.queue dev).usedSpan)) ∧
        ∀ dev, (s.store m).Kept dev
  | .publish dev head =>
      (s.account dev).sent.length + 1 < (s.account dev).got.length + (s.queue dev).size ∧
        ∀ dev', (s.store (driverPublish s.mem (s.queue dev) head)).Kept dev'
  | .consume _ => True
  | .command c => c.Operates (deviceTable env sectors 0)
  | .process => True

/-! ### The invariant -/

structure ServiceInv (env : Env) (sectors : Option U32) (s : Service) : Prop where
  apart : s.RingsApart
  kept : ∀ dev, s.Kept dev
  rings : ∀ dev, s.RingInv dev
  signals : ∃ queue, SignalInv env sectors s queue

/-! ### Steps that leave memory and the queues as they are -/

theorem Root.congr {i : U16} (hi : t.Root dev i) (hmem : t.mem = s.mem)
    (hqueue : ∀ dev, t.queue dev = s.queue dev)
    (hcall : ∀ c, t.call = some c → c.pc = .fetchNew ∨ s.call = some c) : s.Root dev i := by
  rcases hi with hi | ⟨c, hc, hq, hpc, rfl⟩
  · rw [hmem, hqueue] at hi
    exact Or.inl hi
  · rcases hcall c hc with hnew | hold
    · rw [hnew] at hpc
      simp at hpc
    · exact Or.inr ⟨c, hold, hq, hpc, rfl⟩

/-- Steps that leave memory and the queues keep memory in order. -/
theorem Kept.congr (h : s.Kept dev) (hmem : t.mem = s.mem)
    (hqueue : ∀ dev, t.queue dev = s.queue dev)
    (hcall : ∀ c, t.call = some c → c.pc = .fetchNew ∨ s.call = some c) : t.Kept dev := by
  refine h.mono (fun dev => ?_) ?_ fun i hi => .of_root (hi.congr hmem hqueue hcall)
  · rw [hqueue dev]
    exact .refl _
  · rw [hmem]
    exact Set.eqOn_refl _ _

theorem RingsApart.congr (h : s.RingsApart) (hqueue : ∀ dev, t.queue dev = s.queue dev) :
    t.RingsApart := h.mono fun dev => by rw [hqueue dev]; exact .refl _

/-- Nothing is in flight because of the memory. -/
theorem flight_congr (hcall : t.call = s.call) : t.flight dev = s.flight dev := by
  simp only [flight, hcall]
  rfl

/-- The host's own steps, which concern the driver of one queue: they announce nothing, and
what was told stays so. -/
theorem SignalInv.congr {queue : List ListNode} (h : SignalInv env sectors s queue) (dev : Vdev)
    (hlinks : t.fw.links = s.fw.links) (hqueue : ∀ dev, t.queue dev = s.queue dev)
    (hdevs : t.fw.devs = s.fw.devs) (hvirq : t.fw.virq = s.fw.virq) (hcall : t.call = s.call)
    (hother : ∀ dev' ≠ dev, t.account dev' = s.account dev')
    (hdone : (t.account dev).done = (s.account dev).done)
    (hann : (t.account dev).announced →
      (s.account dev).announced ∧ (t.account dev).sent = (s.account dev).sent)
    (htold : (t.account dev).got.length < (t.account dev).done.length →
      (s.account dev).got.length < (s.account dev).done.length ∧
        ((s.account dev).draining → (t.account dev).draining)) :
    SignalInv env sectors t queue where
  represents := hlinks ▸ h.represents
  owner dev' := by
    rw [hqueue]
    exact h.owner dev'
  id dev' := by
    rw [hdevs]
    exact h.id dev'
  call c hc := by
    rw [hcall] at hc
    obtain ⟨⟨dev', hcalls⟩, hpc⟩ := h.call c hc
    exact ⟨⟨dev', hcall.trans hcalls.call, hcalls.owner, hcalls.queue⟩, hpc⟩
  announced dev' hdev' := by
    rw [fetched, flight_congr hcall, AtLoop, hcall]
    by_cases hdev : dev' = dev
    · subst hdev
      obtain ⟨hold, hsent⟩ := hann hdev'
      rw [hdone, hsent]
      exact h.announced dev' hold
    · rw [hother dev' hdev] at hdev' ⊢
      exact h.announced dev' hdev'
  told dev' hlt := by
    rw [hvirq, hcall]
    by_cases hdev : dev' = dev
    · subst hdev
      obtain ⟨hold, hdraining⟩ := htold hlt
      exact (h.told dev' hold).imp_right (Or.imp_left hdraining)
    · rw [hother dev' hdev] at hlt ⊢
      exact h.told dev' hlt

/-! ### Stores -/

/-- **A store** of a driver away from the rings. -/
theorem ServiceInv.fill (h : ServiceInv env sectors s) {m : Mem}
    (hrings : ∀ dev, Set.EqOn m s.mem ((s.queue dev).availSpan ∪ (s.queue dev).usedSpan))
    (hkept : ∀ dev, (s.store m).Kept dev) : ServiceInv env sectors (s.store m) := by
  obtain ⟨queue, hsig⟩ := h.signals
  refine ⟨h.apart.congr fun _ => rfl, hkept, fun dev => ?_, queue, ?_⟩
  · exact (h.rings dev).congr (.refl _) rfl rfl (hrings dev) rfl rfl rfl rfl rfl
  · exact hsig.congr .hwrngDevice rfl (fun _ => rfl) rfl rfl rfl (fun _ _ => rfl) rfl
      (fun hann => ⟨hann, rfl⟩) fun hlt => ⟨hlt, id⟩

/-! ### Publications -/

/-- The state after a publication. -/
def published (s : Service) (dev : Vdev) (head : U16) : Service :=
  (s.store (driverPublish s.mem (s.queue dev) head)).setAccount dev ((s.account dev).publish head)

private theorem published_account (head : U16) (dev' : Vdev) : (s.published dev head).account dev' =
    if dev' = dev then (s.account dev).publish head else s.account dev' :=
  Function.update_apply ..

/-- A head more on the available ring, for which there is room. -/
theorem RingInv.publish (h : s.RingInv dev) (hapart : s.RingsApart) {head : U16}
    (hroom : (s.account dev).sent.length + 1 < (s.account dev).got.length + (s.queue dev).size) :
    (s.published dev head).RingInv dev := by
  have hlens := h.lengths
  have haccount : (s.published dev head).account dev = (s.account dev).publish head := by
    rw [published_account, if_pos rfl]
  have hstep : AvailSys.step (s.availSys dev) (.publish head) =
      some ((s.published dev head).availSys dev) := by
    have hfits : (s.account dev).sent.length < (s.fetched dev).length + (s.queue dev).size := by
      omega
    have hfetched : (s.published dev head).fetched dev = s.fetched dev := by
      rw [fetched, fetched, haccount]
      rfl
    simp only [AvailSys.step, availSys, hfits, if_true, hfetched, haccount, Account.publish]
    rfl
  refine ⟨h.avail.publish head hstep, ?_, ?_⟩
  · refine h.used.congr (.refl _) rfl ?_ ?_ ?_ ?_
    · refine (driverPublish_eqOn s.mem (s.queue dev) head).mono ?_
      exact Set.subset_compl_iff_disjoint_right.mpr
        ((hapart.used dev dev).mono_right Set.subset_union_left)
    all_goals simp only [usedSys, haccount, Account.publish]
  · rw [haccount, Account.publish, List.length_append, List.length_singleton]
    exact hroom

/-- **A publication** keeps the invariant. -/
theorem ServiceInv.publish (h : ServiceInv env sectors s) {head : U16}
    (hroom : (s.account dev).sent.length + 1 < (s.account dev).got.length + (s.queue dev).size)
    (hkept : ∀ dev', (s.store (driverPublish s.mem (s.queue dev) head)).Kept dev') :
    ServiceInv env sectors (s.published dev head) := by
  obtain ⟨queue, hsig⟩ := h.signals
  refine ⟨h.apart.congr fun _ => rfl, fun dev' => ?_, fun dev' => ?_, queue, ?_⟩
  · exact (hkept dev').congr rfl (fun _ => rfl) fun c hc => Or.inr hc
  · by_cases hdev : dev' = dev
    · subst hdev
      exact (h.rings dev').publish h.apart hroom
    · have hother : (s.published dev head).account dev' = s.account dev' := by
        rw [published_account, if_neg hdev]
      refine (h.rings dev').congr (.refl _) rfl rfl ?_ (by rw [hother]) (by rw [hother])
        (by rw [hother]) (by rw [hother]) rfl
      refine (driverPublish_eqOn s.mem (s.queue dev) head).mono ?_
      exact Set.subset_compl_iff_disjoint_right.mpr (h.apart.avail dev dev' (Ne.symm hdev)).symm
  · have haccount : (s.published dev head).account dev = (s.account dev).publish head := by
      rw [published_account, if_pos rfl]
    refine hsig.congr dev rfl (fun _ => rfl) rfl rfl rfl (fun dev' hdev => ?_) ?_ (fun hann => ?_)
      fun hlt => ?_
    · rw [published_account, if_neg hdev]
    · rw [haccount]
      rfl
    · rw [haccount] at hann
      cases hann
    · rw [haccount] at hlt ⊢
      exact ⟨hlt, id⟩

/-! ### Consumptions -/

/-- The state after the driver has looked at its used ring. -/
def consumed (s : Service) (dev : Vdev) : Service :=
  s.setAccount dev ((s.account dev).consume s.mem (s.queue dev))

private theorem consumed_account (dev' : Vdev) : (s.consumed dev).account dev' =
    if dev' = dev then (s.account dev).consume s.mem (s.queue dev) else s.account dev' :=
  Function.update_apply ..

/-- The driver finds its ring drained when it has read all that was pushed. -/
theorem RingInv.seen_eq_last_iff (h : s.RingInv dev) :
    (s.account dev).seen = vqUsedLast s.mem (s.queue dev).qUsed ↔
      (s.account dev).got.length = (s.account dev).done.length := by
  have hseen := h.used.seen_eq_last_iff
  rwa [usedSys, List.length_map] at hseen

/-- An entry more that was read. -/
theorem RingInv.consume (h : s.RingInv dev) : (s.consumed dev).RingInv dev := by
  have haccount : (s.consumed dev).account dev = (s.account dev).consume s.mem (s.queue dev) := by
    rw [consumed_account, if_pos rfl]
  by_cases hseen : (s.account dev).seen = vqUsedLast s.mem (s.queue dev).qUsed
  · rw [Account.consume, if_pos hseen] at haccount
    exact h.congr (.refl _) rfl rfl (Set.eqOn_refl _ _) (by rw [haccount]) (by rw [haccount])
      (by rw [haccount]) (by rw [haccount]) rfl
  · rw [Account.consume, if_neg hseen] at haccount
    have hstep : UsedSys.step (s.usedSys dev) .consume = some ((s.consumed dev).usedSys dev) := by
      simp only [UsedSys.step, usedSys, hseen, if_false, haccount]
      rfl
    refine ⟨h.avail.congr (.refl _) rfl (Set.eqOn_refl _ _) ?_ ?_, h.used.consume hstep, ?_⟩
    · simp only [availSys, haccount]
    · simp only [availSys, fetched, haccount]
      rfl
    · have hroom := h.room
      rw [haccount, List.length_append, List.length_singleton]
      change _ < _ + (s.queue dev).size
      change (s.account dev).sent.length < _
      omega

/-- **A consumption** keeps the invariant. -/
theorem ServiceInv.consume (h : ServiceInv env sectors s) :
    ServiceInv env sectors (s.consumed dev) := by
  obtain ⟨queue, hsig⟩ := h.signals
  refine ⟨h.apart.congr fun _ => rfl, fun dev' => ?_, fun dev' => ?_, queue, ?_⟩
  · exact (h.kept dev').congr rfl (fun _ => rfl) fun c hc => Or.inr hc
  · by_cases hdev : dev' = dev
    · subst hdev
      exact (h.rings dev').consume
    · have hother : (s.consumed dev).account dev' = s.account dev' := by
        rw [consumed_account, if_neg hdev]
      exact (h.rings dev').congr (.refl _) rfl rfl (Set.eqOn_refl _ _) (by rw [hother])
        (by rw [hother]) (by rw [hother]) (by rw [hother]) rfl
  · have hseen := (h.rings dev).seen_eq_last_iff
    have haccount : (s.consumed dev).account dev =
        (s.account dev).consume s.mem (s.queue dev) := by
      rw [consumed_account, if_pos rfl]
    rw [Account.consume] at haccount
    refine hsig.congr dev rfl (fun _ => rfl) rfl rfl rfl (fun dev' hdev => ?_) ?_ (fun hann => ?_)
      fun hlt => ?_
    · rw [consumed_account, if_neg hdev]
    · rw [haccount]
      split_ifs <;> rfl
    · rw [haccount] at hann ⊢
      split_ifs at hann ⊢ <;> exact ⟨hann, rfl⟩
    · rw [haccount] at hlt ⊢
      split_ifs at hlt ⊢ with hempty
      -- the ring is not empty as long as entries are left
      · exact absurd (hseen.mp hempty) hlt.ne
      · rw [List.length_append, List.length_singleton] at hlt
        exact ⟨Nat.lt_of_succ_lt hlt, id⟩

/-! ### Commands -/

/-- The state after a command. -/
def commanded (env : Env) (sectors : Option U32) (s : Service) (c : PxiCmd) : Service :=
  { s with
    fw := c.access (deviceTable env sectors 0) s.fw
    account := fun dev => (s.account dev).command (deviceTable env sectors 0) s.fw dev c }

/-- **A command** that operates queues does, too. -/
theorem ServiceInv.command (h : ServiceInv env sectors s) (hidle : s.call = none) {c : PxiCmd}
    (hc : c.Operates (deviceTable env sectors 0)) :
    ServiceInv env sectors (s.commanded env sectors c) := by
  obtain ⟨queue, hsig⟩ := h.signals
  obtain ⟨hvqs, hext, -⟩ := hc.keeps ⟨queue, hsig.represents⟩
  have hqueue (dev : Vdev) : (s.commanded env sectors c).queue dev = s.queue dev := by
    simp only [commanded, Service.queue, hvqs]
  have hmem : (s.commanded env sectors c).mem = s.mem := by
    simp only [commanded, mem, hext]
  refine ⟨h.apart.congr hqueue, fun dev => ?_, fun dev => ?_, hsig.command hidle hc⟩
  · exact (h.kept dev).congr hmem hqueue fun c hc => Or.inr hc
  · refine (h.rings dev).congr (by rw [hqueue]; exact .refl _) (by rw [hqueue]) (by rw [hqueue])
      (by rw [hmem]; exact Set.eqOn_refl _ _) rfl rfl rfl rfl (flight_congr rfl)

end Service

end Arm9LinuxFw
