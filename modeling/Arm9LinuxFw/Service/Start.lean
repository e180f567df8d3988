import Arm9LinuxFw.Service.Host

/-!
# How service starts

* `Fresh` is what `virtDevInitAll` leaves of the firmware, up to the registers that a driver writes:
  nothing pending, nothing listed, all queues owned by their devices and at the start of their
  rings. The commands that set queues up keep it (`Fresh.commands`), so it only depends on the
  drivers where and how large the queues are.
* `Service.Initial` is the state once they have all been set up, with a size that is legal, apart
  from each other, ready, and with the rings zeroed.
* `Initial.inv`: the invariant of the service holds there, so the run lemmas of `Agreement` and
  `Progress` begin with it.
-/

namespace Arm9LinuxFw

open ByteMem Transition CircularList

variable {env : Env} {sectors : Option U32}

variable (env sectors) in
/-- The firmware before any queue is used. -/
structure Fresh (w : Fw World) : Prop where
  represents : Represents (pendingNodes (deviceTable env sectors 0)) w.links .vqueuePendingList []
  owner : ∀ dev : Vdev, virtQueueOwner (w.vqs dev.index 0) = dev.index
  id : ∀ dev : Vdev, (w.devs dev.index).id = BitVec.ofNat 32 dev.index
  availIdx : ∀ dev : Vdev, (w.vqs dev.index 0).availIdx = 0
  usedIdx : ∀ dev : Vdev, (w.vqs dev.index 0).usedIdx = 0

/-- It is so after initialization, whatever there was before. -/
theorem fresh_virtDevInitAll (w : Fw World) :
    Fresh env sectors (virtDevInitAll (deviceTable env sectors 0) w) := by
  obtain ⟨hrep, howned⟩ := virtDevInitAll_spec (T := deviceTable env sectors 0) w
  have hqueue (dev : Vdev) : (deviceTable env sectors 0).HasQueue dev.index 0 :=
    (hasQueue_index env sectors 0 dev).mpr rfl
  refine ⟨hrep, fun dev => virtQueueOwner_eq (deviceTable env sectors 0) howned (hqueue dev),
    fun dev => virtDevInitAll_id (hqueue dev).1 w, fun dev => ?_, fun dev => ?_⟩
  all_goals
    obtain ⟨owner, id, priv, hvq⟩ :=
      (initDevs_clear (T := deviceTable env sectors 0) (hqueue dev).1 _).queue _ (hqueue dev).2
    rw [virtDevInitAll, hvq]

/-- A field that no register writes to is left alone by commands. -/
private theorem PxiCmd.access_value (c : PxiCmd) {w : Fw World}
    (hrep : ∃ queue, Represents (pendingNodes (deviceTable env sectors 0)) w.links
      .vqueuePendingList queue) (cell : RegCell)
    (hcell : ∀ dev reg, regTarget (deviceTable env sectors 0) dev reg ≠ some (.cell cell)) :
    cell.value (c.access (deviceTable env sectors 0) w) = cell.value w := by
  have hT := deviceTable_readOnlyCfg env sectors 0
  cases c with
  | readReg dev reg => exact readReg_value w hT dev reg cell
  | writeReg dev reg val => exact (writeIsolated w val hT hrep).fields cell (hcell dev reg)

/-- It stays so while the drivers set their queues up. -/
theorem Fresh.command {w : Fw World} (h : Fresh env sectors w) {c : PxiCmd}
    (hc : c.notifies (deviceTable env sectors 0) = none) :
    Fresh env sectors (c.access (deviceTable env sectors 0) w) := by
  have hlinks := c.access_links (deviceTable env sectors 0) w
  rw [hc] at hlinks
  have hidx (f : QueueField) (hf : ∀ n, QueueField.written n ≠ some f) (d : ℕ) :
      f.value ((c.access (deviceTable env sectors 0) w).vqs d 0) = f.value (w.vqs d 0) := by
    refine c.access_value ⟨[], h.represents⟩ (.queue d 0 f) fun dev reg htarget => ?_
    rcases regTarget_cell htarget with ⟨_, hcell, -⟩ | ⟨_, hcell, -, -, hwritten⟩
    · cases hcell
    · obtain ⟨-, -, rfl⟩ := RegCell.queue.inj hcell
      exact hf _ hwritten
  have hcut {x y : U16} (hxy : x.setWidth 32 = y.setWidth 32) : x = y := by
    simpa using congrArg (BitVec.setWidth 16) hxy
  refine ⟨hlinks ▸ h.represents, fun dev => ?_, fun dev => ?_, fun dev => ?_, fun dev => ?_⟩
  · rw [virtQueueOwner, PxiCmd.access_owner]
    exact h.owner dev
  · rw [← h.id dev]
    refine c.access_value ⟨[], h.represents⟩ (.dev dev.index .id) fun _ reg htarget => ?_
    rcases regTarget_cell htarget with ⟨_, hcell, -, -, hwritten⟩ | ⟨_, hcell, -⟩
    · obtain ⟨-, rfl⟩ := RegCell.dev.inj hcell
      unfold DevField.written at hwritten
      split at hwritten <;> cases hwritten
    · cases hcell
  · rw [← h.availIdx dev]
    refine hcut (hidx .availIdx (fun n => ?_) dev.index)
    unfold QueueField.written
    split <;> simp
  · rw [← h.usedIdx dev]
    refine hcut (hidx .usedIdx (fun n => ?_) dev.index)
    unfold QueueField.written
    split <;> simp

/-- Setting queues up one command after the other. -/
theorem Fresh.commands {w : Fw World} (h : Fresh env sectors w) {cs : List PxiCmd}
    (hcs : ∀ c ∈ cs, c.notifies (deviceTable env sectors 0) = none) :
    Fresh env sectors (cs.foldl (fun w c => c.access (deviceTable env sectors 0) w) w) := by
  induction cs generalizing w with
  | nil => exact h
  | cons c cs ih =>
    exact ih (h.command (hcs c (List.mem_cons_self ..))) fun c' hc' =>
      hcs c' (List.mem_cons_of_mem _ hc')

namespace Service

variable {s : Service}

/-- The state that service starts in: every queue set up, its rings empty and apart from the
others, and nothing asked for yet. -/
structure Initial (env : Env) (sectors : Option U32) (s : Service) : Prop where
  idle : s.call = none
  fresh : Fresh env sectors s.fw
  ready : ∀ dev, (s.queue dev).ready = 1
  sizePow2 : ∀ dev, (s.queue dev).SizePow2
  two_le_size : ∀ dev, 2 ≤ (s.queue dev).size
  size_le : ∀ dev, (s.queue dev).size ≤ 32768
  availLast : ∀ dev, vqAvailLast s.mem (s.queue dev).qAvail = 0
  usedLast : ∀ dev, vqUsedLast s.mem (s.queue dev).qUsed = 0
  apart : s.RingsApart
  account : ∀ dev, s.account dev = ⟨[], [], [], 0, false, false⟩

/-- Nothing is in use yet. -/
private theorem Initial.not_root (h : s.Initial env sectors) (dev : Vdev) (i : U16) :
    ¬ s.Root dev i := by
  have hnone : pendingHeads s.mem (s.queue dev) = [] := by
    have hidx : (s.queue dev).availIdx = 0 := h.fresh.availIdx dev
    simp [pendingHeads, pendingCount, hidx, h.availLast dev]
  rintro (hi | ⟨c, hc, -⟩)
  · rw [hnone] at hi
    cases hi
  · rw [h.idle] at hc
    cases hc

/-- The invariant holds at the start. -/
theorem Initial.inv (h : s.Initial env sectors) : ServiceInv env sectors s := by
  have hflight (dev : Vdev) : s.flight dev = [] := by
    rw [flight, h.idle]
  have hfetched (dev : Vdev) : s.fetched dev = [] := by
    rw [fetched, h.account, hflight]
    rfl
  have havail (dev : Vdev) : (s.availSys dev).Initial :=
    ⟨h.ready dev, h.sizePow2 dev, h.two_le_size dev, h.size_le dev, h.fresh.availIdx dev,
      h.availLast dev, congrArg Account.sent (h.account dev), hfetched dev⟩
  have hused (dev : Vdev) : (s.usedSys dev).Initial :=
    ⟨h.sizePow2 dev, h.two_le_size dev, h.size_le dev, h.fresh.usedIdx dev, h.usedLast dev,
      congrArg Account.seen (h.account dev),
      congrArg (fun a : Account => a.done.map entry) (h.account dev),
      congrArg Account.got (h.account dev)⟩
  refine ⟨h.apart, fun dev => ?_, fun dev => ⟨(havail dev).inv, (hused dev).inv, ?_⟩, [],
    h.fresh.represents, h.fresh.owner, h.fresh.id, ?_, fun dev hann => ?_, fun dev hlt => ?_⟩
  · refine ⟨fun i => ?_, fun i => ?_⟩
    · rintro ⟨r, hr, -⟩
      exact absurd hr (h.not_root dev r)
    · rintro ⟨r, hr, -⟩
      exact absurd hr (h.not_root dev r)
  · rw [h.account]
    exact Nat.lt_add_left _ (s.queue dev).size_pos
  · intro c hc
    rw [h.idle] at hc
    cases hc
  · left
    rw [hfetched, h.account]
  · rw [h.account] at hlt
    exact absurd hlt (lt_irrefl _)

end Service

end Arm9LinuxFw
