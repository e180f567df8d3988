import Arm9LinuxFw.Process.Status
import Arm9LinuxFw.Service.Start

/-!
# Discipline checked by computation

`Disciplined` speaks of all descriptors that the links lead to, and of sets of addresses. For a run
that is spelled out it can be computed.

* `keptOn s dev l` checks `Kept` on a list of table entries that holds the heads pending and the
  entry a call is at, and is closed under the links; `kept_of_keptOn` says that this is enough.
* `checks l s a` checks `Disciplined` of an action, with a list for each device, and
  `disciplined_of_checks` that a run which passes is disciplined.
* `serviceBoot` and `serviceRun` are a start and a run of both drivers: two requests for entropy,
  and a read of sector 5 that is published while the entropy source is at work.
-/

namespace Arm9LinuxFw

open ByteMem Transition LinkGraph

namespace Service

/-! ### Checks -/

section Checks

variable {env : Env} {sectors : Option U32} {s : Service} {dev : Vdev} {l : List U16}

/-- Table entries that are in use stay in a list that has the heads pending and the entry a call is
at, and is closed under the links. -/
theorem Busy.mem_of_closed (hpending : ∀ head ∈ pendingHeads s.mem (s.queue dev), head ∈ l)
    (hcall : ∀ c, s.call = some c → c.pc = .body ∨ c.pc = .fetchNext →
      c.queue = (dev.index, 0) → c.vjob.currentDesc ∈ l)
    (hlinks : ∀ i ∈ l, ∀ j, nextDesc s.mem (s.queue dev).qDesc i = some j → j ∈ l) {i : U16}
    (hi : s.Busy dev i) : i ∈ l := by
  obtain ⟨r, hr, hreach⟩ := hi
  induction hreach with
  | refl =>
    rcases hr with hr | ⟨c, hc, hqueue, hpc, rfl⟩
    · exact hpending r hr
    · exact hcall c hc hpc hqueue
  | tail _ hij ih => exact hlinks _ ih _ hij

/-- The list has all entries in use. -/
def closedOn (s : Service) (dev : Vdev) (l : List U16) : Bool :=
  (pendingHeads s.mem (s.queue dev)).all (· ∈ l) &&
    s.call.all (fun c => c.pc = .body ∨ c.pc = .fetchNext → c.queue = (dev.index, 0) →
      c.vjob.currentDesc ∈ l) &&
    l.all fun i => (nextDesc s.mem (s.queue dev).qDesc i).all (· ∈ l)

/-- A list that has the heads and is closed under the links has everything in use. -/
theorem mem_of_closedOn (h : closedOn s dev l) {i : U16} (hi : s.Busy dev i) : i ∈ l := by
  simp only [closedOn, Bool.and_eq_true, List.all_eq_true, Option.all_eq_true,
    decide_eq_true_eq] at h
  exact hi.mem_of_closed h.1.1 h.1.2 h.2

/-- A buffer keeps clear of a queue. -/
def clearOf (vq : VirtQueue) (desc : VirtDesc) : Bool :=
  desc.ClearOf vq.qAvail (4 + 2 * vq.size) && desc.ClearOf vq.qDesc (16 * vq.size) &&
    desc.ClearOf vq.qUsed (4 + 8 * vq.size)

private theorem disjoint_of_clearOf {vq : VirtQueue} {desc : VirtDesc} (h : clearOf vq desc) :
    Disjoint desc.bufferSpan vq.area := by
  simp only [clearOf, Bool.and_eq_true, decide_eq_true_eq] at h
  exact Set.disjoint_union_right.mpr
    ⟨Set.disjoint_union_right.mpr ⟨h.1.1.disjoint, h.1.2.disjoint⟩, h.2.disjoint⟩

/-- The entries of the list are in the table, and their buffers clear of both queues. -/
def keptOn (s : Service) (dev : Vdev) (l : List U16) : Bool :=
  closedOn s dev l && l.all fun i => i.toNat < (s.queue dev).size &&
    clearOf (s.queue .hwrngDevice) (descOf s.mem (s.queue dev) i) &&
    clearOf (s.queue .sdmcDevice) (descOf s.mem (s.queue dev) i)

/-- The check says what it is for. -/
private theorem kept_of_keptOn (h : keptOn s dev l) : s.Kept dev := by
  simp only [keptOn, Bool.and_eq_true, List.all_eq_true, decide_eq_true_eq] at h
  obtain ⟨hclosed, hall⟩ := h
  refine ⟨fun i hi => (hall i (mem_of_closedOn hclosed hi)).1.1, fun i hi dev' => ?_⟩
  have hclear := hall i (mem_of_closedOn hclosed hi)
  cases dev' with
  | hwrngDevice => exact disjoint_of_clearOf hclear.1.2
  | sdmcDevice => exact disjoint_of_clearOf hclear.2

/-- Two memories agree on the `n` bytes from `a` on. -/
def sameOn (m m' : Mem) (a : U32) (n : ℕ) : Bool :=
  (List.range n).all fun i => m (a + BitVec.ofNat 32 i) = m' (a + BitVec.ofNat 32 i)

private theorem eqOn_of_sameOn {m m' : Mem} {a : U32} {n : ℕ} (h : sameOn m m' a n) :
    Set.EqOn m m' (span a n) := by
  simp only [sameOn, List.all_eq_true, List.mem_range, decide_eq_true_eq] at h
  intro x hx
  have heq := h (x - a).toNat hx
  rwa [BitVec.ofNat_toNat, BitVec.setWidth_eq, BitVec.add_comm, BitVec.sub_add_cancel] at heq

/-- The rings of a queue are left alone. -/
def ringsSame (m m' : Mem) (vq : VirtQueue) : Bool :=
  sameOn m m' vq.qAvail (4 + 2 * vq.size) && sameOn m m' vq.qUsed (4 + 8 * vq.size)

private theorem eqOn_of_ringsSame {m m' : Mem} {vq : VirtQueue} (h : ringsSame m m' vq) :
    Set.EqOn m m' (vq.availSpan ∪ vq.usedSpan) := by
  rw [ringsSame, Bool.and_eq_true] at h
  rintro x (hx | hx)
  · exact eqOn_of_sameOn h.1 hx
  · exact eqOn_of_sameOn h.2 hx

/-- Both queues are kept to, on a list for each. -/
def bothKeptOn (s : Service) (l : Vdev → List U16) : Bool :=
  keptOn s .hwrngDevice (l .hwrngDevice) && keptOn s .sdmcDevice (l .sdmcDevice)

private theorem kept_of_bothKeptOn {l : Vdev → List U16} (h : bothKeptOn s l) (dev : Vdev) :
    s.Kept dev := by
  rw [bothKeptOn, Bool.and_eq_true] at h
  cases dev with
  | hwrngDevice => exact kept_of_keptOn h.1
  | sdmcDevice => exact kept_of_keptOn h.2

/-- Whether an action keeps to what the drivers promise, as far as lists of table entries tell. -/
def checks (env : Env) (sectors : Option U32) (l : Vdev → List U16) (s : Service) :
    ServiceAction → Bool
  | .fill m =>
      ringsSame m s.mem (s.queue .hwrngDevice) && ringsSame m s.mem (s.queue .sdmcDevice) &&
        bothKeptOn (s.store m) l
  | .publish dev head =>
      decide ((s.account dev).sent.length + 1 < (s.account dev).got.length + (s.queue dev).size) &&
        bothKeptOn (s.store (driverPublish s.mem (s.queue dev) head)) l
  | .command (.writeReg dev reg _) =>
      match regTarget (deviceTable env sectors 0) dev reg with
      | some (.cell (.queue _ _ _)) => false
      | _ => true
  | .command (.readReg _ _) | .consume _ | .process => true

/-- An action that passes is disciplined. -/
private theorem disciplined_of_check {l : Vdev → List U16} {a : ServiceAction}
    (h : checks env sectors l s a) : Disciplined env sectors s a := by
  cases a with
  | fill m =>
    simp only [checks, Bool.and_eq_true] at h
    refine ⟨fun dev => ?_, kept_of_bothKeptOn h.2⟩
    cases dev with
    | hwrngDevice => exact eqOn_of_ringsSame h.1.1
    | sdmcDevice => exact eqOn_of_ringsSame h.1.2
  | publish dev head =>
    simp only [checks, Bool.and_eq_true, decide_eq_true_eq] at h
    exact ⟨h.1, kept_of_bothKeptOn h.2⟩
  | command c =>
    cases c with
    | readReg => trivial
    | writeReg dev reg val =>
      intro d q f htarget
      simp only [checks, htarget] at h
      cases h
  | consume | process => trivial

/-- A run that passes is disciplined. -/
private theorem disciplined_of_checks {l : Vdev → List U16} {as : List ServiceAction}
    (h : Along (serviceStep env sectors) (fun s a => checks env sectors l s a) s as) :
    Along (serviceStep env sectors) (Disciplined env sectors) s as :=
  h.imp fun _ _ => disciplined_of_check

end Checks

end Service

/-! ### A run of both drivers -/

section Boot

open Service

/-- The write of a queue register. -/
def queueCmd (dev : Vdev) (r : ℕ) (val : U32) : PxiCmd :=
  .writeReg (BitVec.ofNat 32 dev.index) (BitVec.ofNat 32 (512 * r + 2)) val

/-- A queue of four entries is set up at `base`. -/
def setupCmds (dev : Vdev) (base : U32) : List PxiCmd := [
  queueCmd dev 1 4, queueCmd dev 4 base, queueCmd dev 5 (base + 0x100000),
  queueCmd dev 6 (base + 0x200000), queueCmd dev 2 1]

/-- Both queues set up in zeroed memory. -/
def serviceBoot : Service where
  fw := (setupCmds .hwrngDevice 0x20000000 ++ setupCmds .sdmcDevice 0x28000000).foldl
    (fun w c => c.access (deviceTable idleEnv (some 4096) 0) w)
    (virtDevInitAll (deviceTable idleEnv (some 4096) 0) powerOn)
  call := none
  account _ := ⟨[], [], [], 0, false, false⟩

private theorem serviceBoot_apart : serviceBoot.RingsApart := by
  refine ⟨fun dev dev' => ?_, fun dev dev' hne => ?_, fun dev dev' hne => ?_⟩
  · refine Set.disjoint_union_right.mpr ⟨?_, ?_⟩
    all_goals cases dev <;> cases dev' <;> exact disjoint_span (by decide) (by decide)
  · cases dev <;> cases dev'
    all_goals first
      | exact absurd rfl hne
      | exact disjoint_span (by decide) (by decide)
  · refine Set.disjoint_union_right.mpr ⟨?_, ?_⟩
    all_goals cases dev <;> cases dev'
    all_goals first
      | exact absurd rfl hne
      | exact disjoint_span (by decide) (by decide)

/-- Both queues have been set up, through the registers. -/
theorem serviceBoot_initial : serviceBoot.Initial idleEnv (some 4096) where
  idle := rfl
  fresh := (fresh_virtDevInitAll powerOn).commands (by decide)
  ready dev := by cases dev <;> decide
  sizePow2 dev := ⟨2, by cases dev <;> decide⟩
  two_le_size dev := by cases dev <;> decide
  size_le dev := by cases dev <;> decide
  availLast dev := by cases dev <;> decide
  usedLast dev := by cases dev <;> decide
  apart := serviceBoot_apart
  account _ := rfl

/-- The requests in memory: for the entropy source entries 0 and 1, buffers of 8 and of 4 bytes; for
the block device the chain of entry 0, a header for sector 5, a buffer of a sector and a status
byte. -/
def serviceMem : Mem := guestMem [
  (0x20000003, 0x30), (0x20000008, 8), (0x2000000C, 2),
  (0x20000011, 1), (0x20000013, 0x30), (0x20000018, 4), (0x2000001C, 2),
  (0x28000003, 0x31), (0x28000008, 16), (0x2800000C, 1), (0x2800000E, 1),
  (0x28000013, 0x32), (0x28000019, 2), (0x2800001C, 3), (0x2800001E, 2),
  (0x28000023, 0x33), (0x28000028, 1), (0x2800002C, 2), (0x31000008, 5)]

/-- The table entries that are used. -/
def serviceEntries : Vdev → List U16
  | .hwrngDevice => [0, 1]
  | .sdmcDevice => [0, 1, 2]

/-- The requests for entropy are published and announced, and the request of the block device is
published while the firmware is at the first of them. -/
def serviceAsked : List ServiceAction := [
  .fill serviceMem, .publish .hwrngDevice 0, .publish .hwrngDevice 1,
  .command (queueCmd .hwrngDevice 3 0), .process, .process, .process, .publish .sdmcDevice 0]

/-- The requests from their publication until they have come back. -/
def serviceRun : List ServiceAction :=
  serviceAsked ++ List.replicate 8 .process ++ [.command (queueCmd .sdmcDevice 3 0)] ++
    List.replicate 11 .process ++
    [.command (.readReg 0 35), .consume .hwrngDevice, .consume .sdmcDevice, .consume .hwrngDevice,
      .consume .hwrngDevice, .consume .sdmcDevice]

private theorem serviceRun_disciplined : Along (serviceStep idleEnv (some 4096))
    (Disciplined idleEnv (some 4096)) serviceBoot serviceRun :=
  disciplined_of_checks (l := serviceEntries) (by decide +kernel)

/-- The state after the first `n` actions. -/
def serviceAt (n : ℕ) : Service :=
  (exec (serviceStep idleEnv (some 4096)) serviceBoot (serviceRun.take n)).getD serviceBoot

/-- The states of the run, by the number of steps. -/
theorem exec_serviceAt {n : ℕ}
    (h : (exec (serviceStep idleEnv (some 4096)) serviceBoot (serviceRun.take n)).isSome) :
    exec (serviceStep idleEnv (some 4096)) serviceBoot (serviceRun.take n) =
      some (serviceAt n) := by
  obtain ⟨t, ht⟩ := Option.isSome_iff_exists.mp h
  rw [serviceAt, ht]
  rfl

theorem serviceAt_disciplined (n : ℕ) : Along (serviceStep idleEnv (some 4096))
    (Disciplined idleEnv (some 4096)) serviceBoot (serviceRun.take n) :=
  serviceRun_disciplined.of_prefix (List.take_prefix n _)

/-- The run is possible, and at its end both drivers have announced what they published, and found
their used rings empty. -/
theorem serviceAt_end :
    (exec (serviceStep idleEnv (some 4096)) serviceBoot (serviceRun.take 34)).isSome ∧
      (serviceAt 34).call.isNone ∧ listEmpty (serviceAt 34).fw.links .vqueuePendingList ∧
      ∀ dev ∈ [Vdev.hwrngDevice, Vdev.sdmcDevice],
        ((serviceAt 34).fw.virq.pendingVirq 0 0).getLsbD dev.index = false ∧
          ((serviceAt 34).account dev).announced ∧
          ((serviceAt 34).account dev).draining = false ∧
          ((serviceAt 34).account dev).sent = if dev = .hwrngDevice then [0, 1] else [0] := by
  decide +kernel

end Boot

end Arm9LinuxFw
