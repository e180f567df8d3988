import Arm9LinuxFw.Vdev.HwRng
import Arm9LinuxFw.Vdev.SdCard
import Arm9LinuxFw.Rings.Layout
import Arm9LinuxFw.Lib.LinkGraph

/-!
# The device specific part of queue processing

`vdev/hwrng.c` and `vdev/sdcard.c` process a queue by the same two loops; what is theirs is what
they do with a descriptor. This module says that once for both.

* `Vdev` names the two devices. `Vdev.prQueue_eq` takes their queue handlers apart into the common
  loops and `Vdev.body`.
* `Vdev.credited` is what a descriptor adds to the length of the job, `Vdev.readReach` and
  `Vdev.writeReach` how far into a buffer the device goes. For the block device these may be more
  than the length of the descriptor: it takes every readable buffer for a request header of 16
  bytes, and stores a status byte into any writable one of less than a sector.
* `Event.Through` is an access to a buffer that goes through a given descriptor, by its address
  and direction and within a reach.
* `BodySpec` is the specification: the events added to the record, that memory changes only where a
  recorded store goes, that all accesses go through the descriptor, what the job is credited with
  and that the rest of the job and of the context stays. `hwrngBody_spec` and `sdmcBody_spec`
  prove it for the devices, and nothing after this module unfolds their code again, save where the
  very bytes matter (`Answer`).
-/

namespace Arm9LinuxFw

open ByteMem

/-! ### The devices -/

/-- The devices that process a queue. -/
inductive Vdev
  | hwrngDevice
  | sdmcDevice
  deriving DecidableEq

/-- The part of a device's `prQueue` inside the inner loop. -/
def Vdev.body : Vdev → Body
  | .hwrngDevice => hwrngBody
  | .sdmcDevice => sdmcBody

/-- A device's `prQueue`, step by step. -/
def Vdev.prQueue : Vdev → Env → U32 → Config → Config
  | .hwrngDevice => hwrngProcessQueue
  | .sdmcDevice => sdmcProcessQueue

/-- The two queue handlers are one loop around the part that is the device's own. -/
theorem Vdev.prQueue_eq (dev : Vdev) : dev.prQueue = processQueue dev.body := by
  rcases dev with _ | _ <;> rfl

/-- What a device credits the job with for a descriptor. -/
def Vdev.credited (dev : Vdev) (desc : VirtDesc) : U32 :=
  match dev with
  | .hwrngDevice => if desc.dir = HOST_TO_VDEV then 0 else desc.length
  | .sdmcDevice => if desc.dir = HOST_TO_VDEV ∨ desc.length < 512 then 0 else desc.length

/-- How many bytes of a readable buffer a device loads from, counted from its start: the block
device takes any readable buffer for a 16-byte header. -/
def Vdev.readReach (dev : Vdev) (desc : VirtDesc) : ℕ :=
  match dev with
  | .hwrngDevice => desc.length.toNat
  | .sdmcDevice => max desc.length.toNat 16

/-- How many bytes of a writable buffer a device stores to, counted from its start: the block
device stores a status byte even to an empty one. -/
def Vdev.writeReach (dev : Vdev) (desc : VirtDesc) : ℕ :=
  match dev with
  | .hwrngDevice => desc.length.toNat
  | .sdmcDevice => max desc.length.toNat 1

private theorem Vdev.writeReach_le (dev : Vdev) (desc : VirtDesc) :
    dev.writeReach desc ≤ max desc.length.toNat 1 := by
  cases dev with
  | hwrngDevice => exact le_max_left _ _
  | sdmcDevice => exact le_rfl

section Credited

variable {dev : Vdev} {desc : VirtDesc}

theorem Vdev.credited_of_readable (hdir : desc.dir = HOST_TO_VDEV) : dev.credited desc = 0 := by
  cases dev with
  | hwrngDevice => exact if_pos hdir
  | sdmcDevice => exact if_pos (Or.inl hdir)

theorem Vdev.credited_hwrng (hdir : desc.dir ≠ HOST_TO_VDEV) :
    Vdev.credited .hwrngDevice desc = desc.length := if_neg hdir

theorem Vdev.credited_sdmc_of_lt (hlt : desc.length < 512) :
    Vdev.credited .sdmcDevice desc = 0 := if_pos (Or.inr hlt)

theorem Vdev.credited_sdmc_of_not_lt (hdir : desc.dir ≠ HOST_TO_VDEV)
    (hlt : ¬ desc.length < 512) : Vdev.credited .sdmcDevice desc = desc.length :=
  if_neg (not_or.mpr ⟨hdir, hlt⟩)

end Credited

/-! ### Accesses to data buffers -/

/-- The addresses a record of events stores to. -/
def storedAt (es : List Event) : Set U32 := {x | ∃ a n, Event.store a n ∈ es ∧ x ∈ span a n}

@[simp]
theorem storedAt_nil : storedAt [] = ∅ := by
  simp [storedAt]

/-- What two stretches of a record store is what either of them stores. -/
@[simp]
theorem storedAt_append (es es' : List Event) :
    storedAt (es ++ es') = storedAt es ∪ storedAt es' := by
  refine Set.ext fun x => ?_
  simp only [storedAt, Set.mem_ofPred_eq, Set.mem_union, List.mem_append]
  constructor
  · rintro ⟨a, n, h | h, hx⟩
    · exact Or.inl ⟨a, n, h, hx⟩
    · exact Or.inr ⟨a, n, h, hx⟩
  · rintro (⟨a, n, h, hx⟩ | ⟨a, n, h, hx⟩)
    · exact ⟨a, n, Or.inl h, hx⟩
    · exact ⟨a, n, Or.inr h, hx⟩

@[simp]
theorem storedAt_store (a : U32) (n : ℕ) : storedAt [.store a n] = span a n := by
  refine Set.ext fun x => ?_
  simp [storedAt]

theorem storedAt_readsectors_cons (sector count out : U32) (ret : ℤ) (es : List Event) :
    storedAt (.readsectors sector count out ret :: es) = storedAt es := by
  refine Set.ext fun x => ?_
  simp only [storedAt, Set.mem_ofPred_eq, List.mem_cons, reduceCtorEq, false_or]

/-- An access to a data buffer goes through a descriptor: it has the descriptor's direction,
and is within the first `r` bytes of the buffer for a load, the first `w` for a store. -/
def Event.Through (desc : VirtDesc) (r w : ℕ) : Event → Prop
  | .load a n => desc.dir = HOST_TO_VDEV ∧ span a n ⊆ span desc.data r
  | .store a n => desc.dir ≠ HOST_TO_VDEV ∧ span a n ⊆ span desc.data w
  | .readsectors _ count out _ =>
      desc.dir ≠ HOST_TO_VDEV ∧ span out (512 * count.toNat) ⊆ span desc.data w
  | .desc _ | .fetched _ | .pushed _ _ => False

/-- The addresses a device may store to through a descriptor; a buffer it stores to counts as
at least one byte. -/
def VirtDesc.bufferSpan (desc : VirtDesc) : Set U32 :=
  if desc.dir = HOST_TO_VDEV then ∅ else span desc.data (max desc.length.toNat 1)

/-- Accesses through a descriptor store into its buffer, one byte taken as the least there is. -/
theorem storedAt_subset_bufferSpan {dev : Vdev} {es : List Event} {desc : VirtDesc} {r : ℕ}
    (h : ∀ e ∈ es, e.Through desc r (dev.writeReach desc)) : storedAt es ⊆ desc.bufferSpan := by
  rintro x ⟨a, n, hmem, hx⟩
  obtain ⟨hdir, hsub⟩ := h _ hmem
  rw [VirtDesc.bufferSpan, if_neg hdir]
  exact span_mono (dev.writeReach_le desc) (hsub hx)

/-! ### The device specific part -/

/-- What the body of the inner loop does with a descriptor: `es` are the events it adds. -/
structure BodySpec (dev : Vdev) (desc : VirtDesc) (vjob : VirtJob) (c : Ctx) (vjob' : VirtJob)
    (c' : Ctx) (es : List Event) : Prop where
  log : c'.log = c.log ++ es
  vjob : vjob' = virtJobAddWritten vjob (dev.credited desc)
  vq : c'.vq = { c.vq with priv := c'.vq.priv }
  virq : c'.virq = c.virq
  mem : Set.EqOn c'.mem c.mem (storedAt es)ᶜ
  through : ∀ e ∈ es, e.Through desc (dev.readReach desc) (dev.writeReach desc)

/-- Nothing is added to a job's account. -/
theorem virtJobAddWritten_zero (vjob : VirtJob) : virtJobAddWritten vjob 0 = vjob := by
  simp [virtJobAddWritten]

section HwRng

variable (env : Env) (data : U32)

@[simp]
theorem hwrngFill_vq (n : ℕ) (c : Ctx) : (hwrngFill env data n c).vq = c.vq := by
  induction n with
  | zero => rfl
  | succ n ih => exact ih

@[simp]
theorem hwrngFill_virq (n : ℕ) (c : Ctx) : (hwrngFill env data n c).virq = c.virq := by
  induction n with
  | zero => rfl
  | succ n ih => exact ih

/-- Filling `n` words records stores to exactly the first `4 * n` bytes. -/
theorem hwrngFill_spec (c : Ctx) {n : ℕ} (hn : 4 * n ≤ 2 ^ 32) :
    ∃ es, (hwrngFill env data n c).log = c.log ++ es ∧
      storedAt es = span data (4 * n) ∧
      (∀ e ∈ es, ∃ a k, e = .store a k ∧ span a k ⊆ span data (4 * n)) ∧
      Set.EqOn (hwrngFill env data n c).mem c.mem (span data (4 * n))ᶜ := by
  induction n with
  | zero =>
    refine ⟨[], by simp [hwrngFill], by simp, by simp, ?_⟩
    exact Set.eqOn_refl _ _
  | succ n ih =>
    obtain ⟨es, hlog, hstored, hthrough, hmem⟩ := ih (by omega)
    have hsplit : span data (4 * (n + 1)) =
        span data (4 * n) ∪ span (data + BitVec.ofNat 32 (4 * n)) 4 := by
      rw [Nat.mul_succ, span_add data (by omega)]
    refine ⟨es ++ [.store (data + BitVec.ofNat 32 (4 * n)) 4], ?_, ?_, ?_, ?_⟩
    · simp [hwrngFill, hlog]
    · rw [storedAt_append, hstored, storedAt_store, hsplit]
    · rw [hsplit]
      intro e he
      rcases List.mem_append.mp he with he | he
      · obtain ⟨a, k, rfl, hsub⟩ := hthrough e he
        exact ⟨a, k, rfl, hsub.trans Set.subset_union_left⟩
      · exact ⟨_, _, List.mem_singleton.mp he, Set.subset_union_right⟩
    · rw [hsplit, Set.compl_union]
      exact ((Mem.eqOn_write32 _ _ _).mono Set.inter_subset_right).trans
        (hmem.mono Set.inter_subset_left)

end HwRng

variable (env : Env) (desc : VirtDesc) (vjob : VirtJob) (c : Ctx)

/-- The entropy device meets the specification: words into writable buffers, nothing for the others.
-/
private theorem hwrngBody_spec : ∃ es,
    BodySpec .hwrngDevice desc vjob c (hwrngBody env desc (vjob, c)).1
      (hwrngBody env desc (vjob, c)).2 es := by
  by_cases hdir : desc.dir = HOST_TO_VDEV
  · refine ⟨[], ?_⟩
    simp only [hwrngBody, if_pos hdir]
    exact ⟨by simp, by rw [Vdev.credited_of_readable hdir, virtJobAddWritten_zero], rfl, rfl,
      Set.eqOn_refl _ _, by simp⟩
  -- whole words only: `4 * (length / 4)` bytes, within the buffer
  · have hlen := desc.length.isLt
    have hdiv : (desc.length / 4).toNat = desc.length.toNat / 4 := by simp
    obtain ⟨es, hlog, hstored, hthrough, hmem⟩ :=
      hwrngFill_spec env desc.data c (n := (desc.length / 4).toNat) (by omega)
    refine ⟨es, ?_⟩
    simp only [hwrngBody, if_neg hdir]
    refine ⟨hlog, by rw [Vdev.credited_hwrng hdir], by simp, by simp, hstored ▸ hmem, ?_⟩
    intro e he
    obtain ⟨a, k, rfl, hsub⟩ := hthrough e he
    refine ⟨hdir, hsub.trans (span_mono ?_)⟩
    simp only [Vdev.writeReach]
    omega

/-- So does the block device: header, sectors or status, by direction and length. -/
private theorem sdmcBody_spec : ∃ es,
    BodySpec .sdmcDevice desc vjob c (sdmcBody env desc (vjob, c)).1
      (sdmcBody env desc (vjob, c)).2 es := by
  by_cases hdir : desc.dir = HOST_TO_VDEV
  · refine ⟨[.load (desc.data + BitVec.ofNat 32 8) 8], ?_⟩
    simp only [sdmcBody, if_pos hdir]
    refine ⟨rfl, by rw [Vdev.credited_of_readable hdir, virtJobAddWritten_zero], rfl, rfl,
      Set.eqOn_refl _ _, ?_⟩
    intro e he
    obtain rfl := List.mem_singleton.mp he
    have hlen := desc.length.isLt
    simp only [Event.Through, Vdev.readReach]
    exact ⟨hdir, span_add_subset (by omega) (by omega)⟩
  · by_cases hlt : desc.length < 512
    · refine ⟨[.store desc.data 1], ?_⟩
      simp only [sdmcBody, if_neg hdir, if_pos hlt]
      refine ⟨rfl, by rw [Vdev.credited_sdmc_of_lt hlt, virtJobAddWritten_zero], rfl, rfl, ?_, ?_⟩
      · rw [storedAt_store]
        exact Mem.eqOn_write8 _ _ _
      · intro e he
        obtain rfl := List.mem_singleton.mp he
        simp only [Event.Through, Vdev.writeReach]
        exact ⟨hdir, span_mono (by omega)⟩
    -- the driver stores no more than the whole sectors asked for
    · set reply := env.card c.tick c.vq.priv (desc.length >>> 9) desc.data with hreply
      have hbytes : reply.bytes.length ≤ 512 * (desc.length >>> 9).toNat := env.card_le ..
      have hcount : 512 * (desc.length >>> 9).toNat ≤ desc.length.toNat := by
        rw [toNat_length_shiftRight]
        exact Nat.mul_div_le _ _
      have hlen := desc.length.isLt
      refine ⟨[.readsectors c.vq.priv (desc.length >>> 9) desc.data reply.ret,
        .store desc.data reply.bytes.length], ?_⟩
      simp only [sdmcBody, if_neg hdir, if_neg hlt, sdmmcSdcardReadsectors, ← hreply]
      refine ⟨rfl, by rw [Vdev.credited_sdmc_of_not_lt hdir hlt], rfl, rfl, ?_, ?_⟩
      · rw [storedAt_readsectors_cons, storedAt_store]
        exact Mem.eqOn_writeBytes _ _ _ (by omega)
      · intro e he
        simp only [List.mem_cons, List.not_mem_nil, or_false] at he
        rcases he with rfl | rfl
        all_goals
          simp only [Event.Through, Vdev.writeReach]
          exact ⟨hdir, span_mono (by omega)⟩

/-- Both devices meet the specification. -/
theorem Vdev.body_spec (dev : Vdev) : ∃ es,
    BodySpec dev desc vjob c (dev.body env desc (vjob, c)).1 (dev.body env desc (vjob, c)).2
      es := by
  cases dev with
  | hwrngDevice => exact hwrngBody_spec env desc vjob c
  | sdmcDevice => exact sdmcBody_spec env desc vjob c

end Arm9LinuxFw
