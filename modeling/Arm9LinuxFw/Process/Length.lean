import Arm9LinuxFw.Lib.Gather
import Arm9LinuxFw.Process.Job
import Mathlib.Algebra.Order.BigOperators.Group.List

/-!
# The length a completion reports

`totalWritten` is credited with the whole length of a buffer, while the devices store in units:
the entropy source fills whole 32-bit words, the block device whole sectors, and the status
byte the block device stores to a short buffer is not credited at all. The length in the used
entry tells the driver that so many bytes, from the start of the first writable buffer on, are
new. This module says for which chains that is so.

* `JobRun.storedAt`: what a job stores is the whole units (`filledSpans`) and the status bytes
  (`statusBytes`) of its descriptors, and nothing else.
* `HonestLength` is what the used entry promises: as many bytes as were stored into writable
  buffers, none of those it tells the driver of stale, and none of those stored left out.
* `honestLength_iff_told` compares the two byte by byte, by the place of a byte in the writable
  buffers taken one after the other.
* `jobLength_iff` is the result. For the entropy source every writable length has to be a multiple
  of 4. For the block device the last writable buffer has to take whole sectors and, behind them,
  as many bytes more as the short buffers before it have, and the buffers before it have to be
  stored in full. An empty buffer may put its status byte into another one (`SectorsExact`); where
  it does not, that is a matter of the lengths alone (`SectorsFit`).

A status byte behind the data, which is what the block protocol asks for, is therefore never
counted: the last buffer is then shorter than a sector.
-/

namespace Arm9LinuxFw

open ByteMem Transition

/-! ### What is stored through a descriptor -/

/-- The unit in which a device fills a buffer: a word, a sector. -/
def Vdev.unit : Vdev → ℕ
  | .hwrngDevice => 4
  | .sdmcDevice => 512

/-- How many bytes a device stores from the start of a buffer on, in whole units. -/
def Vdev.filled (dev : Vdev) (desc : VirtDesc) : ℕ :=
  if desc.dir = HOST_TO_VDEV then 0 else dev.unit * (desc.length.toNat / dev.unit)

/-- The buffer gets a status byte. -/
def Vdev.StoresStatus (dev : Vdev) (desc : VirtDesc) : Prop :=
  dev = .sdmcDevice ∧ desc.dir ≠ HOST_TO_VDEV ∧ desc.length.toNat < 512

instance (dev : Vdev) (desc : VirtDesc) : Decidable (dev.StoresStatus desc) :=
  inferInstanceAs (Decidable (_ ∧ _))

private theorem Vdev.filled_le (dev : Vdev) (desc : VirtDesc) :
    dev.filled desc ≤ desc.length.toNat := by
  rw [Vdev.filled]
  split_ifs
  · exact Nat.zero_le _
  · exact Nat.mul_div_le _ _

/-- The hypothesis on the card: `sdmmc_sdcard_readsectors(s, n, p)` stores `512 * n` bytes. -/
def Env.CardFills (env : Env) : Prop :=
  ∀ k sector count out, (env.card k sector count out).bytes.length = 512 * count.toNat

variable {dev : Vdev} {env : Env} {vdevId : U32} {vjob vjob' : VirtJob} {c c' : Ctx}
  {ds : List VirtDesc}

/-- The device specific part stores the filled units and the status byte, and nothing else. -/
private theorem Vdev.body_storedAt (hcard : env.CardFills) {desc : VirtDesc} {es : List Event}
    (h : (dev.body env desc (vjob, c)).2.log = c.log ++ es) :
    storedAt es =
      span desc.data (dev.filled desc) ∪ {x | dev.StoresStatus desc ∧ x = desc.data} := by
  rw [Vdev.filled]
  by_cases hdir : desc.dir = HOST_TO_VDEV
  · have hnone : storedAt es = ∅ := by
      cases dev with
      | hwrngDevice =>
        simp only [Vdev.body, hwrngBody, if_pos hdir] at h
        rw [List.self_eq_append_right.mp h, storedAt_nil]
      | sdmcDevice =>
        simp only [Vdev.body, sdmcBody, if_pos hdir] at h
        rw [← List.append_cancel_left h]
        simp [storedAt]
    rw [hnone, if_pos hdir, span_zero, Set.empty_union]
    simp [Vdev.StoresStatus, hdir]
  rw [if_neg hdir]
  cases dev with
  | hwrngDevice =>
    have hlen := desc.length.isLt
    obtain ⟨es', hlog, hstored, -, -⟩ :=
      hwrngFill_spec env desc.data c (n := (desc.length / 4).toNat) (by simp; omega)
    simp only [Vdev.body, hwrngBody, if_neg hdir] at h
    rw [← List.append_cancel_left (hlog.symm.trans h), hstored]
    simp [Vdev.StoresStatus, Vdev.unit]
  | sdmcDevice =>
    by_cases hlt : desc.length < 512
    · have hlen : desc.length.toNat < 512 := hlt
      simp only [Vdev.body, sdmcBody, if_neg hdir, if_pos hlt] at h
      rw [← List.append_cancel_left h, storedAt_store, Vdev.unit, Nat.div_eq_of_lt hlen,
        Nat.mul_zero, span_zero, Set.empty_union, span_one]
      simp [Vdev.StoresStatus, hdir, hlen]
    · have hlen : ¬ desc.length.toNat < 512 := hlt
      simp only [Vdev.body, sdmcBody, if_neg hdir, if_neg hlt, sdmmcSdcardReadsectors] at h
      rw [← List.append_cancel_left h, storedAt_readsectors_cons, storedAt_store, hcard,
        toNat_length_shiftRight]
      simp [Vdev.StoresStatus, Vdev.unit, hlen]

/-! ### What a job stores -/

/-- The addresses of the writable buffers of a chain. -/
def writeBuffers (ds : List VirtDesc) : Set U32 :=
  {x | ∃ d ∈ ds, d.dir ≠ HOST_TO_VDEV ∧ x ∈ span d.data d.length.toNat}

/-- The addresses a device fills in whole units. -/
def filledSpans (dev : Vdev) (ds : List VirtDesc) : Set U32 :=
  spans (ds.map fun d => (d.data, dev.filled d))

/-- The addresses a device stores a status byte to. -/
def statusBytes (dev : Vdev) (ds : List VirtDesc) : Set U32 :=
  {x | ∃ d ∈ ds, dev.StoresStatus d ∧ x = d.data}

/-- Table accesses store nothing. -/
private theorem storedAt_round {pre es : List Event} {i : U16}
    (hpre : ∀ e ∈ pre, ∃ j, e = .desc j) :
    storedAt (pre ++ es ++ [.desc i]) = storedAt es := by
  have hnone {l : List Event} (hl : ∀ e ∈ l, ∃ j, e = .desc j) : storedAt l = ∅ := by
    refine Set.eq_empty_of_forall_notMem ?_
    rintro x ⟨a, n, hmem, -⟩
    obtain ⟨j, hj⟩ := hl _ hmem
    cases hj
  rw [storedAt_append, storedAt_append, hnone hpre, hnone (l := [.desc i]) (by simp),
    Set.empty_union, Set.union_empty]

/-- **What a round stores** is the front of a buffer it fills, and a status byte. -/
private theorem round_storedAt (hcard : env.CardFills) {pc : Pc}
    (h : (dev.prQueue env vdevId)^[2] ⟨.body, vjob, c⟩ = ⟨pc, vjob', c'⟩) :
    ∃ es, c'.log = c.log ++ es ∧ storedAt es =
      span (jobDesc env vjob c).data (dev.filled (jobDesc env vjob c)) ∪
        {x | dev.StoresStatus (jobDesc env vjob c) ∧ x = (jobDesc env vjob c).data} := by
  obtain ⟨es, hspec⟩ := roundSpec h
  refine ⟨_, hspec.log, ?_⟩
  have hbody := hspec.body
  rw [descStep_eq] at hbody
  rw [storedAt_round fun e => getEvents_desc, Vdev.body_storedAt hcard hbody]

/-- A job stores the filled units and the status bytes of its descriptors. -/
theorem JobRun.storedAt (hcard : env.CardFills) (h : JobRun dev env vdevId vjob c ds vjob' c') :
    ∃ es, c'.log = c.log ++ es ∧ storedAt es = filledSpans dev ds ∪ statusBytes dev ds := by
  induction h with
  | last h =>
    obtain ⟨es, hlog, hstored⟩ := round_storedAt hcard h
    refine ⟨es, hlog, ?_⟩
    rw [hstored]
    refine Set.ext fun x => ?_
    simp only [filledSpans, mem_spans, List.map_singleton, List.mem_singleton, exists_eq_left,
      statusBytes, Set.mem_union, Set.mem_ofPred_eq]
  | more h _ ih =>
    obtain ⟨es, hlog, hstored⟩ := round_storedAt hcard h
    obtain ⟨es', hlog', hstored'⟩ := ih
    refine ⟨es ++ es', by rw [hlog', hlog, List.append_assoc], ?_⟩
    rw [storedAt_append, hstored, hstored']
    refine Set.ext fun x => ?_
    simp only [filledSpans, List.map_cons, spans_cons, statusBytes, Set.mem_union,
      List.exists_mem_cons_iff, Set.mem_ofPred_eq]
    tauto

/-! ### The length of the used entry -/

/-- The `len` of the used entry that `virtQueuePushJob` writes. -/
def pushedLen (vjob : VirtJob) (c : Ctx) : U32 :=
  (vqUsedRing (virtQueuePushJob c vjob).mem c.vq.qUsed (c.vq.usedIdx &&& c.vq.sizeMask).toNat).2

/-- The length of the used entry is the sum that the job was credited with. -/
private theorem pushedLen_eq (vjob : VirtJob) (c : Ctx) : pushedLen vjob c = vjob.totalWritten :=
  congrArg Prod.snd (virtQueuePushUsed_slot c.mem c.vq vjob.firstDesc vjob.totalWritten)

/-- The writable buffers of a chain that are not empty, in its order. -/
def writeBufs (ds : List VirtDesc) : List VirtDesc :=
  ds.filter fun d => d.dir ≠ HOST_TO_VDEV ∧ d.length ≠ 0

/-- The addresses of a buffer. -/
def VirtDesc.extent (d : VirtDesc) : U32 × ℕ := (d.data, d.length.toNat)

/-- What a length of `n` tells the driver: the first `n` bytes of the writable buffers, one after
the other. -/
def toldBytes (ds : List VirtDesc) (n : ℕ) : Set U32 :=
  spansTake ((writeBufs ds).map VirtDesc.extent) n

/-- The used entry pushed after a job from `c` to `c'` is true of what the job stored into the
writable buffers of the chain. -/
structure HonestLength (ds : List VirtDesc) (c : Ctx) (vjob' : VirtJob) (c' : Ctx) : Prop where
  count : (pushedLen vjob' c').toNat = (storedAt (eventsSince c c') ∩ writeBuffers ds).ncard
  /-- no byte told to be written has its old content -/
  fresh : toldBytes ds (pushedLen vjob' c').toNat ⊆ storedAt (eventsSince c c')
  /-- no byte written is left out -/
  complete : storedAt (eventsSince c c') ∩ writeBuffers ds ⊆ toldBytes ds (pushedLen vjob' c').toNat

/-- How many bytes the buffers too short for a sector have. -/
def shortBytes (ds : List VirtDesc) : ℕ :=
  (ds.map fun d => if d.length.toNat < 512 then d.length.toNat else 0).sum

/-- The block device: `front` and `last` are the writable buffers of `ds` that are not empty. All
of `front` is stored to, by whole sectors or as status bytes; of `last`, which takes a sector, all
but as many bytes at its end as the short buffers have. -/
structure SectorsExact (ds front : List VirtDesc) (last : VirtDesc) : Prop where
  sector : 512 ≤ last.length.toNat
  full : ∀ d ∈ front, ∀ x ∈ span d.data d.length.toNat,
    x ∈ span d.data (512 * (d.length.toNat / 512)) ∨ x ∈ statusBytes .sdmcDevice ds
  rest : ∀ x ∈ span last.data last.length.toNat,
    x ∈ span last.data (512 * (last.length.toNat / 512)) ∨ x ∈ statusBytes .sdmcDevice ds ↔
      x ∈ span last.data (last.length.toNat - shortBytes front)

/-- The chains for which a device's count is right. -/
def LengthExact (dev : Vdev) (ds : List VirtDesc) : Prop :=
  match dev with
  | .hwrngDevice => ∀ d ∈ ds, d.dir ≠ HOST_TO_VDEV → 4 ∣ d.length.toNat
  | .sdmcDevice => ∀ front last, writeBufs ds = front ++ [last] → SectorsExact ds front last

/-- The same where status bytes stay in their own buffers: all buffers before the last one are
whole sectors or a single byte, and the last one has as many bytes behind its whole sectors as
there are single bytes. -/
structure SectorsFit (front : List VirtDesc) (last : VirtDesc) : Prop where
  sector : 512 ≤ last.length.toNat
  full : ∀ d ∈ front, 512 ∣ d.length.toNat ∨ d.length.toNat = 1
  rest : last.length.toNat % 512 = front.countP fun d => d.length.toNat = 1

/-- The lengths for which a device's count is right, where status bytes stay in their buffers. -/
def LengthFits (dev : Vdev) (ds : List VirtDesc) : Prop :=
  match dev with
  | .hwrngDevice => ∀ d ∈ ds, d.dir ≠ HOST_TO_VDEV → 4 ∣ d.length.toNat
  | .sdmcDevice => ∀ front last, writeBufs ds = front ++ [last] → SectorsFit front last

/-- The buffers of a chain are apart from each other, an empty one taken to have `n` bytes. -/
def BuffersApart (n : ℕ) (ds : List VirtDesc) : Prop :=
  ds.Pairwise fun d d' =>
    Disjoint (span d.data (max d.length.toNat n)) (span d'.data (max d'.length.toNat n))

/-! ### The writable buffers -/

private theorem mem_writeBufs {d : VirtDesc} :
    d ∈ writeBufs ds ↔ d ∈ ds ∧ d.dir ≠ HOST_TO_VDEV ∧ d.length ≠ 0 := by
  simp [writeBufs]

private theorem writeBufs_cons (d : VirtDesc) (ds : List VirtDesc) :
    writeBufs (d :: ds) =
      if d.dir ≠ HOST_TO_VDEV ∧ d.length ≠ 0 then d :: writeBufs ds else writeBufs ds := by
  simp only [writeBufs, List.filter_cons, decide_eq_true_eq]

private theorem toNat_length_pos {d : VirtDesc} (h : d ∈ writeBufs ds) : 0 < d.length.toNat := by
  have hne := (mem_writeBufs.mp h).2.2
  bv_omega

/-- Their bytes, as the union of runs of addresses. -/
private theorem writeBuffers_eq (ds : List VirtDesc) :
    writeBuffers ds = spans ((writeBufs ds).map VirtDesc.extent) := by
  refine Set.ext fun x => ?_
  simp only [writeBuffers, mem_spans_map, mem_writeBufs, VirtDesc.extent, Set.mem_ofPred_eq]
  constructor
  · rintro ⟨d, hd, hdir, hx⟩
    refine ⟨d, ⟨hd, hdir, ?_⟩, hx⟩
    intro hzero
    rw [hzero] at hx
    exact Nat.not_lt_zero _ hx
  · rintro ⟨d, ⟨hd, hdir, -⟩, hx⟩
    exact ⟨d, hd, hdir, hx⟩

theorem BuffersApart.writable {n : ℕ} (h : BuffersApart n ds) : BuffersApart n (writeBufs ds) :=
  h.filter _

private theorem BuffersApart.spansApart {n : ℕ} (h : BuffersApart n ds) :
    SpansApart (ds.map VirtDesc.extent) :=
  List.pairwise_map.mpr (h.imp fun hd =>
    hd.mono (span_mono (le_max_left ..)) (span_mono (le_max_left ..)))

/-- Two buffers of a chain that share an address are the same one. -/
theorem BuffersApart.eq_of_mem {n : ℕ} (h : BuffersApart n ds) {d d' : VirtDesc} (hd : d ∈ ds)
    (hd' : d' ∈ ds) {x : U32} (hx : x ∈ span d.data (max d.length.toNat n))
    (hx' : x ∈ span d'.data (max d'.length.toNat n)) : d = d' := by
  by_contra hne
  have hsymm : Std.Symm fun d d' : VirtDesc =>
      Disjoint (span d.data (max d.length.toNat n)) (span d'.data (max d'.length.toNat n)) :=
    ⟨fun _ _ hdisj => hdisj.symm⟩
  exact Set.disjoint_left.mp (List.Pairwise.forall h hd hd' hne) hx hx'

/-- Of the whole units, a buffer has its own. -/
private theorem BuffersApart.mem_filledSpans {n : ℕ} (h : BuffersApart n ds) {d : VirtDesc}
    (hd : d ∈ ds)
    {x : U32} (hx : x ∈ span d.data d.length.toNat) :
    x ∈ filledSpans dev ds ↔ x ∈ span d.data (dev.filled d) := by
  rw [filledSpans, mem_spans_map]
  constructor
  · rintro ⟨d', hd', hx'⟩
    have hin : x ∈ span d'.data d'.length.toNat := span_mono (dev.filled_le d') hx'
    rwa [h.eq_of_mem hd hd' (span_mono (le_max_left ..) hx) (span_mono (le_max_left ..) hin)]
  · intro hin
    exact ⟨d, hd, hin⟩

/-- Where status bytes stay in their own buffers, a buffer has its own. -/
private theorem BuffersApart.mem_statusBytes (h : BuffersApart 1 ds) {d : VirtDesc}
    (hd : d ∈ writeBufs ds)
    {x : U32} (hx : x ∈ span d.data d.length.toNat) :
    x ∈ statusBytes .sdmcDevice ds ↔ d.length.toNat < 512 ∧ x = d.data := by
  obtain ⟨hin, hdir, -⟩ := mem_writeBufs.mp hd
  constructor
  · rintro ⟨d', hd', ⟨-, -, hlt⟩, rfl⟩
    have hself : d'.data ∈ span d'.data (max d'.length.toNat 1) := by simp
    obtain rfl := h.eq_of_mem hin hd' (span_mono (le_max_left ..) hx) hself
    exact ⟨hlt, rfl⟩
  · rintro ⟨hlt, rfl⟩
    exact ⟨d, hin, ⟨rfl, hdir, hlt⟩, rfl⟩

/-! ### The count -/

private theorem Vdev.credited_le (dev : Vdev) (desc : VirtDesc) :
    (dev.credited desc).toNat ≤ desc.length.toNat := by
  rcases dev with _ | _ <;> simp only [Vdev.credited] <;> split_ifs <;> simp

/-- Only writable buffers that are not empty count. -/
private theorem sum_credited (dev : Vdev) (ds : List VirtDesc) :
    (ds.map fun d => (dev.credited d).toNat).sum =
      ((writeBufs ds).map fun d => (dev.credited d).toNat).sum := by
  induction ds with
  | nil => rfl
  | cons d ds ih =>
    rw [List.map_cons, List.sum_cons, ih, writeBufs_cons]
    split_ifs with hin
    · rw [List.map_cons, List.sum_cons]
    · have hnone : (dev.credited d).toNat = 0 := by
        by_cases hdir : d.dir = HOST_TO_VDEV
        · rw [Vdev.credited_of_readable hdir]
          rfl
        · have hle := dev.credited_le d
          have hempty : d.length = 0 := by simpa [hdir] using hin
          rw [hempty] at hle
          exact Nat.le_zero.mp hle
      rw [hnone, Nat.zero_add]

/-- So the sum over a chain does not overflow, if the sum of the lengths does not. -/
private theorem sum_credited_le (dev : Vdev) (ds : List VirtDesc) :
    (ds.map fun d => (dev.credited d).toNat).sum ≤ (ds.map fun d => d.length.toNat).sum :=
  List.sum_le_sum fun d _ => dev.credited_le d

/-- The used entry reports what was credited, if the lengths do not come round. -/
private theorem JobRun.pushedLen_toNat {head : U16}
    (hjob : JobRun dev env vdevId (.start head) c ds vjob' c')
    (hsum : (ds.map fun d => d.length.toNat).sum < 2 ^ 32) :
    (pushedLen vjob' c').toNat = ((writeBufs ds).map fun d => (dev.credited d).toNat).sum := by
  rw [pushedLen_eq, hjob.totalWritten, ← sum_credited]
  change (0 + _) % _ = _
  rw [Nat.zero_add, Nat.mod_eq_of_lt ((sum_credited_le dev ds).trans_lt hsum)]

private theorem spansLength_extent (ds : List VirtDesc) :
    spansLength (ds.map VirtDesc.extent) = (ds.map fun d => d.length.toNat).sum := by
  rw [spansLength, List.map_map]
  rfl

/-! ### Byte by byte -/

/-- The length that is credited tells of exactly those bytes that are stored, by the place of a byte
in the writable buffers taken one after the other. -/
def ToldExactly (dev : Vdev) (ds : List VirtDesc) : Prop :=
  ∀ pre d post, writeBufs ds = pre ++ d :: post → ∀ x ∈ span d.data d.length.toNat,
    (x ∈ span d.data (dev.filled d) ∨ x ∈ statusBytes dev ds ↔
      (pre.map fun d => d.length.toNat).sum + (x - d.data).toNat <
        ((writeBufs ds).map fun d => (dev.credited d).toNat).sum)

/-- A length tells of a byte of a buffer if its place is below it. -/
private theorem mem_toldBytes_iff (hapart : BuffersApart 0 ds) {T : ℕ} {pre post : List VirtDesc}
    {d : VirtDesc} (hsplit : writeBufs ds = pre ++ d :: post) {x : U32}
    (hx : x ∈ span d.data d.length.toNat) :
    x ∈ toldBytes ds T ↔ (pre.map fun d => d.length.toNat).sum + (x - d.data).toNat < T := by
  have hbufs := hapart.writable.spansApart
  rw [hsplit, List.map_append, List.map_cons] at hbufs
  rw [toldBytes, hsplit, List.map_append, List.map_cons, ← spansLength_extent]
  exact mem_spansTake hbufs hx

private theorem toldBytes_subset (ds : List VirtDesc) (T : ℕ) :
    toldBytes ds T ⊆ writeBuffers ds := by
  rw [writeBuffers_eq]
  exact spansTake_subset _ _

/-- A length that does not exceed the buffers tells of as many bytes. -/
private theorem ncard_toldBytes (hapart : BuffersApart 0 ds) {T : ℕ}
    (hle : T ≤ ((writeBufs ds).map fun d => d.length.toNat).sum) :
    (toldBytes ds T).ncard = T := by
  have hlengths : ∀ p ∈ (writeBufs ds).map VirtDesc.extent, p.2 ≤ 2 ^ 32 := by
    rintro p hp
    obtain ⟨d, -, rfl⟩ := List.mem_map.mp hp
    exact d.length.isLt.le
  rw [toldBytes, ncard_spansTake hlengths hapart.writable.spansApart, spansLength_extent,
    min_eq_left hle]

/-- Every address of the writable buffers has its place in one of them. -/
private theorem exists_split_of_mem {x : U32} (hx : x ∈ writeBuffers ds) :
    ∃ pre d post, writeBufs ds = pre ++ d :: post ∧ x ∈ span d.data d.length.toNat := by
  rw [writeBuffers_eq] at hx
  obtain ⟨p, hp, hxp⟩ := hx
  obtain ⟨d, hd, rfl⟩ := List.mem_map.mp hp
  obtain ⟨pre, post, hsplit⟩ := List.append_of_mem hd
  exact ⟨pre, d, post, hsplit, hxp⟩

/-- The used entry is true if exactly those bytes of the writable buffers are stored whose place
is below the length it reports. -/
private theorem honestLength_iff_told (hcard : env.CardFills) {head : U16}
    (hjob : JobRun dev env vdevId (.start head) c ds vjob' c') (hapart : BuffersApart 0 ds)
    (hsum : (ds.map fun d => d.length.toNat).sum < 2 ^ 32) :
    HonestLength ds c vjob' c' ↔ ToldExactly dev ds := by
  obtain ⟨es, hlog, hstored⟩ := hjob.storedAt hcard
  obtain ⟨T, hT⟩ : ∃ T, ((writeBufs ds).map fun d => (dev.credited d).toNat).sum = T := ⟨_, rfl⟩
  have hlen : (pushedLen vjob' c').toNat = T := (hjob.pushedLen_toNat hsum).trans hT
  have hst {pre post : List VirtDesc} {d : VirtDesc} (hsplit : writeBufs ds = pre ++ d :: post)
      {x : U32} (hx : x ∈ span d.data d.length.toNat) :
      x ∈ storedAt es ↔ x ∈ span d.data (dev.filled d) ∨ x ∈ statusBytes dev ds := by
    have hin : d ∈ ds := (mem_writeBufs.mp (hsplit ▸ by simp)).1
    rw [hstored, Set.mem_union, hapart.mem_filledSpans hin hx]
  rw [ToldExactly, hT]
  constructor
  · intro h pre d post hsplit x hx
    have hin := mem_writeBufs.mp (hsplit ▸ by simp : d ∈ writeBufs ds)
    have hfresh := h.fresh
    have hcomplete := h.complete
    rw [eventsSince_eq hlog, hlen] at hfresh hcomplete
    rw [← hst hsplit hx, ← mem_toldBytes_iff hapart hsplit hx]
    exact ⟨fun hs => hcomplete ⟨hs, d, hin.1, hin.2.1, hx⟩, fun ht => hfresh ht⟩
  · intro h
    have heq : storedAt es ∩ writeBuffers ds = toldBytes ds T := by
      refine Set.Subset.antisymm ?_ fun x hx => ?_
      · rintro x ⟨hs, hin⟩
        obtain ⟨pre, d, post, hsplit, hx⟩ := exists_split_of_mem hin
        exact (mem_toldBytes_iff hapart hsplit hx).mpr
          ((h pre d post hsplit x hx).mp ((hst hsplit hx).mp hs))
      · have hin := toldBytes_subset ds T hx
        obtain ⟨pre, d, post, hsplit, hxd⟩ := exists_split_of_mem hin
        exact ⟨(hst hsplit hxd).mpr ((h pre d post hsplit x hxd).mpr
          ((mem_toldBytes_iff hapart hsplit hxd).mp hx)), hin⟩
    refine ⟨?_, ?_, ?_⟩
    · rw [eventsSince_eq hlog, heq, hlen, ncard_toldBytes hapart]
      rw [← hT]
      exact sum_credited_le dev _
    · rw [eventsSince_eq hlog, hlen, ← heq]
      exact Set.inter_subset_left
    · rw [eventsSince_eq hlog, hlen, heq]

/-! ### The entropy source -/

private theorem statusBytes_hwrng (ds : List VirtDesc) : statusBytes .hwrngDevice ds = ∅ := by
  simp [statusBytes, Vdev.StoresStatus]

/-- For the entropy device, every buffer has to be filled to its last byte. -/
private theorem toldExactly_hwrng_iff :
    ToldExactly .hwrngDevice ds ↔ LengthExact .hwrngDevice ds := by
  have hcredited : ((writeBufs ds).map fun d => (Vdev.credited .hwrngDevice d).toNat).sum =
      ((writeBufs ds).map fun d => d.length.toNat).sum :=
    congrArg List.sum (List.map_congr_left fun d hd => by
      rw [Vdev.credited_hwrng (mem_writeBufs.mp hd).2.1])
  -- the length reaches to the end of the last buffer
  have htold {pre post : List VirtDesc} {d : VirtDesc} (hsplit : writeBufs ds = pre ++ d :: post)
      {x : U32} (hx : x ∈ span d.data d.length.toNat) :
      (pre.map fun d => d.length.toNat).sum + (x - d.data).toNat <
        ((writeBufs ds).map fun d => (Vdev.credited .hwrngDevice d).toNat).sum := by
    rw [hcredited, hsplit, List.map_append, List.sum_append, List.map_cons, List.sum_cons]
    rw [mem_span] at hx
    omega
  have hfilled {d : VirtDesc} (hd : d ∈ writeBufs ds) :
      Vdev.filled .hwrngDevice d = 4 * (d.length.toNat / 4) :=
    if_neg (mem_writeBufs.mp hd).2.1
  constructor
  · intro h d hd hdir
    by_cases hzero : d.length = 0
    · rw [hzero]
      exact dvd_zero 4
    · have hin := mem_writeBufs.mpr ⟨hd, hdir, hzero⟩
      have hpos := toNat_length_pos hin
      have hlt := d.length.isLt
      obtain ⟨pre, post, hsplit⟩ := List.append_of_mem hin
      -- the last byte of the buffer
      have hlast : d.data + BitVec.ofNat 32 (d.length.toNat - 1) ∈ span d.data d.length.toNat := by
        rw [mem_span]
        bv_omega
      have hstored := (h pre d post hsplit _ hlast).mpr (htold hsplit hlast)
      rw [statusBytes_hwrng, Set.mem_empty_iff_false, or_false, hfilled hin, mem_span] at hstored
      have hoff : (d.data + BitVec.ofNat 32 (d.length.toNat - 1) - d.data).toNat =
          d.length.toNat - 1 := by bv_omega
      omega
  · intro h pre d post hsplit x hx
    have hin : d ∈ writeBufs ds := hsplit ▸ by simp
    obtain ⟨hd, hdir, -⟩ := mem_writeBufs.mp hin
    rw [iff_true_right (htold hsplit hx), hfilled hin, Nat.mul_div_cancel' (h d hd hdir)]
    exact Or.inl hx

/-! ### The block device -/

/-- What is not credited is what the short buffers have. -/
private theorem sum_credited_add_shortBytes (ds : List VirtDesc) :
    ((writeBufs ds).map fun d => (Vdev.credited .sdmcDevice d).toNat).sum +
      shortBytes (writeBufs ds) = ((writeBufs ds).map fun d => d.length.toNat).sum := by
  rw [shortBytes, ← List.sum_map_add]
  refine congrArg List.sum (List.map_congr_left fun d hd => ?_)
  by_cases hlt : d.length.toNat < 512
  · rw [Vdev.credited_sdmc_of_lt hlt, if_pos hlt]
    exact Nat.zero_add _
  · rw [Vdev.credited_sdmc_of_not_lt (mem_writeBufs.mp hd).2.1 hlt, if_neg hlt, Nat.add_zero]

private theorem shortBytes_append (ds ds' : List VirtDesc) :
    shortBytes (ds ++ ds') = shortBytes ds + shortBytes ds' := by
  rw [shortBytes, List.map_append, List.sum_append, shortBytes, shortBytes]

private theorem shortBytes_singleton (d : VirtDesc) :
    shortBytes [d] = if d.length.toNat < 512 then d.length.toNat else 0 := by
  rw [shortBytes, List.map_singleton, List.sum_singleton]

private theorem filled_sdmc {d : VirtDesc} (hd : d ∈ writeBufs ds) :
    Vdev.filled .sdmcDevice d = 512 * (d.length.toNat / 512) :=
  if_neg (mem_writeBufs.mp hd).2.1

/-- The first byte of every buffer is stored. -/
private theorem data_mem_of_writable {d : VirtDesc} (hd : d ∈ writeBufs ds) :
    d.data ∈ span d.data (Vdev.filled .sdmcDevice d) ∨ d.data ∈ statusBytes .sdmcDevice ds := by
  obtain ⟨hin, hdir, -⟩ := mem_writeBufs.mp hd
  by_cases hlt : d.length.toNat < 512
  · exact Or.inr ⟨d, hin, ⟨rfl, hdir, hlt⟩, rfl⟩
  · rw [filled_sdmc hd, self_mem_span]
    exact Or.inl (Nat.mul_pos (by omega) (by omega))

/-- Where the credited length ends: what the short buffers have is missing. -/
theorem sum_credited_concat {front : List VirtDesc} {last : VirtDesc}
    (hsplit : writeBufs ds = front ++ [last]) :
    ((writeBufs ds).map fun d => (Vdev.credited .sdmcDevice d).toNat).sum +
        (shortBytes front + if last.length.toNat < 512 then last.length.toNat else 0) =
      (front.map fun d => d.length.toNat).sum + last.length.toNat := by
  have hshort : shortBytes (writeBufs ds) =
      shortBytes front + if last.length.toNat < 512 then last.length.toNat else 0 := by
    rw [hsplit, shortBytes_append, shortBytes_singleton]
  have hlengths : ((writeBufs ds).map fun d => d.length.toNat).sum =
      (front.map fun d => d.length.toNat).sum + last.length.toNat := by
    rw [hsplit, List.map_append, List.sum_append, List.map_singleton, List.sum_singleton]
  rw [← hshort, ← hlengths]
  exact sum_credited_add_shortBytes ds

/-- A byte of a buffer comes before the end of it. -/
theorem place_lt_sum (pre post : List VirtDesc) {d : VirtDesc} {x : U32}
    (hx : x ∈ span d.data d.length.toNat) :
    (pre.map fun d => d.length.toNat).sum + (x - d.data).toNat <
      ((pre ++ d :: post).map fun d => d.length.toNat).sum := by
  rw [List.map_append, List.sum_append, List.map_cons, List.sum_cons]
  rw [mem_span] at hx
  omega

/-- If the driver is told exactly what was stored, the lengths are of the one kind. -/
private theorem ToldExactly.lengthExact (h : ToldExactly .sdmcDevice ds) :
    LengthExact .sdmcDevice ds := by
  intro front last hsplit
  have hlast : last ∈ writeBufs ds := hsplit ▸ by simp
  have hpos := toNat_length_pos hlast
  have hsum := sum_credited_concat hsplit
  -- the first byte of the last buffer is stored, so the length reaches into it
  have hfirst := (h front last [] hsplit last.data (self_mem_span.mpr hpos)).mp
    (data_mem_of_writable hlast)
  rw [BitVec.sub_self] at hfirst
  change _ + 0 < _ at hfirst
  have hsector : ¬ last.length.toNat < 512 := by
    intro hlt
    rw [if_pos hlt] at hsum
    omega
  rw [if_neg hsector] at hsum
  refine ⟨by omega, ?_, ?_⟩
  · intro d hd x hx
    obtain ⟨pre, post, rfl⟩ := List.append_of_mem hd
    have hlt := place_lt_sum pre post hx
    have hstored := (h pre d (post ++ [last]) (by simpa using hsplit) x hx).mpr (by omega)
    have hin : d ∈ writeBufs ds := hsplit ▸ List.mem_append_left _ hd
    rwa [filled_sdmc hin] at hstored
  · intro x hx
    have hiff := h front last [] hsplit x hx
    rw [filled_sdmc hlast] at hiff
    rw [hiff, mem_span]
    omega

/-- And if they are, it is. -/
private theorem LengthExact.toldExactly (h : LengthExact .sdmcDevice ds) :
    ToldExactly .sdmcDevice ds := by
  intro pre d post hsplit x hx
  have hd : d ∈ writeBufs ds := hsplit ▸ by simp
  have hx' := mem_span.mp hx
  rw [filled_sdmc hd]
  rcases post.eq_nil_or_concat with rfl | ⟨post, last, rfl⟩
  · have hex := h pre d hsplit
    have hsum := sum_credited_concat hsplit
    have hsector := hex.sector
    rw [if_neg (by omega)] at hsum
    rw [hex.rest x hx, mem_span]
    omega
  · have hfront : writeBufs ds = (pre ++ d :: post) ++ [last] := by simpa using hsplit
    have hex := h _ last hfront
    have hsum := sum_credited_concat hfront
    have hsector := hex.sector
    have hlt := place_lt_sum pre post hx
    -- the last buffer has bytes that are told of: its first one is stored
    have hlast := (hex.rest last.data (self_mem_span.mpr (by omega))).mp
      (Or.inl (self_mem_span.mpr (Nat.mul_pos (by omega) (by omega))))
    rw [self_mem_span] at hlast
    rw [if_neg (by omega)] at hsum
    refine iff_of_true (hex.full d (by simp) x hx) ?_
    omega

/-- The buffers before the last one are told of in full, and the last one up to what the short
buffers have: that is where the reported length ends. -/
private theorem toldExactly_sdmc_iff : ToldExactly .sdmcDevice ds ↔ LengthExact .sdmcDevice ds :=
  ⟨ToldExactly.lengthExact, LengthExact.toldExactly⟩

/-! ### The lengths alone -/

/-- Two spans of at most the length of a buffer have the same addresses only if they are as
long. -/
private theorem span_iff_span {a : U32} {n k j : ℕ} (hn : n < 2 ^ 32) (hk : k ≤ n) (hj : j ≤ n) :
    (∀ x ∈ span a n, (x ∈ span a k ↔ x ∈ span a j)) ↔ k = j := by
  constructor
  · intro h
    by_contra hne
    -- the address where the shorter one has ended
    have hoff : (a + BitVec.ofNat 32 (min k j) - a).toNat = min k j := by
      have hmin := min_le_left k j
      bv_omega
    have hat := h (a + BitVec.ofNat 32 (min k j)) (by rw [mem_span, hoff]; omega)
    rw [mem_span, mem_span, hoff] at hat
    omega
  · rintro rfl x _
    exact Iff.rfl

/-- A buffer that takes its own status byte and its whole sectors is stored in full. -/
private theorem full_iff {d : VirtDesc} (hpos : 0 < d.length.toNat) :
    (∀ x ∈ span d.data d.length.toNat, x ∈ span d.data (512 * (d.length.toNat / 512)) ∨
        d.length.toNat < 512 ∧ x = d.data) ↔
      512 ∣ d.length.toNat ∨ d.length.toNat = 1 := by
  have hlt := d.length.isLt
  constructor
  · intro h
    have hoff : (d.data + BitVec.ofNat 32 (d.length.toNat - 1) - d.data).toNat =
        d.length.toNat - 1 := by bv_omega
    rcases h (d.data + BitVec.ofNat 32 (d.length.toNat - 1)) (by rw [mem_span, hoff]; omega) with
      hin | ⟨hshort, heq⟩
    · rw [mem_span, hoff] at hin
      omega
    · rw [heq, BitVec.sub_self] at hoff
      change 0 = _ at hoff
      omega
  · rintro (⟨k, hk⟩ | hone) x hx
    · rw [hk, Nat.mul_div_cancel_left _ (by omega), ← hk]
      exact Or.inl hx
    · rw [hone, span_one, Set.mem_singleton_iff] at hx
      exact Or.inr ⟨by omega, hx⟩

/-- With nothing but single bytes before the last buffer, these are what the short buffers have. -/
private theorem shortBytes_eq_countP {front : List VirtDesc}
    (hpos : ∀ d ∈ front, 0 < d.length.toNat)
    (hfull : ∀ d ∈ front, 512 ∣ d.length.toNat ∨ d.length.toNat = 1) :
    shortBytes front = front.countP fun d => d.length.toNat = 1 := by
  induction front with
  | nil => rfl
  | cons d front ih =>
    rw [List.forall_mem_cons] at hpos hfull
    have htail := ih hpos.2 hfull.2
    rw [shortBytes] at htail
    rw [shortBytes, List.map_cons, List.sum_cons, htail, List.countP_cons]
    rcases hfull.1 with hdvd | hone
    · have hge := Nat.le_of_dvd hpos.1 hdvd
      rw [if_neg (by omega), decide_eq_false (by omega)]
      exact Nat.add_comm ..
    · rw [if_pos (by omega), decide_eq_true hone, hone]
      exact Nat.add_comm ..

/-- With buffers apart, that the status bytes complete a buffer is a matter of lengths. -/
private theorem sectorsExact_iff_fit (hapart : BuffersApart 1 ds) {front : List VirtDesc}
    {last : VirtDesc} (hsplit : writeBufs ds = front ++ [last]) :
    SectorsExact ds front last ↔ SectorsFit front last := by
  have hfront : ∀ d ∈ front, d ∈ writeBufs ds := fun d hd => hsplit ▸ List.mem_append_left _ hd
  have hlast : last ∈ writeBufs ds := hsplit ▸ by simp
  have hlt := last.length.isLt
  have hpos : ∀ d ∈ front, 0 < d.length.toNat := fun d hd => toNat_length_pos (hfront d hd)
  have hfull : (∀ d ∈ front, ∀ x ∈ span d.data d.length.toNat,
      x ∈ span d.data (512 * (d.length.toNat / 512)) ∨ x ∈ statusBytes .sdmcDevice ds) ↔
      ∀ d ∈ front, 512 ∣ d.length.toNat ∨ d.length.toNat = 1 := by
    refine forall₂_congr fun d hd => ?_
    rw [← full_iff (hpos d hd)]
    refine forall₂_congr fun x hx => ?_
    rw [hapart.mem_statusBytes (hfront d hd) hx]
  -- no status byte is in the last buffer, which takes a sector
  have hrest (hsector : 512 ≤ last.length.toNat) : (∀ x ∈ span last.data last.length.toNat,
      (x ∈ span last.data (512 * (last.length.toNat / 512)) ∨ x ∈ statusBytes .sdmcDevice ds ↔
        x ∈ span last.data (last.length.toNat - shortBytes front))) ↔
      512 * (last.length.toNat / 512) = last.length.toNat - shortBytes front := by
    rw [← span_iff_span (a := last.data) hlt (by omega) (by omega)]
    refine forall₂_congr fun x hx => ?_
    rw [hapart.mem_statusBytes hlast hx, or_iff_left (by omega)]
  constructor
  · intro h
    have hfit := hfull.mp h.full
    have hlength := (hrest h.sector).mp h.rest
    have hsector := h.sector
    refine ⟨h.sector, hfit, ?_⟩
    rw [← shortBytes_eq_countP hpos hfit]
    omega
  · intro h
    have hcount := shortBytes_eq_countP hpos h.full
    have hsector := h.sector
    have hmod := h.rest
    refine ⟨h.sector, hfull.mpr h.full, (hrest h.sector).mpr ?_⟩
    rw [hcount, ← hmod]
    omega

/-- **The condition by lengths**, where no status byte falls into another buffer. -/
private theorem lengthExact_iff_fits (dev : Vdev) (hapart : BuffersApart 1 ds) :
    LengthExact dev ds ↔ LengthFits dev ds := by
  cases dev with
  | hwrngDevice => exact Iff.rfl
  | sdmcDevice =>
    refine forall₂_congr fun front last => forall_congr' fun hsplit => ?_
    exact sectorsExact_iff_fit hapart hsplit

/-! ### The result -/

/-- **The completion length.** For a job through pairwise disjoint buffers whose lengths sum to
less than `2 ^ 32`, the used entry is true of the bytes stored into the writable buffers, in their
number and in which ones they are, exactly if the device's units fit the buffers. Where the status
bytes of empty buffers do not fall into other ones, that is a matter of the lengths: for the entropy
source, every writable length is a multiple of 4; for the block device, the last writable buffer
takes a sector, those before it are whole sectors or single bytes, and what the last one has beyond
whole sectors is as much as there are single bytes. -/
theorem jobLength_iff (dev : Vdev) (env : Env) (vdevId : U32) (hcard : env.CardFills)
    (head : U16) (c c' : Ctx) (vjob' : VirtJob) (ds : List VirtDesc)
    (hjob : JobRun dev env vdevId (.start head) c ds vjob' c') (hapart : BuffersApart 0 ds)
    (hsum : (ds.map fun d => d.length.toNat).sum < 2 ^ 32) :
    (HonestLength ds c vjob' c' ↔ LengthExact dev ds) ∧
      (BuffersApart 1 ds → (LengthExact dev ds ↔ LengthFits dev ds)) := by
  refine ⟨?_, lengthExact_iff_fits dev⟩
  rw [honestLength_iff_told hcard hjob hapart hsum]
  cases dev with
  | hwrngDevice => exact toldExactly_hwrng_iff
  | sdmcDevice => exact toldExactly_sdmc_iff

/-! ### Examples -/

/-- Buffers that are as far from each other as they are long are apart. -/
private theorem BuffersApart.of_distance {n : ℕ}
    (h : ds.Pairwise fun d d' => max d.length.toNat n ≤ (d'.data - d.data).toNat ∧
      max d'.length.toNat n ≤ (d.data - d'.data).toNat) : BuffersApart n ds :=
  h.imp fun hd => disjoint_span hd.1 hd.2

private theorem zeroEnv_cardFills : zeroEnv.CardFills := fun _ _ _ _ => List.length_replicate ..

/-- Guest memory with two chains in a table of 8 entries. Entries 0, 1, 2 are a request header, a
buffer of one byte at `0x23000000` and one of 513 bytes at `0x22000000`; entries 4, 5, 6 a buffer of
8 bytes at `0x24000000`, a readable one of 4 bytes, and a buffer of 12 bytes at `0x24001000`. -/
def lengthsCtx : Ctx where
  mem := guestMem [
    (0x20100002, 2), (0x20100006, 4),
    (0x20000003, 0x21), (0x20000008, 16), (0x2000000C, 1), (0x2000000E, 1),
    (0x20000013, 0x23), (0x20000018, 1), (0x2000001C, 3), (0x2000001E, 2),
    (0x20000023, 0x22), (0x20000028, 1), (0x20000029, 2), (0x2000002C, 2),
    (0x20000043, 0x24), (0x20000048, 8), (0x2000004C, 3), (0x2000004E, 5),
    (0x20000053, 0x21), (0x20000058, 4), (0x2000005C, 1), (0x2000005E, 6),
    (0x20000061, 0x10), (0x20000063, 0x24), (0x20000068, 12), (0x2000006C, 2)]
  log := []
  vq := .configured 7 0x20000000 0x20100000 0x20200000
  virq := virtIrqReset
  tick := 0

private theorem lengthsCtx_pendingHeads :
    pendingHeads lengthsCtx.mem lengthsCtx.vq = [0, 4] := by decide

private theorem lengthsCtx_links :
    [0, 1, 2, 4, 5, 6].map (nextDesc lengthsCtx.mem lengthsCtx.vq.qDesc) =
      [some 1, some 2, none, some 5, some 6, none] := by decide

/-- The chain of head 0. -/
def sectorChain : List VirtDesc :=
  [⟨0x21000000, 16, HOST_TO_VDEV⟩, ⟨0x23000000, 1, VDEV_TO_HOST⟩, ⟨0x22000000, 513, VDEV_TO_HOST⟩]

/-- The chain of head 4. -/
def wordChain : List VirtDesc :=
  [⟨0x24000000, 8, VDEV_TO_HOST⟩, ⟨0x21000000, 4, HOST_TO_VDEV⟩, ⟨0x24001000, 12, VDEV_TO_HOST⟩]

private theorem lengthsCtx_descs : [0, 1, 2, 4, 5, 6].map (descOf lengthsCtx.mem lengthsCtx.vq) =
    sectorChain ++ wordChain := by decide

private theorem lengthsCtx_separated : Separated lengthsCtx.mem lengthsCtx.vq := by
  refine .of_list [0, 1, 2, 4, 5, 6] ⟨3, rfl⟩ ?_ ?_ ?_ ?_ ?_ ?_
  · simp [lengthsCtx_pendingHeads]
  · rw [lengthsCtx_links]
    simp
  · have hsize : lengthsCtx.vq.size = 8 := rfl
    simp [hsize]
  · exact disjoint_span (by decide) (by decide)
  · exact disjoint_span (by decide) (by decide)
  · rw [lengthsCtx_descs]
    change ∀ d ∈ _, VirtDesc.ClearOf d 0x20100000 20 ∧ VirtDesc.ClearOf d 0x20000000 128 ∧
      VirtDesc.ClearOf d 0x20200000 68
    decide

private theorem exists_jobRun_sectorChain : ∃ vjob' c',
    JobRun .sdmcDevice zeroEnv 0 (.start 0) lengthsCtx sectorChain vjob' c' :=
  (Frame.start (by rw [lengthsCtx_pendingHeads]; simp)).exists_jobRun (l := [0, 1, 2])
    lengthsCtx_separated
    (.link (b := 1) (by decide) (.link (b := 2) (by decide) (.last (by decide))))

private theorem exists_jobRun_wordChain : ∃ vjob' c',
    JobRun .hwrngDevice zeroEnv 0 (.start 4) lengthsCtx wordChain vjob' c' :=
  (Frame.start (by rw [lengthsCtx_pendingHeads]; simp)).exists_jobRun (l := [4, 5, 6])
    lengthsCtx_separated
    (.link (b := 5) (by decide) (.link (b := 6) (by decide) (.last (by decide))))

/-- A status byte before 513 bytes of data: of the 514, all but the last one are stored, and the
length is 513. And 20 bytes of entropy in two buffers. -/
theorem jobLength_chains :
    (∃ vjob' c', JobRun .sdmcDevice zeroEnv 0 (.start 0) lengthsCtx sectorChain vjob' c' ∧
      HonestLength sectorChain lengthsCtx vjob' c') ∧
    ∃ vjob' c', JobRun .hwrngDevice zeroEnv 0 (.start 4) lengthsCtx wordChain vjob' c' ∧
      HonestLength wordChain lengthsCtx vjob' c' := by
  constructor
  · obtain ⟨vjob', c', hjob⟩ := exists_jobRun_sectorChain
    refine ⟨vjob', c', hjob, ?_⟩
    obtain ⟨hexact, hfits⟩ := jobLength_iff _ _ _ zeroEnv_cardFills _ _ _ _ _ hjob
      (.of_distance (by decide)) (by decide)
    refine hexact.mpr ((hfits (.of_distance (by decide))).mpr ?_)
    intro front last hsplit
    have hbufs : writeBufs sectorChain =
        [⟨0x23000000, 1, VDEV_TO_HOST⟩] ++ [⟨0x22000000, 513, VDEV_TO_HOST⟩] := by decide
    obtain ⟨rfl, hlast⟩ := List.append_inj' (hbufs.symm.trans hsplit) rfl
    obtain rfl := List.singleton_inj.mp hlast
    exact ⟨by decide, by decide, by decide⟩
  · obtain ⟨vjob', c', hjob⟩ := exists_jobRun_wordChain
    refine ⟨vjob', c', hjob, ?_⟩
    obtain ⟨hexact, -⟩ := jobLength_iff _ _ _ zeroEnv_cardFills _ _ _ _ _ hjob
      (.of_distance (by decide)) (by decide)
    refine hexact.mpr ?_
    change ∀ d ∈ wordChain, d.dir ≠ HOST_TO_VDEV → 4 ∣ d.length.toNat
    decide

/-- Of five bytes of entropy reported, four are stored. -/
theorem jobLength_five : ∃ vjob' c',
    JobRun .hwrngDevice zeroEnv 0 (.start 0) (requestCtx 5 2) [⟨0x21000000, 5, VDEV_TO_HOST⟩]
      vjob' c' ∧
    ¬ HonestLength [⟨0x21000000, 5, VDEV_TO_HOST⟩] (requestCtx 5 2) vjob' c' := by
  obtain ⟨vjob', c', hjob⟩ : ∃ vjob' c', JobRun .hwrngDevice zeroEnv 0 (.start 0)
      (requestCtx 5 2) [⟨0x21000000, 5, VDEV_TO_HOST⟩] vjob' c' :=
    exists_jobRun_singleton (by decide) (by decide)
  refine ⟨vjob', c', hjob, ?_⟩
  have hlen : (pushedLen vjob' c').toNat = 5 := by
    rw [pushedLen_eq, hjob.totalWritten]
    decide
  obtain ⟨es, hlog, hstored⟩ := hjob.storedAt zeroEnv_cardFills
  have hfour : storedAt es = span 0x21000000 4 := by
    rw [hstored, statusBytes_hwrng, Set.union_empty, filledSpans, List.map_singleton, spans_cons,
      spans_nil, Set.union_empty]
    rfl
  intro h
  have hcount := h.count
  rw [hlen, eventsSince_eq hlog, hfour] at hcount
  have hle : (span 0x21000000 4 ∩ writeBuffers [⟨0x21000000, 5, VDEV_TO_HOST⟩]).ncard ≤ 4 := by
    refine (Set.ncard_le_ncard Set.inter_subset_left).trans ?_
    exact (ncard_span _ (by omega)).le
  omega

end Arm9LinuxFw
