import Arm9LinuxFw.Process.Session
import Arm9LinuxFw.Process.Status

/-!
# Scatter-gather reads

A read request is a chain of a header that names the first sector, data buffers of whole sectors,
and a status byte. The block device keeps the current sector in the queue's `priv`: a header sets
it, every data buffer advances it. So over a chain it is the header's sector and the sectors of
the buffers so far, and what it was before is forgotten.

* `ReadChain` is such a request, with the shape of its descriptors as fields. `readCalls` are the
  calls of `sdmmc_sdcard_readsectors` that it asks for: consecutive ranges of sectors, each into the
  buffer it is for.
* `ServedChain.Carries` says that a job of a session worked on a request, and its header in memory
  names the sector when the job starts. `ServedChain.Reads` is what the job is to have done: it
  made these calls and no others, and stored nothing else but the status byte.
* The rounds come first, one for each kind of descriptor; the induction over the data buffers then
  carries the current sector along, modulo 2³².
* `scatterReads` is the result for any number of requests in any session of calls, with whatever
  was left in `priv` before.

What `ServedChain` has as its descriptors is what the loop was delivered. For a driver that keeps
its rings apart these are the table entries linked from the head that was fetched
(`Session.linked`).
-/

namespace Arm9LinuxFw

open ByteMem LinkGraph Transition

/-! ### Read requests -/

/-- A writable descriptor of one whole sector or more. -/
def VirtDesc.IsData (desc : VirtDesc) : Prop :=
  desc.dir ≠ HOST_TO_VDEV ∧ ∃ k ≥ 1, desc.length.toNat = 512 * k

/-- A writable descriptor too short for a sector. -/
def VirtDesc.IsStatus (desc : VirtDesc) : Prop := desc.dir ≠ HOST_TO_VDEV ∧ desc.length < 512

/-- The chain of a read request. -/
structure ReadChain where
  header : VirtDesc
  data : List VirtDesc
  status : VirtDesc
  /-- what `sector_offset` of the header holds -/
  sector : ℕ
  header_readable : header.dir = HOST_TO_VDEV
  isData : ∀ d ∈ data, d.IsData
  isStatus : status.IsStatus
  sector_lt : sector + (data.map VirtDesc.sectors).sum < 2 ^ 32

/-- The calls `sdmmc_sdcard_readsectors(sector, count, out)` that a list of buffers asks for, from
a sector on: each buffer continues where the ones before it end. -/
def readCalls (sector : ℕ) (data : List VirtDesc) : List (ℕ × ℕ × U32) :=
  data.mapIdx fun i d => (sector + ((data.take i).map VirtDesc.sectors).sum, d.sectors, d.data)

private theorem readCalls_cons (sector : ℕ) (d : VirtDesc) (ds : List VirtDesc) :
    readCalls sector (d :: ds) =
      (sector, d.sectors, d.data) :: readCalls (sector + d.sectors) ds := by
  rw [readCalls, List.mapIdx_cons, readCalls]
  simp [Nat.add_assoc]

namespace ReadChain

def descs (r : ReadChain) : List VirtDesc := r.header :: r.data ++ [r.status]

def calls (r : ReadChain) : List (ℕ × ℕ × U32) := readCalls r.sector r.data

end ReadChain

/-- The chain that was processed is this one: its descriptors, and the sector its header had when
its head was fetched. -/
structure ServedChain.Carries (job : ServedChain) (r : ReadChain) : Prop where
  descs : job.descs = r.descs
  sector : (vblkSectorOffset job.start.mem r.header.data).toNat = r.sector

/-! ### What was done for a chain -/

/-- The calls of `sdmmc_sdcard_readsectors` in a record of events. -/
def sectorReads (es : List Event) : List (ℕ × ℕ × U32) :=
  es.filterMap fun
    | .readsectors sector count out _ => some (sector.toNat, count.toNat, out)
    | _ => none

/-- The stores to buffers in a record of events. -/
def bufferStores (es : List Event) : List (U32 × ℕ) :=
  es.filterMap fun
    | .store a n => some (a, n)
    | _ => none

@[simp]
theorem sectorReads_append (es es' : List Event) :
    sectorReads (es ++ es') = sectorReads es ++ sectorReads es' := List.filterMap_append

@[simp]
theorem bufferStores_append (es es' : List Event) :
    bufferStores (es ++ es') = bufferStores es ++ bufferStores es' := List.filterMap_append

@[simp]
theorem sectorReads_getEvents (vjob : VirtJob) (c : Ctx) : sectorReads (getEvents vjob c) = [] := by
  rw [getEvents]
  split_ifs <;> rfl

@[simp]
theorem bufferStores_getEvents (vjob : VirtJob) (c : Ctx) :
    bufferStores (getEvents vjob c) = [] := by
  rw [getEvents]
  split_ifs <;> rfl

/-- What is done with the buffers of a request, from a sector on: the sectors are read, every data
buffer gets one store, of what the driver read, then the status byte is stored; nothing else
changes. -/
structure BuffersRead (sector : ℕ) (data : List VirtDesc) (status : VirtDesc) (m m' : Mem)
    (es : List Event) : Prop where
  calls : sectorReads es = readCalls sector data
  stores : ∃ sizes : List ℕ, List.Forall₂ (fun d n => n ≤ d.length.toNat) data sizes ∧
    bufferStores es = (data.map VirtDesc.data).zip sizes ++ [(status.data, 1)]
  mem : Set.EqOn m' m
    (spans (data.map fun d => (d.data, d.length.toNat)) ∪ {status.data})ᶜ

/-- What was done for a chain up to its push, which adds an entry to the used ring. -/
structure ServedChain.Reads (job : ServedChain) (r : ReadChain) : Prop where
  buffers : BuffersRead r.sector r.data r.status job.start.mem job.stop.mem
    (eventsSince job.start job.stop)
  status : job.stop.mem r.status.data = 0
  push : Set.EqOn (virtQueuePushJob job.stop job.vjob).mem job.stop.mem job.start.vq.usedSpanᶜ

/-! ### The rounds -/

section Rounds

variable {env : Env} {vdevId : U32} {vjob vjob' : VirtJob} {c c' : Ctx} {pc : Pc}
  {d : VirtDesc}

/-- The header of a request sets the current sector. -/
private theorem round_header
    (h : (Vdev.prQueue .sdmcDevice env vdevId)^[2] ⟨.body, vjob, c⟩ = ⟨pc, vjob', c'⟩)
    (hd : jobDesc env vjob c = d) (hdir : d.dir = HOST_TO_VDEV) :
    (∃ es, c'.log = c.log ++ es ∧ sectorReads es = [] ∧ bufferStores es = []) ∧
      c'.mem = c.mem ∧
      c'.vq = { c.vq with priv := (vblkSectorOffset c.mem d.data).setWidth 32 } := by
  rw [(round_eq h).2, descStep_eq, hd]
  simp only [Vdev.body, sdmcBody, if_pos hdir, bodyCtx, List.append_assoc, and_true]
  refine ⟨_, rfl, ?_, ?_⟩
  · rw [sectorReads_append, sectorReads_getEvents]
    rfl
  · rw [bufferStores_append, bufferStores_getEvents]
    rfl

/-- A short writable descriptor gets the status byte. -/
private theorem round_status
    (h : (Vdev.prQueue .sdmcDevice env vdevId)^[2] ⟨.body, vjob, c⟩ = ⟨pc, vjob', c'⟩)
    (hd : jobDesc env vjob c = d) (hdir : d.dir ≠ HOST_TO_VDEV) (hlt : d.length < 512) :
    (∃ es, c'.log = c.log ++ es ∧ sectorReads es = [] ∧ bufferStores es = [(d.data, 1)]) ∧
      c'.mem = c.mem.write8 d.data 0 := by
  rw [(round_eq h).2, descStep_eq, hd]
  simp only [Vdev.body, sdmcBody, if_neg hdir, if_pos hlt, bodyCtx, List.append_assoc, and_true]
  refine ⟨_, rfl, ?_, ?_⟩
  · rw [sectorReads_append, sectorReads_getEvents]
    rfl
  · rw [bufferStores_append, bufferStores_getEvents]
    rfl

/-- A data buffer is read from the current sector on, which moves behind it. -/
private theorem round_data
    (h : (Vdev.prQueue .sdmcDevice env vdevId)^[2] ⟨.body, vjob, c⟩ = ⟨pc, vjob', c'⟩)
    (hd : jobDesc env vjob c = d) (hdir : d.dir ≠ HOST_TO_VDEV) (hlt : ¬ d.length < 512) :
    (∃ es size, c'.log = c.log ++ es ∧
        sectorReads es = [(c.vq.priv.toNat, d.sectors, d.data)] ∧
        bufferStores es = [(d.data, size)] ∧ size ≤ d.length.toNat) ∧
      Set.EqOn c'.mem c.mem (span d.data d.length.toNat)ᶜ ∧
      c'.vq = { c.vq with priv := c.vq.priv + d.length >>> 9 } := by
  have hcount : (d.length >>> 9).toNat = d.sectors := toNat_length_shiftRight d.length
  set reply := env.card (c.tick + 1) c.vq.priv (d.length >>> 9) d.data with hreply
  -- the driver stores no more than the whole sectors asked for
  have hsize : reply.bytes.length ≤ d.length.toNat := by
    have hbytes : reply.bytes.length ≤ 512 * (d.length >>> 9).toNat := env.card_le ..
    rw [hcount, VirtDesc.sectors] at hbytes
    exact hbytes.trans (Nat.mul_div_le _ _)
  have hlen := d.length.isLt
  rw [(round_eq h).2, descStep_eq, hd]
  simp only [Vdev.body, sdmcBody, if_neg hdir, if_neg hlt, sdmmcSdcardReadsectors, bodyCtx,
    List.append_assoc, and_true]
  refine ⟨⟨_, reply.bytes.length, rfl, ?_, ?_, hsize⟩, ?_⟩
  · rw [sectorReads_append, sectorReads_getEvents, ← hcount]
    rfl
  · rw [bufferStores_append, bufferStores_getEvents]
    rfl
  · exact (Mem.eqOn_writeBytes _ _ _ (hsize.trans hlen.le)).mono
      (Set.compl_subset_compl.mpr (span_mono hsize))

/-! ### The chain -/

theorem VirtDesc.IsData.not_lt (h : d.IsData) : ¬ d.length < 512 := by
  obtain ⟨-, k, hk, hlen⟩ := h
  intro hlt
  have hlt : d.length.toNat < 512 := hlt
  omega

/-- The data buffers and the status of a request, by induction on the buffers: `priv` is the sector
that is next. -/
private theorem JobRun.buffersRead {data : List VirtDesc} {status : VirtDesc}
    (hdata : ∀ d ∈ data, d.IsData) (hstatus : status.IsStatus)
    (hlt : c.vq.priv.toNat + (data.map VirtDesc.sectors).sum < 2 ^ 32)
    (h : JobRun .sdmcDevice env vdevId vjob c (data ++ [status]) vjob' c') :
    ∃ es, c'.log = c.log ++ es ∧ BuffersRead c.vq.priv.toNat data status c.mem c'.mem es := by
  induction data generalizing vjob c with
  | nil =>
    obtain ⟨hd, hround⟩ := h.last_inv
    obtain ⟨⟨es, hlog, hcalls, hstores⟩, hmem⟩ := round_status hround hd hstatus.1 hstatus.2
    refine ⟨es, hlog, hcalls, ⟨[], .nil, hstores⟩, ?_⟩
    rw [hmem, List.map_nil, spans_nil, Set.empty_union, ← span_one]
    exact Mem.eqOn_write8 _ _ _
  | cons d ds ih =>
    have hd := hdata d (List.mem_cons_self ..)
    obtain ⟨hdesc, vjob₁, c₁, hround, hrest⟩ := h.more_inv (by simp)
    obtain ⟨⟨es, size, hlog, hcalls, hstores, hsize⟩, hmem, hvq⟩ :=
      round_data hround hdesc hd.1 hd.not_lt
    -- the sector after this buffer does not wrap
    have hpriv : c₁.vq.priv.toNat = c.vq.priv.toNat + d.sectors := by
      rw [List.map_cons, List.sum_cons] at hlt
      have hcount : (d.length >>> 9).toNat = d.sectors := toNat_length_shiftRight d.length
      rw [hvq, BitVec.toNat_add, hcount]
      omega
    have hlt₁ : c₁.vq.priv.toNat + (ds.map VirtDesc.sectors).sum < 2 ^ 32 := by
      rw [hpriv, Nat.add_assoc, ← List.sum_cons, ← List.map_cons]
      exact hlt
    obtain ⟨es', hlog', hread⟩ := ih (fun d hd => hdata d (List.mem_cons_of_mem _ hd)) hlt₁ hrest
    obtain ⟨sizes, hsizes, hstores'⟩ := hread.stores
    refine ⟨es ++ es', by rw [hlog', hlog, List.append_assoc], ?_, ?_, ?_⟩
    · rw [sectorReads_append, hcalls, hread.calls, hpriv, readCalls_cons]
      rfl
    · refine ⟨size :: sizes, .cons hsize hsizes, ?_⟩
      rw [bufferStores_append, hstores, hstores']
      rfl
    · rw [List.map_cons, spans_cons, Set.union_assoc, Set.compl_union]
      exact (hread.mem.mono Set.inter_subset_right).trans (hmem.mono Set.inter_subset_left)

/-- The job of a request does what the request asks for, whatever `priv` was. -/
theorem JobRun.reads {head : U16} (r : ReadChain)
    (h : JobRun .sdmcDevice env vdevId (.start head) c r.descs vjob' c')
    (hsector : (vblkSectorOffset c.mem r.header.data).toNat = r.sector) :
    (⟨c, r.descs, vjob', c'⟩ : ServedChain).Reads r := by
  obtain ⟨hdesc, vjob₁, c₁, hround, hrest⟩ := JobRun.more_inv h (by simp)
  obtain ⟨⟨es, hlog, hcalls, hstores⟩, hmem, hvq⟩ := round_header hround hdesc r.header_readable
  -- of the 64-bit offset the low word is all
  have hpriv : c₁.vq.priv.toNat = r.sector := by
    have hlt := r.sector_lt
    rw [hvq, BitVec.toNat_setWidth, hsector]
    omega
  obtain ⟨es', hlog', hread⟩ := JobRun.buffersRead r.isData r.isStatus
    (by rw [hpriv]; exact r.sector_lt) hrest
  rw [hpriv, hmem] at hread
  have hes : c'.log = c.log ++ (es ++ es') := by
    rw [hlog', hlog, List.append_assoc]
  refine ⟨?_, ?_, ?_⟩
  · rw [eventsSince_eq hes]
    refine ⟨?_, ?_, hread.mem⟩
    · rw [sectorReads_append, hcalls, hread.calls]
      rfl
    · rw [bufferStores_append, hstores]
      exact hread.stores
  · exact hrest.status_eq_zero List.getLast?_concat r.isStatus.1 r.isStatus.2
  · have hsetup : c'.vq.SameSetup c.vq := by
      have hrun := iterate_sameSetup .sdmcDevice env vdevId ⟨.body, .start head, c⟩
        (2 * r.descs.length)
      rwa [h.iterate] at hrun
    rw [← hsetup.usedSpan]
    exact virtQueuePushUsed_eqOn _ _ _ _

end Rounds

/-! ### The session -/

section Session

variable {env : Env} {vdevId : U32} {s t : Config} {jobs : List ServedChain}

/-- Every chain of a session was processed by a job. -/
theorem Session.exists_jobRun {dev : Vdev} (h : Session dev env vdevId s jobs t) :
    ∀ job ∈ jobs, ∃ head,
      JobRun dev env vdevId (.start head) job.start job.descs job.vjob job.stop := by
  induction h with
  | nil => simp
  | chain _ hjob _ ih =>
    intro job hmem
    rcases List.mem_cons.mp hmem with rfl | hmem
    · exact ⟨_, hjob⟩
    · exact ih job hmem
  | ret _ _ ih => exact ih
  | call _ ih => exact ih

/-- Where rings and buffers are kept apart in the call that a chain belongs to, its descriptors are
those of the table entries linked from the head that was fetched. -/
theorem Session.linked {dev : Vdev} (h : Session dev env vdevId s jobs t) :
    ∀ job ∈ jobs, ∃ head, ∀ c₀, Separated c₀.mem c₀.vq →
      Frame c₀ ⟨.body, .start head, job.start⟩ →
        ∃ l, Chain (nextDesc c₀.mem c₀.vq.qDesc) head l ∧
          l.map (descOf c₀.mem c₀.vq) = job.descs := by
  intro job hmem
  obtain ⟨head, hjob⟩ := h.exists_jobRun job hmem
  exact ⟨head, fun c₀ hsep hframe => hjob.linked hframe hsep⟩

/-- What the fetch of a head records. -/
private theorem prQueue_fetchNew_log (dev : Vdev) (env : Env) (vdevId : U32) (vjob : VirtJob)
    (c : Ctx) :
    ∃ ret, (dev.prQueue env vdevId ⟨.fetchNew, vjob, c⟩).ctx.log = c.log ++ [.fetched ret] := by
  rw [dev.prQueue_eq]
  exact ⟨_, rfl⟩

/-- The sectors read in a session are those read for its chains. -/
private theorem Session.sectorReads_eq {dev : Vdev} (h : Session dev env vdevId s jobs t) :
    ∃ es, t.ctx.log = s.ctx.log ++ es ∧
      sectorReads es = jobs.flatMap fun job => sectorReads (eventsSince job.start job.stop) := by
  induction h with
  | nil => exact ⟨[], by simp, rfl⟩
  | @chain vjob vjob₂ head c c₁ c₂ ds jobs t hfetch hjob _ ih =>
    obtain ⟨es, hlog, hes⟩ := ih
    obtain ⟨ret, hret⟩ := prQueue_fetchNew_log dev env vdevId vjob c
    rw [hfetch] at hret
    have hstart : c₁.log = c.log ++ [.fetched ret] := hret
    have hpush : (virtQueuePushJob c₂ vjob₂).log =
        c₂.log ++ [.pushed vjob₂.firstDesc vjob₂.totalWritten] := rfl
    refine ⟨[.fetched ret] ++ eventsSince c₁ c₂ ++
      [.pushed vjob₂.firstDesc vjob₂.totalWritten] ++ es, ?_, ?_⟩
    · simp only [hlog, hpush, hjob.log_eq, hstart, List.append_assoc]
    · simp only [sectorReads_append, hes, List.flatMap_cons]
      simp [sectorReads]
  | @ret vjob vjob' c c' jobs t hret _ ih =>
    obtain ⟨es, hlog, hes⟩ := ih
    obtain ⟨ret, hfetch⟩ := prQueue_fetchNew_log dev env vdevId vjob c
    refine ⟨[.fetched ret] ++ es, ?_, ?_⟩
    · rw [Function.iterate_succ_apply, Function.iterate_one] at hret
      obtain ⟨head, c₁, hc₁⟩ | ⟨vjob₁, c₁, hc₁⟩ := prQueue_fetchNew_cases dev env vdevId vjob c
      · rw [hc₁, prQueue_body] at hret
        cases (Config.mk.inj hret).1
      · rw [hc₁] at hret hfetch
        rw [prQueue_notify] at hret
        obtain ⟨-, -, rfl⟩ := Config.mk.inj hret
        have hfetch : c₁.log = c.log ++ [.fetched ret] := hfetch
        rw [hlog, ← List.append_assoc, ← hfetch]
    · rw [sectorReads_append, hes]
      rfl
  | call _ ih => exact ih

/-- **Scatter-gather reads.** In every session of calls, with any current sector left over in the
queue, the sectors read for a read request are those its header and its buffers name, and only the
data buffers and the status byte are stored to; of a session of read requests alone, no other
sectors are read. -/
theorem scatterReads (env : Env) (vdevId : U32) (s t : Config) (jobs : List ServedChain)
    (h : Session .sdmcDevice env vdevId s jobs t) :
    (∀ job ∈ jobs, ∀ r, job.Carries r → job.Reads r) ∧
      ∀ rs, List.Forall₂ ServedChain.Carries jobs rs →
        sectorReads (eventsSince s.ctx t.ctx) = rs.flatMap ReadChain.calls := by
  have hjobs : ∀ job ∈ jobs, ∀ r, job.Carries r → job.Reads r := by
    rintro ⟨start, descs, vjob, stop⟩ hmem r hcarries
    obtain ⟨head, hjob⟩ := h.exists_jobRun _ hmem
    obtain rfl : descs = r.descs := hcarries.descs
    exact JobRun.reads r hjob hcarries.sector
  refine ⟨hjobs, ?_⟩
  intro rs hrs
  obtain ⟨es, hlog, hes⟩ := h.sectorReads_eq
  rw [eventsSince_eq hlog, hes]
  clear h hlog hes
  induction hrs with
  | nil => rfl
  | @cons job r jobs rs hcarries _ ih =>
    rw [List.flatMap_cons, List.flatMap_cons,
      ih fun job hmem => hjobs job (List.mem_cons_of_mem _ hmem),
      (hjobs job (List.mem_cons_self ..) r hcarries).buffers.calls]
    rfl

/-- A queue with one head pending, a request for the sectors from 5 on: a header at `0x21000000`,
two buffers of one and two sectors, and a status byte. An earlier request has left 77 in `priv`. -/
def staleCtx : Ctx where
  mem := guestMem [
    (0x20100002, 1),
    (0x20000003, 0x21), (0x20000008, 16), (0x2000000C, 1), (0x2000000E, 1),
    (0x20000013, 0x22), (0x20000019, 2), (0x2000001C, 3), (0x2000001E, 2),
    (0x20000023, 0x24), (0x20000029, 4), (0x2000002C, 3), (0x2000002E, 3),
    (0x20000033, 0x23), (0x20000038, 1), (0x2000003C, 2),
    (0x21000008, 5), (0x23000000, 0xFF)]
  log := []
  vq := { VirtQueue.configured 3 0x20000000 0x20100000 0x20200000 with priv := 77 }
  virq := virtIrqReset
  tick := 0

/-- The request of `staleCtx`. -/
def staleRequest : ReadChain where
  header := ⟨0x21000000, 16, HOST_TO_VDEV⟩
  data := [⟨0x22000000, 512, VDEV_TO_HOST⟩, ⟨0x24000000, 1024, VDEV_TO_HOST⟩]
  status := ⟨0x23000000, 1, VDEV_TO_HOST⟩
  sector := 5
  header_readable := rfl
  isData := by
    intro d hd
    simp only [List.mem_cons, List.not_mem_nil, or_false] at hd
    rcases hd with rfl | rfl
    · exact ⟨by decide, 1, by decide, rfl⟩
    · exact ⟨by decide, 2, by decide, rfl⟩
  isStatus := ⟨by decide, by decide⟩
  sector_lt := by decide

/-- The stale sector is not used: sector 5 goes to the first buffer, 6 and 7 to the second. -/
theorem scatterReads_stale : ∃ jobs t,
    Session .sdmcDevice idleEnv 0 (enter ⟨0, 0, 0⟩ staleCtx) jobs t ∧
      sectorReads (eventsSince staleCtx t.ctx) = [(5, 1, 0x22000000), (6, 2, 0x24000000)] := by
  have hfetch : virtQueueFetchAvailFirst staleCtx.mem staleCtx.vq =
      (((0 : U16).toNat : ℤ), { staleCtx.vq with availIdx := 1 }) := by decide
  obtain ⟨vjob', c', hjob⟩ : ∃ vjob' c', JobRun .sdmcDevice idleEnv 0 (.start 0)
      { staleCtx with
        log := staleCtx.log ++ [.fetched (0 : U16).toNat]
        vq := { staleCtx.vq with availIdx := 1 } } staleRequest.descs vjob' c' :=
    exists_jobRun_cons (i := 1) (by decide) (by decide)
      (exists_jobRun_cons (i := 2) (by decide) (by decide)
        (exists_jobRun_cons (i := 3) (by decide) (by decide)
          (exists_jobRun_singleton (by decide) (by decide))))
  have hsession : Session .sdmcDevice idleEnv 0 (enter ⟨0, 0, 0⟩ staleCtx) _ _ :=
    .chain (prQueue_fetchNew_of_head _ _ _ _ _ hfetch) hjob .nil
  have hsector : (vblkSectorOffset staleCtx.mem staleRequest.header.data).toNat =
      staleRequest.sector := by decide
  refine ⟨_, _, hsession, ?_⟩
  exact (scatterReads idleEnv 0 _ _ _ hsession).2 [staleRequest] (.cons ⟨rfl, hsector⟩ .nil)

end Session

end Arm9LinuxFw
