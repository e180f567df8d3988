import Arm9LinuxFw.Process.Answer
import Arm9LinuxFw.Process.Job
import Arm9LinuxFw.Vdev.Table

/-!
# The status byte of the block device

The final writable descriptor of a request is its status byte, and `sdmcProcessQueue` always
stores 0 (OK) there: it looks neither at the type of the request nor at the capacity, and drops
what `sdmmc_sdcard_readsectors` returns. So a success status means success for exactly those
requests that cannot fail.

* `JobRun.status_eq_zero`: the status byte is 0 at the push, whatever the request.
* `JobRun.cardCalls_eq`: the calls of the driver that a job makes are those that its descriptors
  name, with what the card answers to them. Which sector a descriptor names depends on the headers
  and the data buffers before it; `deliveries` goes through the chain and says so.
* `RequestOk` is what a success status should mean, in terms of what was done; `RequestFine` says
  of the header, the capacity that the device announces and the answers of the card that it will be
  so, before anything is done.
* `statusByte_iff`: the two agree, and the status byte is right for exactly these requests. For a
  header followed by data buffers the deliveries are spelled out: the buffers take consecutive
  sectors, from the low half of the header's offset on.
-/

namespace Arm9LinuxFw

open ByteMem Transition

variable {env : Env} {vdevId : U32} {vjob vjob' : VirtJob} {c c' : Ctx} {ds : List VirtDesc}

/-! ### The byte -/

/-- A short writable descriptor gets a zero byte. -/
private theorem sdmcBody_status {desc : VirtDesc} (hdir : desc.dir ≠ HOST_TO_VDEV)
    (hlt : desc.length < 512) (x : VirtJob × Ctx) : (sdmcBody env desc x).2.mem desc.data = 0 := by
  simp only [sdmcBody, if_neg hdir, if_pos hlt, Mem.write8_same]

/-- The last store of a job is the status byte of its last descriptor. -/
theorem JobRun.status_eq_zero (h : JobRun .sdmcDevice env vdevId vjob c ds vjob' c')
    {status : VirtDesc} (hlast : ds.getLast? = some status) (hdir : status.dir ≠ HOST_TO_VDEV)
    (hlt : status.length < 512) : c'.mem status.data = 0 := by
  induction h with
  | last h =>
    obtain ⟨es, hspec⟩ := roundSpec h
    rw [List.getLast?_singleton, Option.some.injEq] at hlast
    rw [hspec.mem, descStep_eq, hlast]
    exact sdmcBody_status hdir hlt _
  | more h hjob ih =>
    refine ih ?_
    rcases hjob with _ | _
    · rwa [List.getLast?_cons_cons] at hlast
    · rwa [List.getLast?_cons_cons] at hlast

/-! ### The calls of the driver -/

/-- A call `sdmmc_sdcard_readsectors(sector, count, out)`, with the result. -/
structure CardCall where
  sector : U32
  count : U32
  out : U32
  ret : ℤ

/-- The calls in a record of events. -/
def cardCalls (es : List Event) : List CardCall :=
  es.filterMap fun
    | .readsectors sector count out ret => some ⟨sector, count, out, ret⟩
    | _ => none

@[simp]
theorem cardCalls_append (es es' : List Event) :
    cardCalls (es ++ es') = cardCalls es ++ cardCalls es' := List.filterMap_append

/-- The calls of the card are those of the record. -/
private theorem mem_cardCalls {es : List Event} {call : CardCall} :
    call ∈ cardCalls es ↔ .readsectors call.sector call.count call.out call.ret ∈ es := by
  rw [cardCalls, List.mem_filterMap]
  constructor
  · rintro ⟨e, he, hcall⟩
    cases e <;> cases hcall
    exact he
  · intro h
    exact ⟨_, h, rfl⟩

/-- The driver is asked for sectors: the descriptor is writable, and takes one or more. -/
def Delivery.AsksCard (d : Delivery) : Prop :=
  d.desc.dir ≠ HOST_TO_VDEV ∧ ¬ d.desc.length < 512

instance (d : Delivery) : Decidable d.AsksCard := inferInstanceAs (Decidable (_ ∧ _))

/-- What the card answers to the call that a descriptor asks for. -/
def Delivery.reply (d : Delivery) (env : Env) : CardReply :=
  env.card d.tick d.sector (d.desc.length >>> 9) d.desc.data

/-- The calls that a descriptor asks for. -/
def Delivery.calls (d : Delivery) (env : Env) : List CardCall :=
  if d.AsksCard then [⟨d.sector, d.desc.length >>> 9, d.desc.data, (d.reply env).ret⟩] else []

/-- The calls that the device specific part makes. -/
private theorem sdmcBody_cardCalls (env : Env) (d : Delivery) (vjob : VirtJob) (c : Ctx)
    (htick : c.tick = d.tick) (hsector : c.vq.priv = d.sector) :
    ∃ es, (sdmcBody env d.desc (vjob, c)).2.log = c.log ++ es ∧ cardCalls es = d.calls env := by
  rw [Delivery.calls]
  by_cases hdir : d.desc.dir = HOST_TO_VDEV
  · rw [if_neg (fun h => h.1 hdir)]
    simp only [sdmcBody, if_pos hdir]
    exact ⟨_, rfl, rfl⟩
  by_cases hlt : d.desc.length < 512
  · rw [if_neg (fun h => h.2 hlt)]
    simp only [sdmcBody, if_neg hdir, if_pos hlt]
    exact ⟨_, rfl, rfl⟩
  · rw [if_pos ⟨hdir, hlt⟩]
    simp only [sdmcBody, if_neg hdir, if_neg hlt, sdmmcSdcardReadsectors, htick, hsector]
    exact ⟨_, rfl, rfl⟩

/-- The table accesses of a round are no calls. -/
private theorem cardCalls_getEvents (vjob : VirtJob) (c : Ctx) :
    cardCalls (getEvents vjob c) = [] := by
  rw [getEvents]
  split_ifs <;> rfl

/-- A round makes the calls that its descriptor asks for. -/
private theorem round_cardCalls {pc : Pc}
    (h : (Vdev.prQueue .sdmcDevice env vdevId)^[2] ⟨.body, vjob, c⟩ = ⟨pc, vjob', c'⟩) :
    ∃ es, c'.log = c.log ++ es ∧ cardCalls es = (delivery env vjob c).calls env := by
  obtain ⟨es, hlog, hes⟩ := sdmcBody_cardCalls env (delivery env vjob c) vjob (bodyCtx vjob c)
    rfl rfl
  refine ⟨getEvents vjob c ++ es ++ [.desc vjob.currentDesc], ?_, ?_⟩
  · rw [(round_eq h).2, descStep_eq]
    change (sdmcBody env (delivery env vjob c).desc (vjob, bodyCtx vjob c)).2.log ++ _ = _
    rw [hlog, bodyCtx]
    simp only [List.append_assoc]
  · rw [cardCalls_append, cardCalls_append, cardCalls_getEvents, hes]
    exact List.append_nil _

/-- A round leaves memory, the hardware and the sector as its delivery says. -/
private theorem round_answer {dev : Vdev} {pc : Pc}
    (h : (dev.prQueue env vdevId)^[2] ⟨.body, vjob, c⟩ = ⟨pc, vjob', c'⟩) :
    c'.mem = c.mem.writeBytes (delivery env vjob c).desc.data
        (dev.answer env (delivery env vjob c)) ∧
      c'.tick = (delivery env vjob c).tick + dev.draws (delivery env vjob c).desc ∧
      c'.vq.priv = dev.nextSector c.mem (delivery env vjob c) := by
  rw [(round_eq h).2]
  exact descStep_answer dev env vjob c

/-- A job makes the calls that its descriptors ask for, in their order. -/
private theorem JobRun.cardCalls_eq (h : JobRun .sdmcDevice env vdevId vjob c ds vjob' c') :
    cardCalls (eventsSince c c') =
      (deliveries .sdmcDevice env c.mem c.tick c.vq.priv ds).flatMap (Delivery.calls · env) := by
  obtain ⟨es, hlog, hes⟩ : ∃ es, c'.log = c.log ++ es ∧ cardCalls es =
      (deliveries .sdmcDevice env c.mem c.tick c.vq.priv ds).flatMap (Delivery.calls · env) := by
    induction h with
    | last h =>
      obtain ⟨es, hlog, hes⟩ := round_cardCalls h
      refine ⟨es, hlog, ?_⟩
      rw [hes, deliveries, deliveries, List.flatMap_cons, List.flatMap_nil, List.append_nil]
      rfl
    | more h _ ih =>
      obtain ⟨es, hlog, hes⟩ := round_cardCalls h
      obtain ⟨es', hlog', hes'⟩ := ih
      obtain ⟨hmem, htick, hpriv⟩ := round_answer h
      refine ⟨es ++ es', by rw [hlog', hlog, List.append_assoc], ?_⟩
      rw [cardCalls_append, hes, hes', hmem, htick, hpriv, deliveries, List.flatMap_cons]
      rfl
  rw [eventsSince_eq hlog, hes]

/-! ### Requests -/

/-- What a success status should mean: a read of sectors within the capacity, of which no driver
call failed. -/
structure RequestOk (cfg : BlkConfig) (header : VirtDesc) (data : List VirtDesc) (c c' : Ctx) :
    Prop where
  isRead : vblkType c.mem header.data = 0
  inCapacity : 512 * (vblkSectorOffset c.mem header.data).toNat +
    (data.map fun d => d.length.toNat).sum ≤ 512 * cfg.capacity.toNat
  noError : ∀ sector count out ret, .readsectors sector count out ret ∈ eventsSince c c' → ret = 0

/-- A request that will be carried out: a read of sectors within the capacity, and the card gives
no error for what its descriptors name. -/
structure RequestFine (env : Env) (cfg : BlkConfig) (header : VirtDesc) (data : List VirtDesc)
    (c : Ctx) : Prop where
  isRead : vblkType c.mem header.data = 0
  inCapacity : 512 * (vblkSectorOffset c.mem header.data).toNat +
    (data.map fun d => d.length.toNat).sum ≤ 512 * cfg.capacity.toNat
  noError : ∀ d ∈ deliveries .sdmcDevice env c.mem c.tick c.vq.priv (header :: data),
    d.AsksCard → (d.reply env).ret = 0

/-- How many sectors a data buffer takes. -/
def VirtDesc.sectors (desc : VirtDesc) : ℕ := desc.length.toNat / 512

/-- What a list of data buffers asks for, from an answer of the hardware and a sector on: each
buffer continues where the ones before it end. -/
def dataDeliveries (tick : ℕ) (sector : U32) (data : List VirtDesc) : List Delivery :=
  data.mapIdx fun i d =>
    ⟨d, tick + i + (data.take i).countP fun d => ¬ d.length < 512,
      sector + BitVec.ofNat 32 ((data.take i).map VirtDesc.sectors).sum⟩

/-- Each data buffer begins where the one before it ended. -/
private theorem dataDeliveries_cons (tick : ℕ) (sector : U32) (d : VirtDesc)
    (data : List VirtDesc) :
    dataDeliveries tick sector (d :: data) = ⟨d, tick, sector⟩ ::
      dataDeliveries (tick + 1 + if d.length < 512 then 0 else 1)
        (sector + BitVec.ofNat 32 d.sectors) data := by
  rw [dataDeliveries, List.mapIdx_cons, dataDeliveries]
  refine congrArg₂ _ (by simp) (congrArg (List.mapIdx · data) ?_)
  funext i d'
  simp only [List.take_succ_cons, List.countP_cons, List.map_cons, List.sum_cons, BitVec.ofNat_add,
    BitVec.add_assoc, Delivery.mk.injEq, and_true, true_and]
  by_cases hlt : d.length < 512
  · simp only [hlt, not_true, decide_false, Bool.false_eq_true, if_false, if_true]
    omega
  · simp only [hlt, not_false_eq_true, decide_true, if_true, if_false]
    omega

/-- Data buffers take consecutive sectors. -/
private theorem deliveries_writable {data : List VirtDesc}
    (hdata : ∀ d ∈ data, d.dir ≠ HOST_TO_VDEV)
    (m : Mem) (tick : ℕ) (sector : U32) :
    deliveries .sdmcDevice env m tick sector data = dataDeliveries (tick + 1) sector data := by
  induction data generalizing m tick sector with
  | nil => rfl
  | cons d data ih =>
    rw [List.forall_mem_cons] at hdata
    rw [deliveries, ih hdata.2, dataDeliveries_cons]
    have hdraws : Vdev.draws .sdmcDevice d = if d.length < 512 then 0 else 1 := by
      simp only [Vdev.draws, hdata.1, false_or]
    have hnext : Vdev.nextSector .sdmcDevice m ⟨d, tick + 1, sector⟩ =
        sector + BitVec.ofNat 32 d.sectors := by
      simp only [Vdev.nextSector, if_neg hdata.1, VirtDesc.sectors]
      split_ifs with hlt
      · have hlt : d.length.toNat < 512 := hlt
        rw [Nat.div_eq_of_lt hlt]
        exact (BitVec.add_zero _).symm
      · rw [← toNat_length_shiftRight, BitVec.ofNat_toNat, BitVec.setWidth_eq]
    rw [hdraws, hnext]
    have htick : tick + 1 + (if d.length < 512 then 0 else 1) + 1 =
        tick + 1 + 1 + if d.length < 512 then 0 else 1 := by omega
    exact congrArg (_ :: dataDeliveries · _ _) htick

/-- A header names the first sector; the data buffers behind it take it from there. -/
private theorem deliveries_request {header : VirtDesc} {data : List VirtDesc}
    (hheader : header.dir = HOST_TO_VDEV) (hdata : ∀ d ∈ data, d.dir ≠ HOST_TO_VDEV) (m : Mem)
    (tick : ℕ) (sector : U32) :
    deliveries .sdmcDevice env m tick sector (header :: data) = ⟨header, tick + 1, sector⟩ ::
      dataDeliveries (tick + 2) ((vblkSectorOffset m header.data).setWidth 32) data := by
  rw [deliveries, deliveries_writable hdata]
  simp only [Vdev.nextSector, Vdev.draws, hheader, true_or, if_true, Nat.add_zero]

/-- The status descriptor asks for no sectors. -/
private theorem deliveries_status {status : VirtDesc} (hlt : status.length < 512) (m : Mem)
    (tick : ℕ)
    (sector : U32) (ds : List VirtDesc) :
    (deliveries .sdmcDevice env m tick sector (ds ++ [status])).flatMap (Delivery.calls · env) =
      (deliveries .sdmcDevice env m tick sector ds).flatMap (Delivery.calls · env) := by
  induction ds generalizing m tick sector with
  | nil =>
    have hnone : ¬ (⟨status, tick + 1, sector⟩ : Delivery).AsksCard := fun h => h.2 hlt
    rw [List.nil_append, deliveries, deliveries, deliveries, List.flatMap_cons, Delivery.calls,
      if_neg hnone, List.nil_append]
  | cons d ds ih =>
    rw [List.cons_append, deliveries, deliveries, List.flatMap_cons, List.flatMap_cons, ih]

/-- No call fails if and only if the card gives no error for what the descriptors name. -/
private theorem forall_calls_iff {l : List Delivery} :
    (∀ call ∈ l.flatMap (Delivery.calls · env), call.ret = 0) ↔
      ∀ d ∈ l, d.AsksCard → (d.reply env).ret = 0 := by
  simp only [List.mem_flatMap, forall_exists_index, and_imp]
  constructor
  · intro h d hd hasks
    exact h _ d hd (by rw [Delivery.calls, if_pos hasks]; exact List.mem_singleton_self _)
  · intro h call d hd hcall
    rw [Delivery.calls] at hcall
    split_ifs at hcall with hasks
    · rw [List.mem_singleton.mp hcall]
      exact h d hd hasks
    · cases hcall

/-- The condition on a request says of its run that it went well. -/
private theorem requestOk_iff_fine {cfg : BlkConfig} {header status : VirtDesc}
    {data : List VirtDesc}
    (hjob : JobRun .sdmcDevice env vdevId vjob c (header :: data ++ [status]) vjob' c')
    (hlt : status.length < 512) :
    RequestOk cfg header data c c' ↔ RequestFine env cfg header data c := by
  have hcalls : (∀ sector count out ret,
      .readsectors sector count out ret ∈ eventsSince c c' → ret = 0) ↔
      ∀ d ∈ deliveries .sdmcDevice env c.mem c.tick c.vq.priv (header :: data),
        d.AsksCard → (d.reply env).ret = 0 := by
    rw [← forall_calls_iff, ← deliveries_status hlt, ← hjob.cardCalls_eq]
    constructor
    · intro h call hcall
      exact h _ _ _ _ (mem_cardCalls.mp hcall)
    · intro h sector count out ret hcall
      exact h ⟨sector, count, out, ret⟩ (mem_cardCalls.mpr hcall)
  constructor
  · rintro ⟨hread, hcap, herr⟩
    exact ⟨hread, hcap, hcalls.mp herr⟩
  · rintro ⟨hread, hcap, herr⟩
    exact ⟨hread, hcap, hcalls.mpr herr⟩

/-- In a call of `sdmcProcessQueue` by the firmware in state `w`, a head is fetched, in `c`, and its
chain is run through up to the push, in `c'`. -/
def ServesChain (env : Env) (w : Fw World) (ds : List VirtDesc) (c c' : Ctx) : Prop :=
  ∃ n head vjob vjob',
    (Vdev.prQueue .sdmcDevice env (w.devs 1).id)^[n] (enter vjob (w.ctx (1, 0))) =
      ⟨.body, .start head, c⟩ ∧
    JobRun .sdmcDevice env (w.devs 1).id (.start head) c ds vjob' c'

/-- **The status byte.** For a chain of a header, data descriptors and a final writable descriptor
shorter than a sector, the status byte means what it says if and only if the request is a read,
within the capacity that the device announces, and the card gives no error for the sectors that the
descriptors name. These are consecutive, from the header's sector on, if the data descriptors are
writable, as they are in a read. -/
theorem statusByte_iff (env : Env) (w : Fw World) (c c' : Ctx) (header status : VirtDesc)
    (data : List VirtDesc) (h : ServesChain env w (header :: data ++ [status]) c c')
    (hdir : status.dir ≠ HOST_TO_VDEV) (hlt : status.length < 512) :
    ((c'.mem status.data = 0 → RequestOk w.ext.sdmcBlkConfig header data c c') ↔
        RequestFine env w.ext.sdmcBlkConfig header data c) ∧
      (header.dir = HOST_TO_VDEV → (∀ d ∈ data, d.dir ≠ HOST_TO_VDEV) →
        deliveries .sdmcDevice env c.mem c.tick c.vq.priv (header :: data) =
          ⟨header, c.tick + 1, c.vq.priv⟩ ::
            dataDeliveries (c.tick + 2) ((vblkSectorOffset c.mem header.data).setWidth 32)
              data) := by
  obtain ⟨-, head, -, vjob', -, hjob⟩ := h
  have hzero : c'.mem status.data = 0 := hjob.status_eq_zero List.getLast?_concat hdir hlt
  refine ⟨?_, fun hheader hdata => deliveries_request hheader hdata _ _ _⟩
  rw [← requestOk_iff_fine hjob hlt]
  exact ⟨fun h => h hzero, fun h _ => h⟩

/-! ### Examples -/

/-- Hardware that stores nothing and reports success. -/
def idleEnv : Env where
  hot _ := 0
  card _ _ _ _ := ⟨0, []⟩
  junk _ := ⟨0, 0, 0⟩
  card_le _ _ _ _ := Nat.zero_le _

/-- A card of which sectors 5 and 6 can be read, and no others. -/
def wornEnv : Env where
  hot _ := 0
  card _ sector count _ := ⟨if 5 ≤ sector ∧ sector + count ≤ 7 then 0 else -1, []⟩
  junk _ := ⟨0, 0, 0⟩
  card_le _ _ _ _ := Nat.zero_le _

/-- The firmware with a card of 4096 sectors and a request of the given type for sector 5 pending: a
header at `0x21000000`, two buffers of a sector each, and a status byte at `0x23000000`, which is
`0xFF`. -/
def blkWorld (type : U8) : Fw World :=
  { powerOn with
    vqs := fun _ _ => .configured 3 0x20000000 0x20100000 0x20200000
    ext :=
      { bus :=
          { mem := guestMem [
              (0x20100002, 1),
              (0x20000003, 0x21), (0x20000008, 16), (0x2000000C, 1), (0x2000000E, 1),
              (0x20000013, 0x22), (0x20000019, 2), (0x2000001C, 3), (0x2000001E, 2),
              (0x20000023, 0x24), (0x20000029, 2), (0x2000002C, 3), (0x2000002E, 3),
              (0x20000033, 0x23), (0x20000038, 1), (0x2000003C, 2),
              (0x21000004, type), (0x21000008, 5), (0x23000000, 0xFF)]
            log := [] }
        tick := 0
        sdmcBlkConfig := sdmcHardReset 4096
        total_size := 4096 } }

/-- The request of `blkWorld`. -/
def blkHeader : VirtDesc := ⟨0x21000000, 16, HOST_TO_VDEV⟩

def blkData : List VirtDesc := [⟨0x22000000, 512, VDEV_TO_HOST⟩, ⟨0x24000000, 512, VDEV_TO_HOST⟩]

def blkStatus : VirtDesc := ⟨0x23000000, 1, VDEV_TO_HOST⟩

/-- The context in which the request of `blkWorld` is fetched. -/
def blkFetched (type : U8) : Ctx :=
  { (blkWorld type).ctx (1, 0) with
    log := [.fetched 0]
    vq := { VirtQueue.configured 3 0x20000000 0x20100000 0x20200000 with availIdx := 1 } }

/-- A card that stores nothing leaves the chain alone. -/
theorem exists_servesChain (env : Env) (type : U8)
    (hfetch : virtQueueFetchAvailFirst ((blkWorld type).ctx (1, 0)).mem
      ((blkWorld type).ctx (1, 0)).vq = (((0 : U16).toNat : ℤ), (blkFetched type).vq))
    (hjob : ∃ vjob' c', JobRun .sdmcDevice env 0 (.start 0) (blkFetched type)
      (blkHeader :: blkData ++ [blkStatus]) vjob' c') :
    ∃ c', ServesChain env (blkWorld type) (blkHeader :: blkData ++ [blkStatus])
      (blkFetched type) c' := by
  obtain ⟨vjob', c', hjob⟩ := hjob
  have hfirst := prQueue_fetchNew_of_head .sdmcDevice env 0 ⟨0, 0, 0⟩ _ hfetch
  exact ⟨c', 1, 0, ⟨0, 0, 0⟩, vjob', hfirst, hjob⟩

/-- A read of sectors 5 and 6, all that the card can read. -/
theorem statusByte_read : ∃ c', ServesChain wornEnv (blkWorld 0)
      (blkHeader :: blkData ++ [blkStatus]) (blkFetched 0) c' ∧
    (c'.mem blkStatus.data = 0 →
      RequestOk (blkWorld 0).ext.sdmcBlkConfig blkHeader blkData (blkFetched 0) c') := by
  obtain ⟨c', hserves⟩ := exists_servesChain wornEnv 0 (by decide)
    (exists_jobRun_cons (i := 1) (by decide) (by decide)
      (exists_jobRun_cons (i := 2) (by decide) (by decide)
        (exists_jobRun_cons (i := 3) (by decide) (by decide)
          (exists_jobRun_singleton (by decide) (by decide)))))
  obtain ⟨hiff, hdeliveries⟩ := statusByte_iff _ _ _ _ _ _ _ hserves (by decide) (by decide)
  refine ⟨c', hserves, hiff.mpr ⟨by decide, by decide, ?_⟩⟩
  rw [hdeliveries (by decide) (by decide)]
  decide

/-- A write (type 1) is answered with success. -/
theorem statusByte_write : ∃ c', ServesChain idleEnv (blkWorld 1)
      (blkHeader :: blkData ++ [blkStatus]) (blkFetched 1) c' ∧
    ¬ (c'.mem blkStatus.data = 0 →
      RequestOk (blkWorld 1).ext.sdmcBlkConfig blkHeader blkData (blkFetched 1) c') := by
  obtain ⟨c', hserves⟩ := exists_servesChain idleEnv 1 (by decide)
    (exists_jobRun_cons (i := 1) (by decide) (by decide)
      (exists_jobRun_cons (i := 2) (by decide) (by decide)
        (exists_jobRun_cons (i := 3) (by decide) (by decide)
          (exists_jobRun_singleton (by decide) (by decide)))))
  refine ⟨c', hserves, ?_⟩
  obtain ⟨-, head, -, vjob', -, hjob⟩ := id hserves
  have hzero : c'.mem blkStatus.data = 0 :=
    hjob.status_eq_zero List.getLast?_concat (by decide) (by decide)
  intro h
  exact absurd (h hzero).isRead (by decide)

end Arm9LinuxFw
