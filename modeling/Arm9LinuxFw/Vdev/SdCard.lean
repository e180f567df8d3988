import Arm9LinuxFw.Lib.Bytes
import Arm9LinuxFw.Virt.Job

/-!
# The block device

`vdev/sdcard.c`: a readable descriptor is a request header and sets the current sector, which
lives in the queue's `priv`; a writable descriptor of at least one sector is read from the
card, a shorter one is a status byte.

* `sdmmcSdcardReadsectors` is the driver as the device sees it: the card of the environment
  answers with a code and some bytes, which are stored from the start of the buffer on. That the
  driver of `hw/sdmmc.c` is of this kind is shown in `Hw/SdComplete`.
* `sdmcBody` is the part inside the loops. The result of a read is dropped, as in the
  source; the type of a request is not looked at.
* `BlkConfig` is the configuration space, a structure of bytes in memory, of which the device fills
  in the capacity when it is reset (`sdmcHardReset`).
-/

namespace Arm9LinuxFw

open ByteMem

/-- `sdmmc_sdcard_readsectors(sector, count, out)` -/
def sdmmcSdcardReadsectors (env : Env) (c : Ctx) (sector count out : U32) : ℤ × Ctx :=
  let reply := env.card c.tick sector count out
  (reply.ret,
    { c with
      mem := c.mem.writeBytes out reply.bytes
      log := c.log ++ [.readsectors sector count out reply.ret, .store out reply.bytes.length]
      tick := c.tick + 1 })

/-- `vblk_t::type` of a request header. -/
def vblkType (m : Mem) (blk : U32) : U32 := m.read32 (blk + BitVec.ofNat 32 4)

/-- `vblk_t::sector_offset` of a request header. -/
def vblkSectorOffset (m : Mem) (blk : U32) : U64 := m.read64 (blk + BitVec.ofNat 32 8)

/-- The body of the inner loop of `sdmcProcessQueue`. -/
def sdmcBody : Body := fun env desc (vjob, c) =>
  if desc.dir = HOST_TO_VDEV then
    (vjob,
      { c with
        -- of the 64-bit offset the low word is kept
        log := c.log ++ [.load (desc.data + BitVec.ofNat 32 8) 8]
        vq := { c.vq with priv := (vblkSectorOffset c.mem desc.data).setWidth 32 } })
  else if desc.length < 512 then
    -- always OK, and not credited to the job
    (vjob, { c with mem := c.mem.write8 desc.data 0, log := c.log ++ [.store desc.data 1] })
  else
    let sectors := desc.length >>> 9
    -- the driver's result is dropped
    let (_, c) := sdmmcSdcardReadsectors env c c.vq.priv sectors desc.data
    (virtJobAddWritten vjob desc.length,
      { c with vq := { c.vq with priv := c.vq.priv + sectors } })

/-- The driver is asked for the whole sectors of a buffer. -/
theorem toNat_length_shiftRight (length : U32) : (length >>> 9).toNat = length.toNat / 512 := by
  rw [BitVec.toNat_ushiftRight, Nat.shiftRight_eq_div_pow]

/-- `sdmcProcessQueue`, step by step. -/
def sdmcProcessQueue : Env → U32 → Config → Config := processQueue sdmcBody

/-! ### Configuration space -/

/-- `blk_config`, in the order of its fields. -/
structure BlkConfig where
  capacity : U64
  size_max : U32
  seg_max : U32
  cylinders : U16
  heads : U8
  sectors : U8
  blk_size : U32
  physical_block_exp : U8
  alignment_offset : U8
  min_io_size : U16
  opt_io_size : U32
  writeback : U8
  max_discard_sectors : U32
  max_discard_seg : U32
  discard_sector_alignment : U32
  max_write_zeroes_sectors : U32
  max_write_zeroes_seg : U32
  write_zeroes_may_unmap : U8

/-- A `blk_config` in memory, with its fields `unused0` and `unused1`, which are zero. -/
def BlkConfig.bytes (c : BlkConfig) : List U8 :=
  leBytes c.capacity ++ leBytes c.size_max ++ leBytes c.seg_max ++
  leBytes c.cylinders ++ leBytes c.heads ++ leBytes c.sectors ++
  leBytes c.blk_size ++
  leBytes c.physical_block_exp ++ leBytes c.alignment_offset ++
  leBytes c.min_io_size ++ leBytes c.opt_io_size ++
  leBytes c.writeback ++ [0, 0, 0] ++
  leBytes c.max_discard_sectors ++ leBytes c.max_discard_seg ++
  leBytes c.discard_sector_alignment ++
  leBytes c.max_write_zeroes_sectors ++ leBytes c.max_write_zeroes_seg ++
  leBytes c.write_zeroes_may_unmap ++ [0, 0, 0]

/-- `sizeof(blk_config)` -/
theorem BlkConfig.length_bytes (c : BlkConfig) : c.bytes.length = 60 := by
  unfold bytes
  simp only [List.length_append, length_leBytes, List.length_cons, List.length_nil,
    Nat.reduceDiv, Nat.reduceAdd]

/-- What `sdmcHardReset` makes of the configuration, `size` being `sdmmc_sdcard_size()`. -/
def sdmcHardReset (size : U32) : BlkConfig where
  capacity := size.setWidth 64
  size_max := 0
  seg_max := 0
  cylinders := 0
  heads := 0
  sectors := 0
  blk_size := 512
  physical_block_exp := 0
  alignment_offset := 0
  min_io_size := 0
  opt_io_size := 0
  writeback := 0
  max_discard_sectors := 0
  max_discard_seg := 0
  discard_sector_alignment := 0
  max_write_zeroes_sectors := 0
  max_write_zeroes_seg := 0
  write_zeroes_may_unmap := 0

end Arm9LinuxFw
