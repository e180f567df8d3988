import Arm9LinuxFw.Common
import Arm9LinuxFw.Lib.Hoare

/-!
# The SD/MMC driver

`hw/sdmmc.c`, the functions of the file one by one.

* `SdmmcHw` is the controller: any machine that answers reads and writes of its registers, of 16 or
  32 bits. Nothing else is known of it here, so what is proved of the driver from this module alone
  holds of a broken controller too.
* `SdState` is what the driver works on: the controller, memory, the handles of the two drives
  (`Mmcdevice`), and a record of every access and of every command sent, with the fields of the
  handle that the command left. The record is for the theorems; the driver does not read it.
* `SdProg` is a program over such states (`Prog` of `Lib/Hoare`). A program that polls the
  controller may poll it for ever, so every loop takes fuel, and one that runs out of it stops
  where it is: there is no result then, but there is a state, and what holds at whatever point
  the driver is stopped holds of those states as well.
* `sdmmcSendCommand` is in the pieces that the comments of the source name, `prepareCommand`, the
  polling with `pollRound`, and `collectResponse`; `passBlock` is the loop over the FIFO which the
  source has once for each direction.
* `sdInit`, `nandInit` and `sdmmcSdcardInit` start the drives, by commands that are followed by a
  look at the error (`commandOr`), and wait for a drive to be up in `untilReady`.

The delays in between (`wait`, `wait_msec`) only let time pass, and are left out: a controller may
change its mind at any access.
-/

namespace Arm9LinuxFw.Sdmmc

open Hoare

/-! ### Registers -/

/-- `SDMMC_BASE` -/
def SDMMC_BASE : U32 := 0x10006000

def REG_SDCMD : U16 := 0x00
def REG_SDPORTSEL : U16 := 0x02
def REG_SDCMDARG0 : U16 := 0x04
def REG_SDCMDARG1 : U16 := 0x06
def REG_SDSTOP : U16 := 0x08
def REG_SDBLKCOUNT : U16 := 0x0a
def REG_SDRESP0 : U16 := 0x0c
def REG_SDRESP1 : U16 := 0x0e
def REG_SDRESP2 : U16 := 0x10
def REG_SDRESP3 : U16 := 0x12
def REG_SDRESP4 : U16 := 0x14
def REG_SDRESP5 : U16 := 0x16
def REG_SDRESP6 : U16 := 0x18
def REG_SDRESP7 : U16 := 0x1a
def REG_SDSTATUS0 : U16 := 0x1c
def REG_SDSTATUS1 : U16 := 0x1e
def REG_SDIRMASK0 : U16 := 0x20
def REG_SDIRMASK1 : U16 := 0x22
def REG_SDCLKCTL : U16 := 0x24
def REG_SDBLKLEN : U16 := 0x26
def REG_SDOPT : U16 := 0x28
def REG_DATACTL : U16 := 0xd8
def REG_SDRESET : U16 := 0xe0
def REG_DATACTL32 : U16 := 0x100
def REG_SDBLKLEN32 : U16 := 0x104
def REG_SDBLKCOUNT32 : U16 := 0x108
def REG_SDFIFO32 : U16 := 0x10C

def TMIO_STAT0_CMDRESPEND : U16 := 0x0001
def TMIO_STAT0_DATAEND : U16 := 0x0004
def TMIO_STAT0_SIGSTATE : U16 := 0x0020
def TMIO_STAT1_RXRDY : U16 := 0x0100
def TMIO_STAT1_TXRQ : U16 := 0x0200
def TMIO_STAT1_CMD_BUSY : U16 := 0x4000

def TMIO_MASK_ALL : U32 := 0x837F031D

/-- `TMIO_MASK_GW`: the errors. -/
def TMIO_MASK_GW : U16 := 0x807F

/-! ### State -/

/-- A controller, by what accesses at an address do to it. -/
structure SdmmcHw (σ : Type) where
  read16 : U32 → σ → U16 × σ
  write16 : U32 → U16 → σ → σ
  read32 : U32 → σ → U32 × σ
  write32 : U32 → U32 → σ → σ

/-- An access, with the value read or written. -/
inductive SdAccess
  | read16 (a : U32) (v : U16)
  | write16 (a : U32) (v : U16)
  | read32 (a : U32) (v : U32)
  | write32 (a : U32) (v : U32)
  deriving DecidableEq

/-- `mmcdevice`. A pointer is an address, and `NULL` is zero. -/
structure Mmcdevice where
  rData : U32
  tData : U32
  size : U32
  error : U32
  stat0 : U16
  stat1 : U16
  ret0 : U32
  ret1 : U32
  ret2 : U32
  ret3 : U32
  initarg : U32
  isSDHC : U32
  clk : U32
  SDOPT : U32
  devicenumber : U32
  total_size : U32
  res : U32
  deriving DecidableEq

/-- The two handles of the driver. -/
inductive MmcDrive
  | handleNAND
  | handleSD
  deriving DecidableEq

/-- `getMMCDevice`. -/
def getMMCDevice (drive : ℤ) : MmcDrive := if drive = 0 then .handleNAND else .handleSD

/-- A command gone through: for which drive, its code and argument, and the handle after it. -/
structure SdCommand where
  drive : MmcDrive
  cmd : U32
  args : U32
  reply : Mmcdevice

/-- Controller, memory and handles, with the record of accesses and that of commands. -/
structure SdState (σ : Type) where
  hw : σ
  mem : Mem
  dev : MmcDrive → Mmcdevice
  trace : List SdAccess
  commands : List SdCommand

abbrev SdProg (σ α : Type) := Prog (SdState σ) α

section Driver

variable {σ : Type} (H : SdmmcHw σ)

/-! ### Accesses -/

namespace SdState

variable (s : SdState σ)

/-- After a read of 16 bits. -/
def onRead16 (a : U32) : SdState σ :=
  { s with
    hw := (H.read16 a s.hw).2
    trace := s.trace ++ [.read16 a (H.read16 a s.hw).1] }

/-- After a write of 16 bits. -/
def onWrite16 (a : U32) (v : U16) : SdState σ :=
  { s with hw := H.write16 a v s.hw, trace := s.trace ++ [.write16 a v] }

/-- After a read of 32 bits. -/
def onRead32 (a : U32) : SdState σ :=
  { s with
    hw := (H.read32 a s.hw).2
    trace := s.trace ++ [.read32 a (H.read32 a s.hw).1] }

/-- After a write of 32 bits. -/
def onWrite32 (a : U32) (v : U32) : SdState σ :=
  { s with hw := H.write32 a v s.hw, trace := s.trace ++ [.write32 a v] }

end SdState

def busRead16 (a : U32) : SdProg σ U16 := modifyGet fun s =>
  ((H.read16 a s.hw).1, s.onRead16 H a)

def busWrite16 (a : U32) (v : U16) : SdProg σ PUnit := modify fun s => s.onWrite16 H a v

def busRead32 (a : U32) : SdProg σ U32 := modifyGet fun s =>
  ((H.read32 a s.hw).1, s.onRead32 H a)

def busWrite32 (a : U32) (v : U32) : SdProg σ PUnit := modify fun s => s.onWrite32 H a v

/-- The address of a register. -/
def sdReg (reg : U16) : U32 := SDMMC_BASE + reg.setWidth 32

/-- `sdmmc_read16` -/
def sdmmcRead16 (reg : U16) : SdProg σ U16 := busRead16 H (sdReg reg)

/-- `sdmmc_write16` -/
def sdmmcWrite16 (reg val : U16) : SdProg σ PUnit := busWrite16 H (sdReg reg) val

/-- `sdmmc_read32` -/
def sdmmcRead32 (reg : U16) : SdProg σ U32 := busRead32 H (sdReg reg)

/-- `sdmmc_write32` -/
def sdmmcWrite32 (reg : U16) (val : U32) : SdProg σ PUnit := busWrite32 H (sdReg reg) val

/-- `sdmmc_mask16` -/
def sdmmcMask16 (reg clear set : U16) : SdProg σ PUnit := do
  let val ← sdmmcRead16 H reg
  sdmmcWrite16 H reg (val &&& ~~~clear ||| set)

/-- `setckl` -/
def setckl (data : U32) : SdProg σ PUnit := do
  sdmmcWrite16 H REG_SDCLKCTL ((data &&& 0xFF).setWidth 16)
  sdmmcWrite16 H REG_SDCLKCTL ((bit 32 8 ||| data &&& 0x2FF).setWidth 16)

/-- A handle. -/
def getDev (d : MmcDrive) : SdProg σ Mmcdevice := modifyGet fun s => (s.dev d, s)

/-- After an assignment to fields of a handle. -/
def SdState.assign (s : SdState σ) (d : MmcDrive) (f : Mmcdevice → Mmcdevice) : SdState σ :=
  { s with dev := Function.update s.dev d (f (s.dev d)) }

/-- An assignment to fields of a handle. -/
def setDev (d : MmcDrive) (f : Mmcdevice → Mmcdevice) : SdProg σ PUnit := modify fun s =>
  s.assign d f

section Wp

variable {E : SdState σ → Prop} {s : SdState σ}

@[simp]
theorem wp_sdmmcRead16 {Q : U16 → SdState σ → Prop} (reg : U16) :
    wp (sdmmcRead16 H reg) Q E s ↔
      Q (H.read16 (sdReg reg) s.hw).1 (s.onRead16 H (sdReg reg)) := Iff.rfl

@[simp]
theorem wp_sdmmcWrite16 {Q : PUnit → SdState σ → Prop} (reg v : U16) :
    wp (sdmmcWrite16 H reg v) Q E s ↔ Q ⟨⟩ (s.onWrite16 H (sdReg reg) v) := Iff.rfl

@[simp]
theorem wp_getDev {Q : Mmcdevice → SdState σ → Prop} (d : MmcDrive) :
    wp (getDev d) Q E s ↔ Q (s.dev d) s := Iff.rfl

@[simp]
theorem wp_setDev {Q : PUnit → SdState σ → Prop} (d : MmcDrive) (f : Mmcdevice → Mmcdevice) :
    wp (setDev d f) Q E s ↔ Q ⟨⟩ (s.assign d f) := Iff.rfl

end Wp

/-- `set_target` -/
def setTarget (d : MmcDrive) : SdProg σ PUnit := do
  let ctx ← getDev d
  sdmmcMask16 H REG_SDPORTSEL 0x3 (ctx.devicenumber.setWidth 16)
  setckl H ctx.clk
  if ctx.SDOPT = 0 then sdmmcMask16 H REG_SDOPT 0 0x8000
  else sdmmcMask16 H REG_SDOPT 0x8000 0

/-- `get_error` -/
def getError (ctx : Mmcdevice) : ℤ := ((ctx.error <<< 29) >>> 31).toInt

/-! ### Commands -/

/-- The status a command is to come to: bit 16 of its code asks for a response, bits 17 and 18
for data. -/
def cmdFlags (cmd : U32) : U16 :=
  let flags := ((cmd <<< 15) >>> 31).setWidth 16
  if cmd &&& 0x20000 ≠ 0 ∨ cmd &&& 0x40000 ≠ 0 then flags ||| TMIO_STAT0_DATAEND else flags

/-- `while((sdmmc_read16(REG_SDSTATUS1) & TMIO_STAT1_CMD_BUSY));` -/
def waitIdle (fuel : ℕ) : SdProg σ PUnit :=
  untilDone (fun _ : PUnit => do
    let status1 ← sdmmcRead16 H REG_SDSTATUS1
    pure (if status1 &&& TMIO_STAT1_CMD_BUSY ≠ 0 then .inl ⟨⟩ else .inr ⟨⟩)) fuel ⟨⟩

/-- The variables of a transfer that its rounds change. -/
structure SdTransfer where
  size : U32
  rDataPtr32 : U32
  tDataPtr32 : U32

/-- `*rDataPtr32++ = sdmmc_read32(REG_SDFIFO32);`, `n` times. -/
def fifoRead : ℕ → U32 → SdProg σ U32
  | 0, p => pure p
  | n + 1, p => do
      let w ← sdmmcRead32 H REG_SDFIFO32
      modify fun s => { s with mem := s.mem.write32 p w }
      fifoRead n (p + 4)

/-- `sdmmc_write32(REG_SDFIFO32, *tDataPtr32++);`, `n` times. -/
def fifoWrite : ℕ → U32 → SdProg σ U32
  | 0, p => pure p
  | n + 1, p => do
      let s ← get
      sdmmcWrite32 H REG_SDFIFO32 (s.mem.read32 p)
      fifoWrite n (p + 4)

/-- The words of a block: four at a time, for `i` from 0 in steps of 16 below its length. -/
def blockWords (blkSize : U16) : ℕ := 4 * ((blkSize.toNat + 15) / 16)

/-- The FIFO is ready for a block: it is passed on, if there is a buffer and it reaches that far.
The buffer's position and its size are returned. -/
def passBlock (useBuf : Prop) [Decidable useBuf] (ack irq blkSize : U16)
    (pass : ℕ → U32 → SdProg σ U32) (size p : U32) : SdProg σ (U32 × U32) := do
  let r ← (if useBuf then do
      sdmmcMask16 H REG_SDSTATUS1 ack 0
      if blkSize.setWidth 32 ≤ size then do
        let q ← pass (blockWords blkSize) p
        pure (size - blkSize.setWidth 32, q)
      else pure (size, p)
    else pure (size, p))
  sdmmcMask16 H REG_DATACTL32 irq 0
  pure r

/-- A block of data read goes to the buffer. -/
def takeBlock (rUseBuf : Prop) [Decidable rUseBuf] (blkSize : U16) (v : SdTransfer) :
    SdProg σ SdTransfer := do
  let (size, q) ← passBlock H rUseBuf TMIO_STAT1_RXRDY 0x800 blkSize (fifoRead H) v.size
    v.rDataPtr32
  pure { v with size := size, rDataPtr32 := q }

/-- A block of data to write comes from the buffer. -/
def giveBlock (tUseBuf : Prop) [Decidable tUseBuf] (blkSize : U16) (v : SdTransfer) :
    SdProg σ SdTransfer := do
  let (size, q) ← passBlock H tUseBuf TMIO_STAT1_TXRQ 0x1000 blkSize (fifoWrite H) v.size
    v.tDataPtr32
  pure { v with size := size, tDataPtr32 := q }

/-- `error` takes note of the two looks at `REG_SDSTATUS0`. -/
def Mmcdevice.note (status0 respond : U16) (ctx : Mmcdevice) : Mmcdevice :=
  { ctx with
    error := ctx.error ||| (if respond &&& TMIO_STAT0_CMDRESPEND ≠ 0 then 1 else 0) |||
      (if status0 &&& TMIO_STAT0_DATAEND ≠ 0 then 2 else 0) }

/-- The end of a round: an error ends the loop, and so does the status that the command is to
come to. -/
def roundEnd (d : MmcDrive) (cmd : U32) (status1 : U16) (v : SdTransfer) :
    SdProg σ (SdTransfer ⊕ PUnit) :=
  if status1 &&& TMIO_MASK_GW ≠ 0 then do
    setDev d fun ctx => { ctx with error := ctx.error ||| 4 }
    pure (.inr ⟨⟩)
  else if status1 &&& TMIO_STAT1_CMD_BUSY ≠ 0 then pure (.inl v)
  else do
    let status0 ← sdmmcRead16 H REG_SDSTATUS0
    let respond ← sdmmcRead16 H REG_SDSTATUS0
    setDev d (Mmcdevice.note status0 respond)
    pure (if status0 &&& cmdFlags cmd = cmdFlags cmd then .inr ⟨⟩ else .inl v)

/-- A round of the polling loop of `sdmmc_send_command`, `ctx` being the handle at its start. -/
def pollRound (d : MmcDrive) (cmd : U32) (ctx : Mmcdevice) (blkSize : U16) (v : SdTransfer) :
    SdProg σ (SdTransfer ⊕ PUnit) := do
  let status1 ← sdmmcRead16 H REG_SDSTATUS1
  let ctl32 ← sdmmcRead16 H REG_DATACTL32
  let v ← (if ctl32 &&& 0x100 ≠ 0 ∧ cmd &&& 0x20000 ≠ 0 then
    takeBlock H (ctx.rData ≠ 0) blkSize v else pure v)
  let v ← (if ctl32 &&& 0x200 = 0 ∧ cmd &&& 0x40000 ≠ 0 then
    giveBlock H (ctx.tData ≠ 0) blkSize v else pure v)
  roundEnd H d cmd status1 v

/-- Two halves of a response. -/
def readResponse (lo hi : U16) : SdProg σ U32 := do
  let l ← sdmmcRead16 H lo
  let h ← sdmmcRead16 H hi
  pure (l.setWidth 32 ||| h.setWidth 32 <<< 16)

/-- `sdmmc_send_command`, up to the command. -/
def prepareCommand (fuel : ℕ) (args : U32) : SdProg σ PUnit := do
  waitIdle H fuel
  sdmmcWrite16 H REG_SDIRMASK0 0
  sdmmcWrite16 H REG_SDIRMASK1 0
  sdmmcWrite16 H REG_SDSTATUS0 0
  sdmmcWrite16 H REG_SDSTATUS1 0
  sdmmcMask16 H REG_DATACTL32 0x1800 0x400
  sdmmcWrite16 H REG_SDCMDARG0 (args.setWidth 16)
  sdmmcWrite16 H REG_SDCMDARG1 ((args >>> 16).setWidth 16)

/-- `sdmmc_send_command`, from the end of its loop on. -/
def collectResponse (d : MmcDrive) (cmd : U32) : SdProg σ PUnit := do
  let stat0 ← sdmmcRead16 H REG_SDSTATUS0
  let stat1 ← sdmmcRead16 H REG_SDSTATUS1
  setDev d fun ctx => { ctx with stat0 := stat0, stat1 := stat1 }
  sdmmcWrite16 H REG_SDSTATUS0 0
  sdmmcWrite16 H REG_SDSTATUS1 0
  if (cmd <<< 15) >>> 31 ≠ 0 then do
    let ret0 ← readResponse H REG_SDRESP0 REG_SDRESP1
    let ret1 ← readResponse H REG_SDRESP2 REG_SDRESP3
    let ret2 ← readResponse H REG_SDRESP4 REG_SDRESP5
    let ret3 ← readResponse H REG_SDRESP6 REG_SDRESP7
    setDev d fun ctx => { ctx with ret0 := ret0, ret1 := ret1, ret2 := ret2, ret3 := ret3 }

/-- `ctx->error = 0;` -/
def Mmcdevice.clearError (ctx : Mmcdevice) : Mmcdevice := { ctx with error := 0 }

/-- `sdmmc_send_command`, but for the record. -/
def runCommand (fuel : ℕ) (d : MmcDrive) (cmd args : U32) : SdProg σ PUnit := do
  setDev d Mmcdevice.clearError
  prepareCommand H fuel args
  sdmmcWrite16 H REG_SDCMD (cmd.setWidth 16)
  let ctx ← getDev d
  let blkSize ← sdmmcRead16 H REG_SDBLKLEN32
  untilDone (pollRound H d cmd ctx blkSize) fuel ⟨ctx.size, ctx.rData, ctx.tData⟩
  collectResponse H d cmd

/-- The command goes to the record. -/
def SdState.record (s : SdState σ) (d : MmcDrive) (cmd args : U32) : SdState σ :=
  { s with commands := s.commands ++ [⟨d, cmd, args, s.dev d⟩] }

/-- `sdmmc_send_command`. -/
def sdmmcSendCommand (fuel : ℕ) (d : MmcDrive) (cmd args : U32) : SdProg σ PUnit := do
  runCommand H fuel d cmd args
  modify fun s => s.record d cmd args

/-! ### Sectors -/

/-- What the transfers of both drives start with: the argument is a number of bytes for cards
that are not SDHC. -/
def startTransfer (d : MmcDrive) (sector_no numsectors : U32) : SdProg σ U32 := do
  let ctx ← getDev d
  setTarget H d
  sdmmcWrite16 H REG_SDSTOP 0x100
  sdmmcWrite16 H REG_SDBLKCOUNT32 (numsectors.setWidth 16)
  sdmmcWrite16 H REG_SDBLKLEN32 0x200
  sdmmcWrite16 H REG_SDBLKCOUNT (numsectors.setWidth 16)
  pure (if ctx.isSDHC = 0 then sector_no <<< 9 else sector_no)

/-- `sdmmc_sdcard_readsectors` and `sdmmc_nand_readsectors`. -/
def readsectors (fuel : ℕ) (d : MmcDrive) (sector_no numsectors out : U32) : SdProg σ ℤ := do
  let sector_no ← startTransfer H d sector_no numsectors
  setDev d fun ctx => { ctx with rData := out, size := numsectors <<< 9 }
  sdmmcSendCommand H fuel d 0x33C12 sector_no
  let ctx ← getDev d
  pure (getError ctx)

/-- `sdmmc_sdcard_writesectors` and `sdmmc_nand_writesectors`. -/
def writesectors (fuel : ℕ) (d : MmcDrive) (sector_no numsectors inp : U32) : SdProg σ ℤ := do
  let sector_no ← startTransfer H d sector_no numsectors
  setDev d fun ctx => { ctx with tData := inp, size := numsectors <<< 9 }
  sdmmcSendCommand H fuel d 0x52C19 sector_no
  let ctx ← getDev d
  pure (getError ctx)

/-- `sdmmc_sdcard_readsectors` -/
def sdmmcSdcardReadsectors (fuel : ℕ) : U32 → U32 → U32 → SdProg σ ℤ :=
  readsectors H fuel .handleSD

/-- `sdmmc_sdcard_writesectors` -/
def sdmmcSdcardWritesectors (fuel : ℕ) : U32 → U32 → U32 → SdProg σ ℤ :=
  writesectors H fuel .handleSD

/-- `sdmmc_nand_readsectors` -/
def sdmmcNandReadsectors (fuel : ℕ) : U32 → U32 → U32 → SdProg σ ℤ :=
  readsectors H fuel .handleNAND

/-- `sdmmc_nand_writesectors` -/
def sdmmcNandWritesectors (fuel : ℕ) : U32 → U32 → U32 → SdProg σ ℤ :=
  writesectors H fuel .handleNAND

/-! ### Initialization -/

/-- A byte of a response, as `(u8*)&ret[0]` has it. -/
def Mmcdevice.retByte (ctx : Mmcdevice) (i : ℕ) : U8 :=
  (ctx.ret3 ++ ctx.ret2 ++ ctx.ret1 ++ ctx.ret0).extractLsb' (8 * i) 8

/-- `sdmmc_calc_size`. -/
def sdmmcCalcSize (csd : ℕ → U8) (type : ℤ) : U32 :=
  let type := if type = -1 then ((csd 14 >>> 6).toNat : ℤ) else type
  if type = 0 then
    let block_len : U32 := 1 <<< (csd 9 &&& 0xf).toNat
    let mult : U32 := (csd 4 >>> 7).setWidth 32 ||| ((csd 5 &&& 3).setWidth 32 <<< 1)
    let mult : U32 := 1 <<< (mult + 2).toNat
    let result : U32 := (csd 8 &&& 3).setWidth 32
    let result := result <<< 8 ||| (csd 7).setWidth 32
    let result := result <<< 2 ||| (csd 6 >>> 6).setWidth 32
    (result + 1) * mult * block_len / 512
  else if type = 1 then
    let result : U32 := (csd 7 &&& 0x3f).setWidth 32
    let result := result <<< 8 ||| (csd 6).setWidth 32
    let result := result <<< 8 ||| (csd 5).setWidth 32
    (result + 1) * 1024
  else 0

/-- What `sdmmc_init`, `Nand_Init` and `SD_Init` set of a handle. -/
def Mmcdevice.reset (ctx : Mmcdevice) (initarg devicenumber : U32) : Mmcdevice :=
  { ctx with
    isSDHC := 0
    SDOPT := 0
    res := 0
    initarg := initarg
    clk := 0x20
    devicenumber := devicenumber }

/-- `sdmmc_init`. -/
def sdmmcInit : SdProg σ PUnit := do
  setDev .handleNAND fun ctx => ctx.reset 1 1
  setDev .handleSD fun ctx => ctx.reset 0 0
  sdmmcMask16 H REG_DATACTL32 0x0800 0
  sdmmcMask16 H REG_DATACTL32 0x1000 0
  sdmmcMask16 H REG_DATACTL32 0 0x402
  sdmmcMask16 H REG_DATACTL 0x22 2
  sdmmcMask16 H REG_DATACTL32 0 0
  sdmmcMask16 H REG_DATACTL 0x20 0
  sdmmcWrite16 H REG_SDBLKLEN32 512
  sdmmcWrite16 H REG_SDBLKCOUNT32 1
  sdmmcMask16 H REG_SDRESET 1 0
  sdmmcMask16 H REG_SDRESET 0 1
  sdmmcMask16 H REG_SDIRMASK0 0 (TMIO_MASK_ALL.setWidth 16)
  sdmmcMask16 H REG_SDIRMASK1 0 ((TMIO_MASK_ALL >>> 16).setWidth 16)
  sdmmcMask16 H 0xFC 0 0xDB
  sdmmcMask16 H 0xFE 0 0xDB
  sdmmcMask16 H REG_SDPORTSEL 3 0
  sdmmcWrite16 H REG_SDCLKCTL 0x20
  sdmmcWrite16 H REG_SDOPT 0x40E9
  sdmmcMask16 H REG_SDPORTSEL 3 0
  sdmmcWrite16 H REG_SDBLKLEN 512
  sdmmcWrite16 H REG_SDSTOP 0

/-- A command with an argument that depends on the handle, and `if (error & 0x4) return code;`. -/
def commandOr (fuel : ℕ) (d : MmcDrive) (code : ℤ) (cmd : U32) (args : Mmcdevice → U32)
    (k : SdProg σ ℤ) : SdProg σ ℤ := do
  let ctx ← getDev d
  sdmmcSendCommand H fuel d cmd (args ctx)
  let ctx ← getDev d
  if ctx.error &&& 4 ≠ 0 then pure code else k

/-- The two loops that wait for a drive to come up: `do { do { … } while (!(error & 1)); }
while ((ret[0] & 0x80000000) == 0);` -/
def untilReady (fuel : ℕ) (d : MmcDrive) (commands : SdProg σ PUnit) : SdProg σ PUnit :=
  untilDone (fun _ : PUnit => do
    untilDone (fun _ : PUnit => do
      commands
      let ctx ← getDev d
      pure (if ctx.error &&& 1 = 0 then .inl ⟨⟩ else .inr ⟨⟩)) fuel ⟨⟩
    let ctx ← getDev d
    pure (if ctx.ret0 &&& 0x80000000 = 0 then .inl ⟨⟩ else .inr ⟨⟩)) fuel ⟨⟩

/-- The argument of commands to a card that has an address. -/
def Mmcdevice.address (ctx : Mmcdevice) : U32 := ctx.initarg <<< 0x10

/-- `Nand_Init`. -/
def nandInit (fuel : ℕ) : SdProg σ ℤ := do
  setDev .handleNAND fun ctx => ctx.reset 1 1
  setTarget H .handleNAND
  sdmmcSendCommand H fuel .handleNAND 0 0
  untilReady fuel .handleNAND (sdmmcSendCommand H fuel .handleNAND 0x10701 0x100000)
  commandOr H fuel .handleNAND (-1) 0x10602 (fun _ => 0) do
  commandOr H fuel .handleNAND (-1) 0x10403 Mmcdevice.address do
  commandOr H fuel .handleNAND (-1) 0x10609 Mmcdevice.address do
  setDev .handleNAND fun ctx => { ctx with total_size := sdmmcCalcSize ctx.retByte 0 }
  setckl H 0x201
  commandOr H fuel .handleNAND (-1) 0x10407 Mmcdevice.address do
  setDev .handleNAND fun ctx => { ctx with SDOPT := 1 }
  commandOr H fuel .handleNAND (-1) 0x10506 (fun _ => 0x3B70100) do
  sdmmcMask16 H REG_SDOPT 0x8000 0
  commandOr H fuel .handleNAND (-1) 0x10506 (fun _ => 0x3B90100) do
  setDev .handleNAND fun ctx => { ctx with clk := 0x200 }
  setckl H 0x200
  commandOr H fuel .handleNAND (-1) 0x1040D Mmcdevice.address do
  commandOr H fuel .handleNAND (-1) 0x10410 (fun _ => 0x200) do
  pure 0

/-- The end of `SD_Init`, once the bus is 4 bits wide and the clock is what `clk` says. -/
def sdInitSelect (fuel : ℕ) : SdProg σ ℤ :=
  commandOr H fuel .handleSD (-9) 0x1040D Mmcdevice.address do
  commandOr H fuel .handleSD (-10) 0x10410 (fun _ => 0x200) do
  pure 0

/-- `SD_Init` from the switch to high speed on. -/
def sdInitSpeed (fuel : ℕ) (cmd6Supported : Prop) [Decidable cmd6Supported] : SdProg σ ℤ :=
  if cmd6Supported then do
    sdmmcWrite16 H REG_SDSTOP 0
    sdmmcWrite16 H REG_SDBLKLEN32 64
    sdmmcWrite16 H REG_SDBLKLEN 64
    setDev .handleSD fun ctx => { ctx with rData := 0, size := 64 }
    sdmmcSendCommand H fuel .handleSD 0x31C06 0x80FFFFF1
    sdmmcWrite16 H REG_SDBLKLEN 512
    let ctx ← getDev .handleSD
    if ctx.error &&& 4 ≠ 0 then pure (-9)
    else do
      setDev .handleSD fun ctx => { ctx with clk := 0x200 }
      setckl H 0x200
      sdInitSelect H fuel
  else do
    setDev .handleSD fun ctx => { ctx with clk := 0x201 }
    sdInitSelect H fuel

/-- `SD_Init` from the answer to `CMD9` on. -/
def sdInitTransfer (fuel : ℕ) : SdProg σ ℤ := do
  let ctx ← getDev .handleSD
  setDev .handleSD fun ctx => { ctx with total_size := sdmmcCalcSize ctx.retByte (-1) }
  setckl H 0x201
  commandOr H fuel .handleSD (-4) 0x10507 Mmcdevice.address do
  commandOr H fuel .handleSD (-5) 0x10437 Mmcdevice.address do
  commandOr H fuel .handleSD (-6) 0x1076A (fun _ => 0) do
  commandOr H fuel .handleSD (-7) 0x10437 Mmcdevice.address do
  setDev .handleSD fun ctx => { ctx with SDOPT := 1 }
  commandOr H fuel .handleSD (-8) 0x10446 (fun _ => 2) do
  sdmmcMask16 H REG_SDOPT 0x8000 0
  sdInitSpeed H fuel (ctx.retByte 10 &&& 0x40 ≠ 0)

/-- `SD_Init` from the first command that may fail on. -/
def sdInitIdentify (fuel : ℕ) : SdProg σ ℤ :=
  commandOr H fuel .handleSD (-1) 0x10602 (fun _ => 0) do
  commandOr H fuel .handleSD (-2) 0x10403 (fun _ => 0) do
  setDev .handleSD fun ctx => { ctx with initarg := ctx.ret0 >>> 0x10 }
  commandOr H fuel .handleSD (-3) 0x10609 Mmcdevice.address do
  sdInitTransfer H fuel

/-- `SD_Init`. -/
def sdInit (fuel : ℕ) : SdProg σ ℤ := do
  setDev .handleSD fun ctx => ctx.reset 0 0
  setTarget H .handleSD
  sdmmcSendCommand H fuel .handleSD 0 0
  sdmmcSendCommand H fuel .handleSD 0x10408 0x1AA
  let ctx ← getDev .handleSD
  let temp := (ctx.error &&& 1) <<< 0x1E
  untilReady fuel .handleSD do
    let ctx ← getDev .handleSD
    sdmmcSendCommand H fuel .handleSD 0x10437 ctx.address
    sdmmcSendCommand H fuel .handleSD 0x10769 (0x10100000 ||| temp)
  setDev .handleSD fun ctx => { ctx with
    isSDHC := if ctx.ret0 >>> 30 &&& 1 = 0 ∨ temp = 0 then 0 else 1 }
  sdInitIdentify H fuel

/-- `sdmmc_sdcard_size`. -/
def sdmmcSdcardSize : SdProg σ U32 := do
  let ctx ← getDev .handleSD
  pure ctx.total_size

/-- `sdmmc_get_cid`. -/
def sdmmcGetCid (fuel : ℕ) (isNand : Bool) (info : U32) : SdProg σ ℤ := do
  let d : MmcDrive := if isNand then .handleNAND else .handleSD
  setTarget H d
  sdmmcSendCommand H fuel d 0x10507 0
  let ctx ← getDev d
  sdmmcSendCommand H fuel d 0x1060A ctx.address
  let ctx ← getDev d
  modify fun s => { s with
    mem := (((s.mem.write32 info ctx.ret0).write32 (info + 4) ctx.ret1).write32 (info + 8)
      ctx.ret2).write32 (info + 12) ctx.ret3 }
  sdmmcSendCommand H fuel d 0x10507 ctx.address
  pure 0

/-- The `timeout` tries of `sdmmc_sdcard_init`; false when none of them finds a card. -/
def pollCard : ℕ → SdProg σ Bool
  | 0 => pure false
  | timeout + 1 => do
      let status0 ← sdmmcRead16 H REG_SDSTATUS0
      if status0 &&& TMIO_STAT0_SIGSTATE ≠ 0 then pure true else pollCard timeout

/-- `sdmmc_sdcard_init`. -/
def sdmmcSdcardInit (fuel : ℕ) : SdProg σ U32 := do
  busWrite16 H 0x10000020 0x340
  sdmmcInit H
  let nand ← nandInit H fuel
  let ret : U32 := 0
  let ret := if nand ≠ 0 then ret &&& 1 else ret
  let card ← pollCard H 20
  if card then do
    let sd ← sdInit H fuel
    pure (if sd ≠ 0 then ret &&& 2 else ret)
  else pure (ret &&& 2)

end Driver

end Arm9LinuxFw.Sdmmc
