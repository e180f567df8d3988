import Arm9LinuxFw.Hw.Sdmmc
import Arm9LinuxFw.Vdev.SdCard

/-!
# Transfers of the SD/MMC driver

What `sdmmc_send_command` does to memory, whatever the controller does.

* `Moved` is what a transfer is about: memory, and the words that came out of the FIFO and went
  into it. `Moved.pass` moves a list of words in one of the two directions, and `Moved.Source` says
  that words that go out come from the buffer.
* `Passed` relates a place in the buffer to a later one, with the words in between. It composes,
  so that a block, a round and a command are each a `Passed` of what they moved (`passBlock_moved`,
  `pollRound_moved`): words are stored in their order, one after the other, from the start of the
  buffer on.
* `AllowsRegs` and `AllowsAnswer` are the frames that leave room for what a command does besides
  its data. One lemma for each piece of the driver says that it stays in any such frame; that
  registers, answers or handles do not move data are then instances.
* `Holds` says that the controller keeps what is written to one of its registers: the block length
  is read back by the driver, and how far a block reaches depends on it. It is asked for the
  accesses that the driver makes to the registers next to it, and for no others.
* `sectors` is the one function that the two of the source are, but for the direction. The result
  is `sectors_within`: at whatever point the driver is stopped, the words that were moved are a run
  from the start of the buffer, which does not reach beyond the sectors asked for.
* `plainCard` is a controller with a card that works, to apply the theorems to. It makes the driver
  wait, and empties its FIFO when told to.
-/

namespace Arm9LinuxFw.Sdmmc

open ByteMem Hoare

/-! ### Words in memory -/

/-- The `n` words from an address on. -/
def memWords (m : Mem) (p : U32) (n : ℕ) : List U32 :=
  (List.range n).map fun i => m.read32 (p + BitVec.ofNat 32 (4 * i))

private theorem memWords_add (m : Mem) (p : U32) (k n : ℕ) :
    memWords m p (k + n) = memWords m p k ++ memWords m (p + BitVec.ofNat 32 (4 * k)) n := by
  rw [memWords, List.range_add, List.map_append, List.map_map]
  refine congrArg (_ ++ ·) (List.map_congr_left fun i _ => ?_)
  rw [Function.comp_apply, Nat.mul_add, BitVec.ofNat_add, BitVec.add_assoc]

/-! ### What a transfer moves -/

/-- A word read from the FIFO. -/
def SdAccess.fifoIn : SdAccess → Option U32
  | .read32 a v => if a = sdReg REG_SDFIFO32 then some v else none
  | _ => none

/-- A word written to the FIFO. -/
def SdAccess.fifoOut : SdAccess → Option U32
  | .write32 a v => if a = sdReg REG_SDFIFO32 then some v else none
  | _ => none

/-- Memory, and the words that the FIFO has passed on either way. -/
structure Moved where
  mem : Mem
  fifoIn : List U32
  fifoOut : List U32

variable {σ : Type} {H : SdmmcHw σ}

def SdState.moved (s : SdState σ) : Moved where
  mem := s.mem
  fifoIn := s.trace.filterMap SdAccess.fifoIn
  fifoOut := s.trace.filterMap SdAccess.fifoOut

/-- What a command does with data: it brings words to memory, or takes words from there. -/
inductive SdDirection
  | read
  | write
  deriving DecidableEq

/-- Words go through the FIFO. -/
def Moved.pass (m : Moved) : SdDirection → U32 → List U32 → Moved
  | .read, p, ws =>
      { m with mem := m.mem.writeBytes p (wordBytes ws), fifoIn := m.fifoIn ++ ws }
  | .write, _, ws => { m with fifoOut := m.fifoOut ++ ws }

@[simp]
theorem Moved.pass_nil (m : Moved) (dir : SdDirection) (p : U32) : m.pass dir p [] = m := by
  cases dir with
  | read =>
    rw [pass, List.append_nil]
    rfl
  | write => rw [pass, List.append_nil]

/-- Two lists of words pass one after the other, the second from where the first one ended. -/
private theorem Moved.pass_append (m : Moved) (dir : SdDirection) (p : U32) (ws us : List U32) :
    m.pass dir p (ws ++ us) =
      (m.pass dir p ws).pass dir (p + BitVec.ofNat 32 (4 * ws.length)) us := by
  cases dir with
  | read =>
    have hmem : m.mem.writeBytes p (wordBytes (ws ++ us)) =
        (m.mem.writeBytes p (wordBytes ws)).writeBytes (p + BitVec.ofNat 32 (4 * ws.length))
          (wordBytes us) := by
      rw [← length_wordBytes, wordBytes_append, Mem.writeBytes_append]
    rw [pass, hmem, ← List.append_assoc]
    rfl
  | write =>
    rw [pass, ← List.append_assoc]
    rfl

/-- The words passed on are those of memory, if they come from there. -/
def Moved.Source (m : Moved) : SdDirection → U32 → List U32 → Prop
  | .read, _, _ => True
  | .write, p, ws => ws = memWords m.mem p ws.length

/-- The words that go out come from memory, also over two stretches of the buffer. -/
theorem Moved.Source.append {m : Moved} {dir : SdDirection} {p : U32} {ws us : List U32}
    (hws : m.Source dir p ws)
    (hus : (m.pass dir p ws).Source dir (p + BitVec.ofNat 32 (4 * ws.length)) us) :
    m.Source dir p (ws ++ us) := by
  cases dir with
  | read => trivial
  | write =>
    change ws = memWords m.mem p ws.length at hws
    change us = memWords m.mem (p + BitVec.ofNat 32 (4 * ws.length)) us.length at hus
    change ws ++ us = memWords m.mem p (ws ++ us).length
    rw [List.length_append, memWords_add, ← hws, ← hus]

/-- Between two points of a transfer, the words `ws` have gone through the FIFO: the position in
the buffer and what is left of its size follow them. -/
structure Passed (dir : SdDirection) (blkSize : U16) (a b : U32 × U32) (m m' : Moved)
    (ws : List U32) : Prop where
  moved : m' = m.pass dir a.2 ws
  source : m.Source dir a.2 ws
  position : b.2 = a.2 + BitVec.ofNat 32 (4 * ws.length)
  size : 16 ∣ blkSize.toNat → 4 * ws.length + b.1.toNat = a.1.toNat

private theorem Moved.source_nil (m : Moved) (dir : SdDirection) (p : U32) : m.Source dir p [] := by
  cases dir with
  | read => trivial
  | write => rfl

namespace Passed

variable {dir : SdDirection} {blkSize : U16} {a b c : U32 × U32} {m m' m'' : Moved}
  {ws us : List U32}

theorem refl (dir : SdDirection) (blkSize : U16) (a : U32 × U32) (m : Moved) :
    Passed dir blkSize a a m m [] where
  moved := (m.pass_nil dir a.2).symm
  source := m.source_nil dir a.2
  position := by simp
  size _ := by simp

/-- What two stretches of a transfer do makes up what they do together. -/
theorem trans (h : Passed dir blkSize a b m m' ws) (h' : Passed dir blkSize b c m' m'' us) :
    Passed dir blkSize a c m m'' (ws ++ us) where
  moved := by rw [h'.moved, h.moved, h.position, ← Moved.pass_append]
  source := h.source.append (by rw [← h.moved, ← h.position]; exact h'.source)
  position := by
    rw [h'.position, h.position, List.length_append, Nat.mul_add, BitVec.ofNat_add,
      BitVec.add_assoc]
  size hblk := by
    have hsize := h.size hblk
    have hsize' := h'.size hblk
    rw [List.length_append]
    omega

end Passed

/-! ### Accesses that move nothing -/

/-- The registers that start a command and say how much data it has. -/
def transferRegs : List U32 :=
  [sdReg REG_SDCMD, sdReg REG_SDBLKLEN32, sdReg REG_SDBLKCOUNT32]

/-- The other registers that the driver writes to for a command. -/
def controlRegs : List U32 :=
  [sdReg REG_SDPORTSEL, sdReg REG_SDCLKCTL, sdReg REG_SDOPT, sdReg REG_SDSTOP,
    sdReg REG_SDBLKCOUNT, sdReg REG_SDCMDARG0, sdReg REG_SDCMDARG1, sdReg REG_SDSTATUS0,
    sdReg REG_SDSTATUS1, sdReg REG_SDIRMASK0, sdReg REG_SDIRMASK1, sdReg REG_DATACTL32]

/-- A frame that allows a look at any register, and writes to the control registers. -/
structure AllowsRegs (H : SdmmcHw σ) (F : Frame (SdState σ)) : Prop where
  read16 : ∀ a, F.Does (busRead16 H a)
  write16 : ∀ a v, a ∈ controlRegs → F.Does (busWrite16 H a v)

/-- A handle but for what a command leaves in it. -/
def Mmcdevice.setup (ctx : Mmcdevice) : Mmcdevice :=
  { ctx with error := 0, stat0 := 0, stat1 := 0, ret0 := 0, ret1 := 0, ret2 := 0, ret3 := 0 }

/-- A frame that also allows the answer to a command to be put into its handle, the error being
known already. -/
structure AllowsAnswer (H : SdmmcHw σ) (F : Frame (SdState σ)) : Prop extends AllowsRegs H F where
  setDev : ∀ d f, (∀ ctx, (f ctx).error = ctx.error) → (∀ ctx, (f ctx).setup = ctx.setup) →
    F.Does (setDev d f)

theorem does_getDev {F : Frame (SdState σ)} (d : MmcDrive) : F.Does (getDev d) := F.refl

namespace AllowsRegs

variable {F G : Frame (SdState σ)} (hF : AllowsRegs H F)

include hF

theorem inf (hG : AllowsRegs H G) : AllowsRegs H (F.inf G) where
  read16 a := (hF.read16 a).inf (hG.read16 a)
  write16 a v ha := (hF.write16 a v ha).inf (hG.write16 a v ha)

theorem mask16 (reg clear set : U16) (hreg : sdReg reg ∈ controlRegs) :
    F.Does (sdmmcMask16 H reg clear set) :=
  Frame.does_bind (hF.read16 _) fun _ => hF.write16 _ _ hreg

theorem setckl (data : U32) : F.Does (setckl H data) :=
  Frame.does_bind (hF.write16 _ _ (by decide)) fun _ => hF.write16 _ _ (by decide)

theorem setTarget (d : MmcDrive) : F.Does (setTarget H d) :=
  Frame.does_bind (does_getDev d) fun _ =>
    Frame.does_bind (hF.mask16 _ _ _ (by decide)) fun _ =>
      Frame.does_bind (hF.setckl _) fun _ =>
        Frame.does_ite (hF.mask16 _ _ _ (by decide)) (hF.mask16 _ _ _ (by decide))

theorem waitIdle (fuel : ℕ) : F.Keeps (waitIdle H fuel) := by
  rw [Sdmmc.waitIdle]
  exact Frame.keeps_untilDone
    (fun _ => (Frame.does_bind (hF.read16 _) fun _ => Frame.does_pure _).keeps) fuel _

/-- All but the wait for the controller. -/
theorem prepareCommand_of_waitIdle {fuel : ℕ} {s : SdState σ} {E : SdState σ → Prop}
    (h : wp (Sdmmc.waitIdle H fuel) (fun _ t => F.rel s t) E s) (args : U32) :
    wp (prepareCommand H fuel args) (fun _ t => F.rel s t) E s := by
  have hrest : F.Does (do
      sdmmcWrite16 H REG_SDIRMASK0 0
      sdmmcWrite16 H REG_SDIRMASK1 0
      sdmmcWrite16 H REG_SDSTATUS0 0
      sdmmcWrite16 H REG_SDSTATUS1 0
      sdmmcMask16 H REG_DATACTL32 0x1800 0x400
      sdmmcWrite16 H REG_SDCMDARG0 (args.setWidth 16)
      sdmmcWrite16 H REG_SDCMDARG1 ((args >>> 16).setWidth 16)) :=
    Frame.does_bind (hF.write16 _ _ (by decide)) fun _ =>
      Frame.does_bind (hF.write16 _ _ (by decide)) fun _ =>
        Frame.does_bind (hF.write16 _ _ (by decide)) fun _ =>
          Frame.does_bind (hF.write16 _ _ (by decide)) fun _ =>
            Frame.does_bind (hF.mask16 _ _ _ (by decide)) fun _ =>
              Frame.does_bind (hF.write16 _ _ (by decide)) fun _ => hF.write16 _ _ (by decide)
  rw [prepareCommand, wp_bind]
  exact h.mono fun _ t ht => (hrest t).mono' (fun _ _ hu => F.trans ht hu) fun _ => False.elim

theorem readResponse (lo hi : U16) : F.Does (readResponse H lo hi) :=
  Frame.does_bind (hF.read16 _) fun _ =>
    Frame.does_bind (hF.read16 _) fun _ => Frame.does_pure _

end AllowsRegs

namespace AllowsAnswer

variable {F G : Frame (SdState σ)} (hF : AllowsAnswer H F)

include hF

theorem inf (hG : AllowsAnswer H G) : AllowsAnswer H (F.inf G) where
  toAllowsRegs := hF.toAllowsRegs.inf hG.toAllowsRegs
  setDev d f hf hf' := (hF.setDev d f hf hf').inf (hG.setDev d f hf hf')

/-- Reading the answer to a command changes nothing but the handle of the drive. -/
theorem collectResponse (d : MmcDrive) (cmd : U32) : F.Does (collectResponse H d cmd) :=
  Frame.does_bind (hF.read16 _) fun _ =>
    Frame.does_bind (hF.read16 _) fun _ =>
      Frame.does_bind (hF.setDev _ _ (fun _ => rfl) fun _ => rfl) fun _ =>
        Frame.does_bind (hF.write16 _ _ (by decide)) fun _ =>
          Frame.does_bind (hF.write16 _ _ (by decide)) fun _ =>
            Frame.does_ite
              (Frame.does_bind (hF.readResponse _ _) fun _ =>
                Frame.does_bind (hF.readResponse _ _) fun _ =>
                  Frame.does_bind (hF.readResponse _ _) fun _ =>
                    Frame.does_bind (hF.readResponse _ _) fun _ =>
                      hF.setDev _ _ (fun _ => rfl) fun _ => rfl)
              (Frame.does_pure _)

end AllowsAnswer

theorem moved_onWrite16 (s : SdState σ) (a : U32) (v : U16) :
    (s.onWrite16 H a v).moved = s.moved := by
  simp [SdState.onWrite16, SdState.moved, SdAccess.fifoIn, SdAccess.fifoOut]

theorem moved_onRead16 (s : SdState σ) (a : U32) : (s.onRead16 H a).moved = s.moved := by
  simp [SdState.onRead16, SdState.moved, SdAccess.fifoIn, SdAccess.fifoOut]

/-- All that a command does besides its data leaves memory and the FIFO alone. -/
theorem allowsAnswer_moved : AllowsAnswer H (Frame.same SdState.moved) where
  read16 a s := moved_onRead16 s a
  write16 a v _ s := moved_onWrite16 s a v
  setDev _ _ _ _ _ := rfl

theorem allowsRegs_dev : AllowsRegs H (Frame.same SdState.dev) where
  read16 _ _ := rfl
  write16 _ _ _ _ := rfl

/-- Collecting the answer does not touch the error that the handle records. -/
theorem allowsAnswer_error (d : MmcDrive) :
    AllowsAnswer H (Frame.same fun s => (s.dev d).error) where
  read16 _ _ := rfl
  write16 _ _ _ _ := rfl
  setDev d' f hf _ s := by
    change (Function.update s.dev d' (f (s.dev d')) d).error = (s.dev d).error
    by_cases h : d = d'
    · rw [h, Function.update_self, hf]
    · rw [Function.update_of_ne h]

/-! ### Blocks -/

/-- The FIFO, one word after the other. -/
def SdDirection.fifo (H : SdmmcHw σ) : SdDirection → ℕ → U32 → SdProg σ U32
  | .read => fifoRead H
  | .write => fifoWrite H

/-- `n` words go through the FIFO. -/
private theorem fifo_moved (dir : SdDirection) (n : ℕ) (p : U32) (s : SdState σ) :
    wp (dir.fifo H n p) (fun q t => q = p + BitVec.ofNat 32 (4 * n) ∧
      ∃ ws, ws.length = n ∧ t.moved = s.moved.pass dir p ws ∧ s.moved.Source dir p ws) never s := by
  induction n generalizing p s with
  | zero =>
    have hnil : wp (pure p : SdProg σ U32) (fun q t => q = p + BitVec.ofNat 32 (4 * 0) ∧
        ∃ ws, ws.length = 0 ∧ t.moved = s.moved.pass dir p ws ∧ s.moved.Source dir p ws) never s :=
      (wp_pure p).mpr ⟨by simp, [], rfl, (s.moved.pass_nil dir p).symm, s.moved.source_nil dir p⟩
    cases dir with
    | read => exact hnil
    | write => exact hnil
  | succ n ih =>
    -- one word, and the rest from the next position on
    obtain ⟨w, t, hstep, hmoved, hsource⟩ : ∃ (w : U32) (t : SdState σ),
        (∀ Q, wp (dir.fifo H n (p + 4)) Q never t → wp (dir.fifo H (n + 1) p) Q never s) ∧
        t.moved = s.moved.pass dir p [w] ∧ s.moved.Source dir p [w] := by
      cases dir with
      | read =>
        refine ⟨(H.read32 (sdReg REG_SDFIFO32) s.hw).1, _, fun Q h => h, ?_, trivial⟩
        simp [SdState.onRead32, SdState.moved, Moved.pass, SdAccess.fifoIn, SdAccess.fifoOut,
          wordBytes, Mem.write32_eq_writeBytes]
      | write =>
        refine ⟨s.mem.read32 p, _, fun Q h => h, ?_, ?_⟩
        · simp [SdState.onWrite32, SdState.moved, Moved.pass, SdAccess.fifoIn, SdAccess.fifoOut]
        · simp [Moved.Source, memWords, SdState.moved]
    refine hstep _ ((ih (p + 4) t).mono ?_)
    rintro q u ⟨rfl, ws, rfl, hu, hsource'⟩
    have hnext : p + 4 = p + BitVec.ofNat 32 (4 * [w].length) := by simp
    rw [hmoved, hnext] at hu hsource'
    refine ⟨by rw [Nat.mul_succ, BitVec.ofNat_add]; bv_omega, w :: ws, rfl, ?_,
      hsource.append hsource'⟩
    rw [hu, ← Moved.pass_append]
    rfl

/-- A block of a multiple of 16 bytes is whole words: the loops of the FIFO take it four words a
round. -/
private theorem four_mul_blockWords {blkSize : U16} (h : 16 ∣ blkSize.toNat) :
    4 * blockWords blkSize = blkSize.toNat := by
  rw [blockWords]
  omega

/-- A block at most goes through the FIFO, none without a buffer. -/
theorem passBlock_moved (dir : SdDirection) (useBuf : Prop) [Decidable useBuf]
    (ack irq blkSize : U16) (size p : U32) (s : SdState σ) :
    wp (passBlock H useBuf ack irq blkSize (dir.fifo H) size p) (fun r t =>
      ∃ ws, Passed dir blkSize (size, p) r s.moved t.moved ws ∧ (¬useBuf → ws = [])) never s := by
  have hmask (reg clear : U16) (hreg : sdReg reg ∈ controlRegs) (s : SdState σ) :
      wp (sdmmcMask16 H reg clear 0) (fun _ t => t.moved = s.moved) never s :=
    allowsAnswer_moved.mask16 reg clear 0 hreg s
  have hdone (r : U32 × U32) {t : SdState σ} (ws : List U32)
      (hws : Passed dir blkSize (size, p) r s.moved t.moved ws) (hnone : ¬useBuf → ws = []) :
      wp (do sdmmcMask16 H REG_DATACTL32 irq 0; pure r) (fun r t =>
        ∃ ws, Passed dir blkSize (size, p) r s.moved t.moved ws ∧ (¬useBuf → ws = []))
        never t := by
    rw [wp_bind]
    refine (hmask REG_DATACTL32 irq (by decide) t).mono fun _ u hu => ?_
    exact (wp_pure _).mpr ⟨ws, by rwa [hu], hnone⟩
  rw [passBlock, wp_bind]
  by_cases hbuf : useBuf
  · rw [if_pos hbuf, wp_bind]
    refine (hmask REG_SDSTATUS1 ack (by decide) s).mono fun _ t ht => ?_
    by_cases hsize : blkSize.setWidth 32 ≤ size
    · rw [if_pos hsize, wp_bind]
      refine (fifo_moved dir (blockWords blkSize) p t).mono ?_
      rintro q u ⟨rfl, ws, hlen, hu, hsource⟩
      refine (wp_pure _).mpr (hdone _ ws ⟨?_, ?_, ?_, fun hblk => ?_⟩ (absurd hbuf))
      · rw [hu, ht]
      · rwa [ht] at hsource
      · rw [hlen]
      · have hwords := four_mul_blockWords hblk
        have hle : blkSize.toNat ≤ size.toNat := by
          rwa [BitVec.le_def, BitVec.toNat_setWidth_of_le (by omega)] at hsize
        change 4 * ws.length + (size - blkSize.setWidth 32).toNat = size.toNat
        rw [BitVec.toNat_sub_of_le hsize, BitVec.toNat_setWidth_of_le (by omega), hlen]
        omega
    · rw [if_neg hsize]
      refine (wp_pure _).mpr (hdone _ [] ?_ fun _ => rfl)
      rw [ht]
      exact Passed.refl dir blkSize (size, p) s.moved
  · rw [if_neg hbuf]
    exact (wp_pure _).mpr (hdone _ [] (Passed.refl dir blkSize (size, p) s.moved) fun _ => rfl)

/-! ### Rounds -/

/-- The bit of a command that says it has data in this direction. -/
def SdDirection.bit : SdDirection → U32
  | .read => 0x20000
  | .write => 0x40000

def SdDirection.other : SdDirection → SdDirection
  | .read => .write
  | .write => .read

/-- The buffer of a handle for data in this direction. -/
def SdDirection.buffer : SdDirection → Mmcdevice → U32
  | .read => Mmcdevice.rData
  | .write => Mmcdevice.tData

/-- Where a transfer stands. -/
def SdTransfer.place (v : SdTransfer) : SdDirection → U32 × U32
  | .read => (v.size, v.rDataPtr32)
  | .write => (v.size, v.tDataPtr32)

/-- A command moves data in a direction if it says so, and there is a buffer for it. -/
def Moves (dir : SdDirection) (cmd : U32) (ctx : Mmcdevice) : Prop :=
  cmd &&& dir.bit ≠ 0 ∧ dir.buffer ctx ≠ 0

@[simp]
theorem SdDirection.buffer_clearError (dir : SdDirection) (ctx : Mmcdevice) :
    dir.buffer ctx.clearError = dir.buffer ctx := by
  cases dir with
  | read => rfl
  | write => rfl

private theorem moves_clearError {dir : SdDirection} {cmd : U32} {ctx : Mmcdevice} :
    Moves dir cmd ctx.clearError ↔ Moves dir cmd ctx := by
  rw [Moves, Moves, dir.buffer_clearError]

/-- The end of a round looks at the status alone: it goes round again or leaves, and moves nothing.
-/
theorem roundEnd_moved (d : MmcDrive) (cmd : U32) (status1 : U16) (v : SdTransfer)
    (s : SdState σ) :
    wp (roundEnd H d cmd status1 v) (fun r t => (r = .inl v ∨ r = .inr ⟨⟩) ∧ t.moved = s.moved)
      never s := by
  rw [roundEnd]
  split_ifs with herror hbusy
  · exact ⟨.inr rfl, rfl⟩
  · exact ⟨.inl rfl, rfl⟩
  · rw [wp_bind]
    refine (allowsAnswer_moved.read16 _ s).mono fun status0 t ht => ?_
    rw [wp_bind]
    refine (allowsAnswer_moved.read16 _ t).mono fun respond u hu => ?_
    rw [wp_bind]
    refine ⟨?_, hu.trans ht⟩
    split_ifs
    · exact .inr rfl
    · exact .inl rfl

/-- The block that a round passes on. -/
def SdDirection.block (H : SdmmcHw σ) (dir : SdDirection) (ctx : Mmcdevice) (blkSize : U16)
    (v : SdTransfer) : SdProg σ SdTransfer :=
  match dir with
  | .read => takeBlock H (ctx.rData ≠ 0) blkSize v
  | .write => giveBlock H (ctx.tData ≠ 0) blkSize v

/-- The FIFO is ready for a block. -/
def SdDirection.Ready (ctl32 : U16) : SdDirection → Prop
  | .read => ctl32 &&& 0x100 ≠ 0
  | .write => ctl32 &&& 0x200 = 0

instance (dir : SdDirection) (ctl32 : U16) : Decidable (dir.Ready ctl32) :=
  match dir with
  | .read => inferInstanceAs (Decidable (ctl32 &&& 0x100 ≠ 0))
  | .write => inferInstanceAs (Decidable (ctl32 &&& 0x200 = 0))

/-- A round of a command with data in one direction at most. -/
theorem pollRound_eq {dir : SdDirection} {cmd : U32} (hother : cmd &&& dir.other.bit = 0)
    (d : MmcDrive) (ctx : Mmcdevice) (blkSize : U16) (v : SdTransfer) :
    pollRound H d cmd ctx blkSize v = (do
      let status1 ← sdmmcRead16 H REG_SDSTATUS1
      let ctl32 ← sdmmcRead16 H REG_DATACTL32
      let v ← (if dir.Ready ctl32 ∧ cmd &&& dir.bit ≠ 0 then dir.block H ctx blkSize v else pure v)
      roundEnd H d cmd status1 v) := by
  rw [pollRound]
  refine congrArg (_ >>= ·) (funext fun status1 => congrArg (_ >>= ·) (funext fun ctl32 => ?_))
  cases dir with
  | read =>
    have hwrite : ¬(ctl32 &&& 0x200 = 0 ∧ cmd &&& 0x40000 ≠ 0) := fun h => h.2 hother
    simp only [if_neg hwrite, pure_bind]
    rfl
  | write =>
    have hread : ¬(ctl32 &&& 0x100 ≠ 0 ∧ cmd &&& 0x20000 ≠ 0) := fun h => h.2 hother
    simp only [if_neg hread, pure_bind]
    rfl

/-- A transfer that has come to another place. -/
def SdTransfer.put (v : SdTransfer) (r : U32 × U32) : SdDirection → SdTransfer
  | .read => { v with size := r.1, rDataPtr32 := r.2 }
  | .write => { v with size := r.1, tDataPtr32 := r.2 }

@[simp]
theorem SdTransfer.place_put (v : SdTransfer) (r : U32 × U32) (dir : SdDirection) :
    (v.put r dir).place dir = r := by
  cases dir with
  | read => rfl
  | write => rfl

@[simp]
theorem SdTransfer.size_put (v : SdTransfer) (r : U32 × U32) (dir : SdDirection) :
    (v.put r dir).size = r.1 := by
  cases dir with
  | read => rfl
  | write => rfl

@[simp]
theorem SdTransfer.fst_place (v : SdTransfer) (dir : SdDirection) :
    (v.place dir).1 = v.size := by
  cases dir with
  | read => rfl
  | write => rfl

/-- What holds of the block that goes through the FIFO, whatever the bits it is acknowledged by,
holds of the block of a round. -/
theorem wp_block {dir : SdDirection} {ctx : Mmcdevice} {blkSize : U16} {v : SdTransfer}
    {Q : SdTransfer → SdState σ → Prop} {E : SdState σ → Prop} {s : SdState σ}
    (h : ∀ ack irq, wp (passBlock H (dir.buffer ctx ≠ 0) ack irq blkSize (dir.fifo H)
      (v.place dir).1 (v.place dir).2) (fun r t => Q (v.put r dir) t) E s) :
    wp (dir.block H ctx blkSize v) Q E s := by
  cases dir with
  | read =>
    rw [SdDirection.block, takeBlock, wp_bind]
    exact h TMIO_STAT1_RXRDY 0x800
  | write =>
    rw [SdDirection.block, giveBlock, wp_bind]
    exact h TMIO_STAT1_TXRQ 0x1000

/-- What a round of a command with data in one direction at most does. -/
private theorem pollRound_moved {dir : SdDirection} {cmd : U32} (hother : cmd &&& dir.other.bit = 0)
    (d : MmcDrive) (ctx : Mmcdevice) (blkSize : U16) (v : SdTransfer) (s : SdState σ) :
    wp (pollRound H d cmd ctx blkSize v) (fun r t => ∃ v' ws, (r = .inl v' ∨ r = .inr ⟨⟩) ∧
      Passed dir blkSize (v.place dir) (v'.place dir) s.moved t.moved ws ∧
      (¬Moves dir cmd ctx → ws = [])) never s := by
  have hend (status1 : U16) {v' : SdTransfer} (ws : List U32) {t : SdState σ}
      (hpass : Passed dir blkSize (v.place dir) (v'.place dir) s.moved t.moved ws)
      (hnone : ¬Moves dir cmd ctx → ws = []) :
      wp (roundEnd H d cmd status1 v') (fun r t => ∃ v' ws, (r = .inl v' ∨ r = .inr ⟨⟩) ∧
        Passed dir blkSize (v.place dir) (v'.place dir) s.moved t.moved ws ∧
        (¬Moves dir cmd ctx → ws = [])) never t :=
    (roundEnd_moved d cmd status1 v' t).mono fun r u hr => ⟨v', ws, hr.1, by rwa [hr.2], hnone⟩
  simp only [pollRound_eq hother, wp_bind, wp_sdmmcRead16, wp_ite, wp_pure]
  set t := (s.onRead16 H (sdReg REG_SDSTATUS1)).onRead16 H (sdReg REG_DATACTL32) with ht
  have hmoved : t.moved = s.moved := by rw [ht, moved_onRead16, moved_onRead16]
  split_ifs with hready
  · refine wp_block fun ack irq => (passBlock_moved dir _ ack irq blkSize _ _ t).mono ?_
    rintro r u ⟨ws, hpass, hnone⟩
    rw [hmoved] at hpass
    refine hend _ ws ?_ fun h => hnone fun hbuf => h ⟨hready.2, hbuf⟩
    rw [SdTransfer.place_put]
    exact hpass
  · refine hend _ [] ?_ fun _ => rfl
    rw [hmoved]
    exact Passed.refl dir blkSize (v.place dir) s.moved

/-! ### Commands, whatever the controller does -/

/-- A register of the controller that holds what is written to it, whatever else the driver does
with registers of 16 bits. -/
structure Holds (H : SdmmcHw σ) (a : U32) (val : σ → U16) : Prop where
  read : ∀ x, (H.read16 a x).1 = val x
  write : ∀ v x, val (H.write16 a v x) = v
  read16 : ∀ b x, val (H.read16 b x).2 = val x
  write16 : ∀ b ∈ transferRegs ++ controlRegs, b ≠ a → ∀ v x, val (H.write16 b v x) = val x

/-- The length of blocks stays as it is, if it is a register that holds what is written to it. -/
def lengthFrame (H : SdmmcHw σ) : Frame (SdState σ) :=
  Frame.ofPreorder (fun s t => ∀ val, Holds H (sdReg REG_SDBLKLEN32) val → val t.hw = val s.hw)
    (fun _ _ _ => rfl) fun h h' val hval => (h' val hval).trans (h val hval)

/-- The block length is not changed by anything that a command does besides its data. -/
private theorem allowsAnswer_length : AllowsAnswer H (lengthFrame H) where
  read16 _ _ _ hval := hval.read16 _ _
  write16 _ _ ha _ _ hval := by
    refine hval.write16 _ (List.mem_append_right _ ha) ?_ _ _
    rintro rfl
    exact absurd ha (by decide)
  setDev _ _ _ _ _ _ _ := rfl

/-- What a command has moved so far, on its way through a buffer at `p` of `size` bytes. -/
def Within (dir : SdDirection) (blkSize : U16) (moves : Prop) (p size : U32) (m m' : Moved) :
    Prop :=
  ∃ ws, m' = m.pass dir p ws ∧ m.Source dir p ws ∧
    (16 ∣ blkSize.toNat → 4 * ws.length ≤ size.toNat) ∧ (¬moves → ws = [])

theorem Within.refl (dir : SdDirection) (blkSize : U16) (moves : Prop) (p size : U32) (m : Moved) :
    Within dir blkSize moves p size m m :=
  ⟨[], (m.pass_nil dir p).symm, m.source_nil dir p, fun _ => Nat.zero_le _, fun _ => rfl⟩

/-- Where a command stands in its polling: the words `ws` have gone through, and the variables of
the transfer follow them. -/
def Polled (dir : SdDirection) (blkSize : U16) (cmd : U32) (ctx : Mmcdevice) (m : Moved)
    (v : SdTransfer) (m' : Moved) : Prop :=
  ∃ ws, Passed dir blkSize (ctx.size, dir.buffer ctx) (v.place dir) m m' ws ∧
    (¬Moves dir cmd ctx → ws = [])

/-- The polling starts with nothing gone through. -/
theorem Polled.start (dir : SdDirection) (blkSize : U16) (cmd : U32) (ctx : Mmcdevice) (m : Moved) :
    Polled dir blkSize cmd ctx m ⟨ctx.size, ctx.rData, ctx.tData⟩ m := by
  have hplace : SdTransfer.place ⟨ctx.size, ctx.rData, ctx.tData⟩ dir =
      (ctx.size, dir.buffer ctx) := by
    cases dir with
    | read => rfl
    | write => rfl
  refine ⟨[], ?_, fun _ => rfl⟩
  rw [hplace]
  exact Passed.refl ..

theorem Polled.within {dir : SdDirection} {blkSize : U16} {cmd : U32} {ctx : Mmcdevice}
    {m m' : Moved} {v : SdTransfer} (h : Polled dir blkSize cmd ctx m v m') :
    Within dir blkSize (Moves dir cmd ctx) (dir.buffer ctx) ctx.size m m' := by
  obtain ⟨ws, hpass, hnone⟩ := h
  exact ⟨ws, hpass.moved, hpass.source, fun h => (Nat.le_add_right _ _).trans (hpass.size h).le,
    hnone⟩

/-- A round takes it on. -/
theorem Polled.round {dir : SdDirection} {cmd : U32} (hother : cmd &&& dir.other.bit = 0)
    (d : MmcDrive) {ctx : Mmcdevice} {blkSize : U16} {m : Moved} {v : SdTransfer} {s : SdState σ}
    (h : Polled dir blkSize cmd ctx m v s.moved) :
    wp (pollRound H d cmd ctx.clearError blkSize v)
      (fun r t => ∃ v', (r = .inl v' ∨ r = .inr ⟨⟩) ∧ Polled dir blkSize cmd ctx m v' t.moved)
      never s := by
  obtain ⟨ws, hpass, hnone⟩ := h
  refine (pollRound_moved hother d ctx.clearError blkSize v s).mono ?_
  rintro r t ⟨v', us, hr, hpass', hnone'⟩
  refine ⟨v', hr, ws ++ us, hpass.trans hpass', fun h => ?_⟩
  rw [hnone h, hnone' (moves_clearError.not.mpr h), List.append_nil]

/-- **A command moves words of its buffer only**, at whatever point it is cut short. -/
theorem sdmmcSendCommand_within {dir : SdDirection} {cmd : U32}
    (hother : cmd &&& dir.other.bit = 0) (fuel : ℕ) (d : MmcDrive) (args : U32) (s : SdState σ)
    {W : SdState σ → Prop}
    (hW : ∀ t blkSize, (∀ val, Holds H (sdReg REG_SDBLKLEN32) val → blkSize = val s.hw) →
      Within dir blkSize (Moves dir cmd (s.dev d)) (dir.buffer (s.dev d)) (s.dev d).size s.moved
        t.moved → W t) :
    wp (sdmmcSendCommand H fuel d cmd args) (fun _ t => W t) W s := by
  have hsame (t : SdState σ) (ht : t.moved = s.moved) : W t := by
    refine hW t (H.read16 (sdReg REG_SDBLKLEN32) s.hw).1 (fun val hval => hval.read s.hw) ?_
    rw [ht]
    exact Within.refl dir _ _ _ _ s.moved
  have hF : AllowsRegs H ((Frame.same SdState.moved).inf
      ((Frame.same SdState.dev).inf (lengthFrame H))) :=
    allowsAnswer_moved.toAllowsRegs.inf (allowsRegs_dev.inf allowsAnswer_length.toAllowsRegs)
  simp only [sdmmcSendCommand, runCommand, wp_bind, wp_setDev]
  refine (hF.prepareCommand_of_waitIdle (hF.waitIdle fuel _) args).mono' ?_
    fun t ht => hsame t ht.1
  rintro - t ⟨hmoved, hdev, hlength⟩
  simp only [wp_sdmmcWrite16, wp_getDev, wp_sdmmcRead16]
  set u := t.onWrite16 H (sdReg REG_SDCMD) (cmd.setWidth 16) with hu
  set blkSize := (H.read16 (sdReg REG_SDBLKLEN32) u.hw).1 with hblk
  have hctx : u.dev d = (s.dev d).clearError := by
    change t.dev d = _
    rw [show t.dev = (s.assign d Mmcdevice.clearError).dev from hdev]
    exact Function.update_self ..
  have hlen : ∀ val, Holds H (sdReg REG_SDBLKLEN32) val → blkSize = val s.hw := by
    intro val hval
    rw [hblk, hval.read, hu]
    exact (hval.write16 _ (by decide) (by decide) _ _).trans (hlength val hval)
  have hu' : (u.onRead16 H (sdReg REG_SDBLKLEN32)).moved = s.moved :=
    (moved_onRead16 ..).trans ((moved_onWrite16 ..).trans hmoved)
  rw [hctx]
  -- what the rounds have moved is what may be moved, whenever they are cut short
  refine wp_untilDone (I := fun v w => Polled dir blkSize cmd (s.dev d) s.moved v w.moved)
    (fun v w hw => hW w blkSize hlen hw.within) (fun v w hw => ?_) fuel ?_
  · refine (hw.round hother d).mono' ?_ fun _ => False.elim
    rintro r w' ⟨v', rfl | rfl, hv'⟩
    · exact hv'
    · refine (allowsAnswer_moved.collectResponse d cmd w').mono' (fun _ w'' h => ?_)
        fun _ => False.elim
      have hmoved' : w''.moved = w'.moved := h
      refine hW _ blkSize hlen ?_
      change Within _ _ _ _ _ _ w''.moved
      rw [hmoved']
      exact hv'.within
  · rw [hu']
    exact Polled.start ..

/-- A transfer of sectors from or to a drive. -/
def sectors (H : SdmmcHw σ) : SdDirection → ℕ → MmcDrive → U32 → U32 → U32 → SdProg σ ℤ
  | .read => readsectors H
  | .write => writesectors H

/-- The command of a transfer. -/
def SdDirection.cmd : SdDirection → U32
  | .read => 0x33C12
  | .write => 0x52C19

/-- The assignment to the handle that a transfer starts with. -/
def SdDirection.aim (numsectors p : U32) : SdDirection → Mmcdevice → Mmcdevice
  | .read, ctx => { ctx with rData := p, size := numsectors <<< 9 }
  | .write, ctx => { ctx with tData := p, size := numsectors <<< 9 }

/-- The two functions that read and write sectors are one, but for the direction. -/
private theorem sectors_eq (dir : SdDirection) (fuel : ℕ) (d : MmcDrive) (sector count p : U32) :
    sectors H dir fuel d sector count p = (do
      let sector_no ← startTransfer H d sector count
      setDev d (dir.aim count p)
      sdmmcSendCommand H fuel d dir.cmd sector_no
      let ctx ← getDev d
      pure (getError ctx)) := by
  cases dir with
  | read => rfl
  | write => rfl

theorem SdDirection.cmd_other (dir : SdDirection) : dir.cmd &&& dir.other.bit = 0 := by
  cases dir with
  | read => decide
  | write => decide

theorem SdDirection.cmd_bit (dir : SdDirection) : dir.cmd &&& dir.bit ≠ 0 := by
  cases dir with
  | read => decide
  | write => decide

@[simp]
theorem SdDirection.buffer_aim (dir : SdDirection) (count p : U32) (ctx : Mmcdevice) :
    dir.buffer (dir.aim count p ctx) = p := by
  cases dir with
  | read => rfl
  | write => rfl

/-- A transfer set up by the sector functions moves data unless its buffer is NULL. -/
private theorem SdDirection.moves_aim {dir : SdDirection} {count p : U32} {ctx : Mmcdevice} :
    Moves dir dir.cmd (dir.aim count p ctx) ↔ p ≠ 0 := by
  rw [Moves, buffer_aim]
  exact and_iff_right dir.cmd_bit

@[simp]
theorem SdDirection.size_aim (dir : SdDirection) (count p : U32) (ctx : Mmcdevice) :
    (dir.aim count p ctx).size = count <<< 9 := by
  cases dir with
  | read => rfl
  | write => rfl

/-- The size that the sector functions set up has lost the upper nine bits of the count. -/
theorem toNat_shiftLeft_nine (count : U32) :
    (count <<< 9).toNat = 512 * (count.toNat % 2 ^ 23) := by
  rw [BitVec.toNat_shiftLeft, Nat.shiftLeft_eq]
  omega

/-- The sizes of a transfer have been written. -/
def SdState.sized (H : SdmmcHw σ) (s : SdState σ) (count : U32) : SdState σ :=
  (((s.onWrite16 H (sdReg REG_SDSTOP) 0x100).onWrite16 H (sdReg REG_SDBLKCOUNT32)
    (count.setWidth 16)).onWrite16 H (sdReg REG_SDBLKLEN32) 0x200).onWrite16 H
    (sdReg REG_SDBLKCOUNT) (count.setWidth 16)

@[simp]
theorem SdState.moved_sized (s : SdState σ) (count : U32) : (s.sized H count).moved = s.moved := by
  simp only [sized, moved_onWrite16]

@[simp]
theorem SdState.dev_assign_self (s : SdState σ) (d : MmcDrive) (f : Mmcdevice → Mmcdevice) :
    (s.assign d f).dev d = f (s.dev d) := Function.update_self ..

/-- A transfer, once its drive is the target, is its command. -/
theorem wp_sectors {dir : SdDirection} {fuel : ℕ} {d : MmcDrive} {sector count p : U32}
    {Q : ℤ → SdState σ → Prop} {E : SdState σ → Prop} {s : SdState σ}
    (h : wp (setTarget H d) (fun _ t => ∀ args, wp (sdmmcSendCommand H fuel d dir.cmd args)
      (fun _ u => Q (getError (u.dev d)) u) E ((t.sized H count).assign d (dir.aim count p))) E s) :
    wp (sectors H dir fuel d sector count p) Q E s := by
  simp only [sectors_eq, startTransfer, wp_bind, wp_getDev]
  exact h.mono fun _ t ht => ht _

/-- What a transfer of `count` sectors has moved so far: the words `ws`. -/
structure Transferred (dir : SdDirection) (count p : U32) (ws : List U32) (m m' : Moved) :
    Prop where
  moved : m' = m.pass dir p ws
  source : m.Source dir p ws
  size : 4 * ws.length ≤ 512 * count.toNat
  unused : p = 0 → ws = []

/-- **The sector functions stay inside their buffer** at any point, finished or not. -/
theorem wp_sectors_within {val : σ → U16} (hval : Holds H (sdReg REG_SDBLKLEN32) val)
    (dir : SdDirection) (fuel : ℕ) (d : MmcDrive) (sector count p : U32) (s : SdState σ) :
    wp (sectors H dir fuel d sector count p)
      (fun _ t => ∃ ws, Transferred dir count p ws s.moved t.moved)
      (fun t => ∃ ws, Transferred dir count p ws s.moved t.moved) s := by
  refine wp_sectors ((allowsAnswer_moved.setTarget d s).mono' (fun _ t ht args => ?_)
    fun _ => False.elim)
  refine sdmmcSendCommand_within dir.cmd_other fuel d args _ fun u blkSize hlen hwithin => ?_
  have hblk : blkSize = 0x200 := by
    rw [hlen val hval]
    exact (hval.write16 _ (by decide) (by decide) _ _).trans (hval.write ..)
  have hstart : ((t.sized H count).assign d (dir.aim count p)).moved = s.moved :=
    (t.moved_sized count).trans ht
  rw [SdState.dev_assign_self, SdDirection.buffer_aim, SdDirection.size_aim, hstart] at hwithin
  obtain ⟨ws, hmoved, hsource, hsize, hnone⟩ := hwithin
  refine ⟨ws, hmoved, hsource, ?_, fun hp => hnone fun h => SdDirection.moves_aim.mp h hp⟩
  have hle := hsize (by rw [hblk]; decide)
  rw [toNat_shiftLeft_nine] at hle
  omega

/-- **Transfers stay inside their buffer**, at whatever point they are cut short and whatever the
controller does, if only the length of blocks is what is written there. -/
theorem sectors_within {val : σ → U16} (hval : Holds H (sdReg REG_SDBLKLEN32) val)
    (dir : SdDirection) (fuel : ℕ) (d : MmcDrive) (sector count p : U32) (s : SdState σ) :
    ∃ ws, Transferred dir count p ws s.moved
      (exec (sectors H dir fuel d sector count p) s).2.moved :=
  (wp_sectors_within hval dir fuel d sector count p s).always

/-! ### A controller -/

/-- A card of a plain make: its registers for the length and the number of blocks, the words that
are left of the command it is at, and how often it is still looked at before it goes on. -/
structure PlainCard where
  blkLen : U16
  blkCount : U16
  left : ℕ
  serving : Bool
  wait : ℕ

/-- A word has gone through the FIFO: before the next one is asked for the card takes its time. -/
def PlainCard.pass (x : PlainCard) : PlainCard :=
  { x with left := x.left - 1, wait := if 0 < x.left then 3 else x.wait }

/-- The card is busy for a while after a command and after each block. Bit 10 of `REG_DATACTL32`
empties its FIFO. -/
def plainCard : SdmmcHw PlainCard where
  read16 a x :=
    (if a = sdReg REG_SDBLKLEN32 then x.blkLen
      else if a = sdReg REG_DATACTL32 then
        if x.wait = 0 ∧ 0 < x.left ∧ x.blkLen.toNat / 4 ≤ x.left then 0x100 else 0x200
      else if a = sdReg REG_SDSTATUS0 then
        if x.serving then if x.wait = 0 ∧ x.left = 0 then 5 else 1 else 0
      else if a = sdReg REG_SDSTATUS1 then if 0 < x.wait then TMIO_STAT1_CMD_BUSY else 0
      else 0, { x with wait := x.wait - 1 })
  write16 a v x :=
    if a = sdReg REG_SDBLKLEN32 then { x with blkLen := v }
    else if a = sdReg REG_SDBLKCOUNT32 then { x with blkCount := v }
    else if a = sdReg REG_SDSTATUS0 then { x with serving := false }
    else if a = sdReg REG_DATACTL32 then
      if v &&& 0x400 = 0 then x else { x with left := 0 }
    else if a = sdReg REG_SDCMD then
      { x with left := x.blkLen.toNat / 4 * x.blkCount.toNat, serving := true, wait := 3 }
    else x
  read32 a x := (BitVec.ofNat 32 x.left, if a = sdReg REG_SDFIFO32 then x.pass else x)
  write32 a _ x := if a = sdReg REG_SDFIFO32 then x.pass else x

/-- A handle that nothing is known of. -/
def idleDev : Mmcdevice where
  rData := 0
  tData := 0
  size := 0
  error := 0
  stat0 := 0
  stat1 := 0
  ret0 := 0
  ret1 := 0
  ret2 := 0
  ret3 := 0
  initarg := 0
  isSDHC := 0
  clk := 0
  SDOPT := 0
  devicenumber := 0
  total_size := 0
  res := 0

/-- The driver, with the plain card. -/
def plainState : SdState PlainCard where
  hw := ⟨0, 0, 0, false, 2⟩
  mem := fun _ => 0
  dev := fun _ => idleDev
  trace := []
  commands := []

/-- The plain card keeps the block length that was written. -/
private theorem plainCard_holds : Holds plainCard (sdReg REG_SDBLKLEN32) PlainCard.blkLen where
  read _ := rfl
  write _ _ := rfl
  read16 _ _ := rfl
  write16 b _ hb v x := by
    simp only [plainCard, if_neg hb]
    split_ifs <;> rfl

theorem sectors_within_plain : ∃ ws, Transferred .read 1 0x20000000 ws plainState.moved
    (exec (sectors plainCard .read 9 .handleSD 0 1 0x20000000) plainState).2.moved :=
  sectors_within plainCard_holds .read 9 .handleSD 0 1 0x20000000 plainState

end Arm9LinuxFw.Sdmmc
