import Arm9LinuxFw.Hw.SdTransfer

/-!
# Complete transfers

What a transfer does when the controller is in working order: it returns, and unless it reports an
error all of the sectors were moved.

* `Gauge` is what transfers depend on in a controller: the block length and count it was told, the
  words that its FIFO has still to pass on for the command it is at, and a bound on how often
  it may still make the driver wait.
* `Gauge.Serves` is a controller in working order. It says what happens at the accesses that the
  driver makes: reads and writes of the control registers leave the transfer alone, a word through
  the FIFO takes one off what is left, a command starts what the count and the length say, and
  whenever the driver has to wait some of the time it may have to wait for is over.
* The rank falls in every round that does not end the command, so that the polling ends
  (`polling_completes`); when it ends without an error, everything that was left has gone through.
* `sectors_complete` is the result for the sector functions, with the count that the register of 16
  bits holds; `sdmmcSdcardReadsectors_refines` puts it together with the bound of `SdTransfer`: what
  a read returns and stores is a reply of the card of the device model, which takes
  `sdmmc_sdcard_readsectors` for a function of the card (`Env.card`).
* `plainGauge` belongs to the plain card of `SdTransfer`, and shows that the conditions can be met,
  the waiting included.
-/

namespace Arm9LinuxFw.Sdmmc

open ByteMem Hoare

variable {σ : Type} {H : SdmmcHw σ}

/-! ### Controllers -/

/-- What transfers depend on in a controller. -/
structure Gauge (σ : Type) where
  /-- `REG_SDBLKLEN32` -/
  blkLen : σ → U16
  /-- `REG_SDBLKCOUNT32` -/
  blkCount : σ → U16
  /-- the words that the FIFO has still to pass on -/
  left : σ → ℕ
  /-- how often the driver may still find that it has to wait -/
  rank : σ → ℕ
  /-- `REG_SDSTATUS0` has been cleared, and no command has come since -/
  cleared : σ → Prop
  /-- it is at a command, which is what `REG_SDSTATUS0` is about -/
  serving : σ → Prop

/-- What was told stays so, and time may pass. -/
def Gauge.told (G : Gauge σ) : Frame σ :=
  Frame.ofPreorder
    (fun x y => G.blkLen y = G.blkLen x ∧ G.blkCount y = G.blkCount x ∧ G.rank y ≤ G.rank x)
    (fun _ => ⟨rfl, rfl, Nat.le_refl _⟩)
    fun h h' => ⟨h'.1.trans h.1, h'.2.1.trans h.2.1, h'.2.2.trans h.2.2⟩

/-- It stays ready for a command, or at one. -/
def Gauge.phase (G : Gauge σ) : Frame σ :=
  Frame.ofPreorder (fun x y => (G.cleared x → G.cleared y) ∧ (G.serving x → G.serving y))
    (fun _ => ⟨id, id⟩) fun h h' => ⟨h'.1 ∘ h.1, h'.2 ∘ h.2⟩

/-- Besides, no data goes. -/
def Gauge.stock (G : Gauge σ) : Frame σ :=
  Frame.ofPreorder
    (fun x y => G.blkLen y = G.blkLen x ∧ G.blkCount y = G.blkCount x ∧ G.left y = G.left x ∧
      G.rank y ≤ G.rank x)
    (fun _ => ⟨rfl, rfl, rfl, Nat.le_refl _⟩)
    fun h h' => ⟨h'.1.trans h.1, h'.2.1.trans h.2.1, h'.2.2.1.trans h.2.2.1,
      h'.2.2.2.trans h.2.2.2⟩

/-- The controller is where it was. -/
def Gauge.rest (G : Gauge σ) : Frame σ := G.stock.inf G.phase

/-- What is left has gone on through a buffer with `size` bytes, which has `size'` left. -/
structure Gauge.Gone (G : Gauge σ) (size size' : U32) (x y : σ) : Prop where
  length : G.blkLen y = G.blkLen x
  room : 4 * G.left y ≤ size'.toNat
  le : G.left y ≤ G.left x
  blocks : 128 ∣ G.left x → 128 ∣ G.left y
  phase : G.phase.rel x y
  count : 4 * G.left x + size'.toNat ≤ 4 * G.left y + size.toNat
  rank : G.rank y ≤ G.rank x
  progress : 0 < G.left x → G.rank y < G.rank x

/-- Time that passes afterwards takes nothing back of what has gone through the FIFO. -/
theorem Gauge.Gone.rest {G : Gauge σ} {size size' : U32} {x y z : σ} (h : G.Gone size size' x y)
    (hz : G.rest.rel y z) : G.Gone size size' x z where
  length := hz.1.1.trans h.length
  room := by
    rw [hz.1.2.2.1]
    exact h.room
  le := by
    rw [hz.1.2.2.1]
    exact h.le
  blocks := by
    rw [hz.1.2.2.1]
    exact h.blocks
  phase := G.phase.trans h.phase hz.2
  count := by
    rw [hz.1.2.2.1]
    exact h.count
  rank := hz.1.2.2.2.trans h.rank
  progress hpos := hz.1.2.2.2.trans_lt (h.progress hpos)

/-- The words that have gone through the FIFO in a direction. -/
def Moved.through (m : Moved) : SdDirection → ℕ
  | .read => m.fifoIn.length
  | .write => m.fifoOut.length

private theorem Moved.through_pass (m : Moved) (dir : SdDirection) (p : U32) (ws : List U32) :
    (m.pass dir p ws).through dir = m.through dir + ws.length := by
  cases dir with
  | read => exact List.length_append
  | write => exact List.length_append

/-- What goes from what is left goes through the FIFO. -/
def Gauge.through (G : Gauge σ) (dir : SdDirection) : Frame (SdState σ) :=
  Frame.ofPreorder
    (fun s t => G.left s.hw + s.moved.through dir ≤ G.left t.hw + t.moved.through dir)
    (fun _ => Nat.le_refl _) fun h h' => Nat.le_trans h h'

/-- In the middle of a transfer the buffer has room for what is left. -/
structure Gauge.Underway (G : Gauge σ) (v : SdTransfer) (x : σ) : Prop where
  length : G.blkLen x = 0x200
  serving : G.serving x
  blocks : 128 ∣ G.left x
  room : 4 * G.left x ≤ v.size.toNat

/-- A transfer stays under way while time passes. -/
theorem Gauge.Underway.rest {G : Gauge σ} {v : SdTransfer} {x y : σ} (h : G.Underway v x)
    (hy : G.rest.rel x y) : G.Underway v y where
  length := hy.1.1.trans h.length
  serving := hy.2.2 h.serving
  blocks := by
    rw [hy.1.2.2.1]
    exact h.blocks
  room := by
    rw [hy.1.2.2.1]
    exact h.room

/-- The FIFO passes on a word. -/
def SdDirection.Step (H : SdmmcHw σ) (x y : σ) : SdDirection → Prop
  | .read => y = (H.read32 (sdReg REG_SDFIFO32) x).2
  | .write => ∃ w, y = H.write32 (sdReg REG_SDFIFO32) w x

/-- The registers that the driver looks at while a command is on its way. -/
def statusRegs : List U32 :=
  [sdReg REG_SDSTATUS0, sdReg REG_SDSTATUS1, sdReg REG_DATACTL32, sdReg REG_SDBLKLEN32]

/-- The registers that the driver writes to between clearing the status and the command. -/
def argRegs : List U32 := [sdReg REG_DATACTL32, sdReg REG_SDCMDARG0, sdReg REG_SDCMDARG1]

/-- A controller in working order, as far as transfers in one direction go: what is asked of it is
about the accesses that the driver makes, each at the time it makes it. -/
structure Gauge.Serves (G : Gauge σ) (H : SdmmcHw σ) (dir : SdDirection) (bound : ℕ) : Prop where
  /-- the driver may look at any register, and write to those that control a command -/
  read16 : ∀ a x, G.told.rel x (H.read16 a x).2
  write16 : ∀ a ∈ controlRegs, ∀ v x, G.told.rel x (H.write16 a v x)
  /-- a transfer goes on as it was when the driver looks at the status -/
  poll : ∀ a ∈ statusRegs, ∀ x, G.rest.rel x (H.read16 a x).2
  /-- or acknowledges a block, which is not to empty the FIFO -/
  ack : ∀ v x, G.rest.rel x (H.write16 (sdReg REG_SDSTATUS1) v x)
  ctl : ∀ v x, v &&& 0x400 = 0 → G.rest.rel x (H.write16 (sdReg REG_DATACTL32) v x)
  ctlRead : ∀ x, (H.read16 (sdReg REG_DATACTL32) x).1 &&& 0x400 = 0
  /-- what else comes before a command leaves `REG_SDSTATUS0` cleared -/
  clear : ∀ x, G.cleared (H.write16 (sdReg REG_SDSTATUS0) 0 x)
  keepCleared : ∀ a ∈ argRegs, ∀ v x, G.cleared x → G.cleared (H.write16 a v x)
  getLength : ∀ x, (H.read16 (sdReg REG_SDBLKLEN32) x).1 = G.blkLen x
  setLength : ∀ v x, G.blkLen (H.write16 (sdReg REG_SDBLKLEN32) v x) = v ∧
    G.blkCount (H.write16 (sdReg REG_SDBLKLEN32) v x) = G.blkCount x ∧
    G.rank (H.write16 (sdReg REG_SDBLKLEN32) v x) ≤ G.rank x
  setCount : ∀ v x, G.blkLen (H.write16 (sdReg REG_SDBLKCOUNT32) v x) = G.blkLen x ∧
    G.blkCount (H.write16 (sdReg REG_SDBLKCOUNT32) v x) = v ∧
    G.rank (H.write16 (sdReg REG_SDBLKCOUNT32) v x) ≤ G.rank x
  keepLength : ∀ v x, G.blkLen (H.write16 (sdReg REG_SDCMD) v x) = G.blkLen x
  /-- a command is for as many blocks as were told -/
  command : ∀ x, G.left (H.write16 (sdReg REG_SDCMD) (dir.cmd.setWidth 16) x) =
    (G.blkLen x).toNat / 4 * (G.blkCount x).toNat ∧
    G.rank (H.write16 (sdReg REG_SDCMD) (dir.cmd.setWidth 16) x) ≤ bound ∧
    (G.cleared x → G.serving (H.write16 (sdReg REG_SDCMD) (dir.cmd.setWidth 16) x))
  fifo : ∀ x y, dir.Step H x y → G.blkLen y = G.blkLen x ∧ G.left y = G.left x - 1 ∧
    G.phase.rel x y ∧ G.rank y ≤ G.rank x ∧ (0 < G.left x → G.rank y < G.rank x)
  /-- when it is ready for a block, there is one to go -/
  ready : ∀ x, dir.Ready (H.read16 (sdReg REG_DATACTL32) x).1 →
    G.left x = 0 ∨ (G.blkLen x).toNat / 4 ≤ G.left x
  /-- a transfer has ended when nothing is left of it -/
  ended : ∀ x, G.serving x →
    (H.read16 (sdReg REG_SDSTATUS0) x).1 &&& TMIO_STAT0_DATAEND ≠ 0 → G.left x = 0
  busy : ∀ x, (H.read16 (sdReg REG_SDSTATUS1) x).1 &&& TMIO_STAT1_CMD_BUSY ≠ 0 →
    G.rank (H.read16 (sdReg REG_SDSTATUS1) x).2 < G.rank x
  waiting : ∀ x, G.serving x → ¬dir.Ready (H.read16 (sdReg REG_DATACTL32) x).1 → 0 < G.left x →
    (G.blkLen x).toNat / 4 ≤ G.left x →
    G.rank (H.read16 (sdReg REG_DATACTL32) x).2 < G.rank x
  settling : ∀ x, G.serving x → (H.read16 (sdReg REG_SDSTATUS0) x).1 &&& 5 ≠ 5 → G.left x = 0 →
    G.rank (H.read16 (sdReg REG_SDSTATUS0) x).2 < G.rank x

/-- `TMIO_STAT0_CMDRESPEND | TMIO_STAT0_DATAEND` -/
private theorem SdDirection.cmdFlags_cmd (dir : SdDirection) : cmdFlags dir.cmd = 5 := by
  cases dir with
  | read => decide
  | write => decide

namespace Gauge.Serves

variable {G : Gauge σ} {dir : SdDirection} {bound : ℕ} (hG : G.Serves H dir bound)

include hG

/-- The block length is a register that holds what is written to it. -/
theorem holds : Holds H (sdReg REG_SDBLKLEN32) G.blkLen where
  read := hG.getLength
  write v x := (hG.setLength v x).1
  read16 a x := (hG.read16 a x).1
  write16 a ha hne v x := by
    rcases List.mem_append.mp ha with hreg | hreg
    · simp only [transferRegs, List.mem_cons, List.not_mem_nil, or_false] at hreg
      rcases hreg with rfl | rfl | rfl
      · exact hG.keepLength v x
      · exact absurd rfl hne
      · exact (hG.setCount v x).1
    · exact (hG.write16 a hreg v x).1

private theorem allowsAnswer : AllowsAnswer H (G.told.comap SdState.hw) where
  read16 a s := hG.read16 a s.hw
  write16 a v ha s := hG.write16 a ha v s.hw
  setDev _ _ _ _ s := G.told.refl s.hw

/-- A block is acknowledged. -/
private theorem acknowledge (ack : U16) (s : SdState σ) :
    wp (sdmmcMask16 H REG_SDSTATUS1 ack 0) (fun _ t => G.rest.rel s.hw t.hw) never s := by
  simp only [sdmmcMask16, wp_bind, wp_sdmmcRead16, wp_sdmmcWrite16]
  exact G.rest.trans (hG.poll _ (by decide) _) (hG.ack _ _)

/-- Its interrupt is turned off, which does not empty the FIFO. -/
private theorem maskIrq (irq : U16) (s : SdState σ) :
    wp (sdmmcMask16 H REG_DATACTL32 irq 0) (fun _ t => G.rest.rel s.hw t.hw) never s := by
  simp only [sdmmcMask16, wp_bind, wp_sdmmcRead16, wp_sdmmcWrite16]
  refine G.rest.trans (hG.poll _ (by decide) _) (hG.ctl _ _ ?_)
  have hread := hG.ctlRead s.hw
  grind

/-! ### Blocks -/

/-- Passing words through the FIFO takes them off what is left, and brings the driver nearer. -/
private theorem fifo_left (n : ℕ) (p : U32) (s : SdState σ) :
    wp (dir.fifo H n p) (fun _ t => G.blkLen t.hw = G.blkLen s.hw ∧
      G.left t.hw = G.left s.hw - n ∧ G.phase.rel s.hw t.hw ∧ G.rank t.hw ≤ G.rank s.hw ∧
      (0 < n → 0 < G.left s.hw → G.rank t.hw < G.rank s.hw)) never s := by
  induction n generalizing p s with
  | zero =>
    have hnil : wp (pure p : SdProg σ U32) (fun _ t => G.blkLen t.hw = G.blkLen s.hw ∧
        G.left t.hw = G.left s.hw - 0 ∧ G.phase.rel s.hw t.hw ∧ G.rank t.hw ≤ G.rank s.hw ∧
        (0 < 0 → 0 < G.left s.hw → G.rank t.hw < G.rank s.hw)) never s :=
      (wp_pure p).mpr ⟨rfl, rfl, G.phase.refl _, Nat.le_refl _,
        fun h => absurd h (Nat.lt_irrefl 0)⟩
    cases dir with
    | read => exact hnil
    | write => exact hnil
  | succ n ih =>
    obtain ⟨t, hstep, hrest⟩ : ∃ t : SdState σ, dir.Step H s.hw t.hw ∧
        ∀ Q, wp (dir.fifo H n (p + 4)) Q never t → wp (dir.fifo H (n + 1) p) Q never s := by
      cases dir with
      | read =>
        refine ⟨_, ?_, fun Q h => h⟩
        exact rfl
      | write =>
        refine ⟨_, ?_, fun Q h => h⟩
        exact ⟨_, rfl⟩
    obtain ⟨hlen, hleft, hphase, hrank, hlt⟩ := hG.fifo s.hw t.hw hstep
    refine hrest _ ((ih (p + 4) t).mono ?_)
    rintro q u ⟨hlen', hleft', hphase', hrank', -⟩
    refine ⟨hlen'.trans hlen, ?_, G.phase.trans hphase hphase', hrank'.trans hrank,
      fun _ hpos => hrank'.trans_lt (hlt hpos)⟩
    rw [hleft', hleft]
    omega

/-- A block of what is left goes through the FIFO: the buffer has room for it. -/
private theorem passBlock_left {useBuf : Prop} [Decidable useBuf] (hbuf : useBuf) (ack irq : U16)
    {size : U32} (p : U32) {s : SdState σ} (hleft : G.left s.hw = 0 ∨ 128 ≤ G.left s.hw)
    (hsize : 4 * G.left s.hw ≤ size.toNat) :
    wp (passBlock H useBuf ack irq 0x200 (dir.fifo H) size p)
      (fun r t => G.Gone size r.1 s.hw t.hw) never s := by
  have hend (size' : U32) (u : SdState σ) (hu : G.Gone size size' s.hw u.hw) :
      wp (sdmmcMask16 H REG_DATACTL32 irq 0) (fun _ u => G.Gone size size' s.hw u.hw) never u :=
    (hG.maskIrq irq u).mono fun _ _ hw => hu.rest hw
  simp only [passBlock, if_pos hbuf, wp_bind]
  refine (hG.acknowledge ack s).mono ?_
  rintro - t ⟨⟨hlen, -, ht, hrank⟩, hphase⟩
  by_cases hroom : (0x200 : U16).setWidth 32 ≤ size
  · simp only [if_pos hroom, wp_bind, wp_pure]
    refine (hG.fifo_left (blockWords 0x200) p t).mono ?_
    rintro q u ⟨hlen', hu, hphase', hrank', hlt⟩
    have hwords : blockWords 0x200 = 128 := by decide
    have hsub : (size - (0x200 : U16).setWidth 32).toNat = size.toNat - 512 :=
      BitVec.toNat_sub_of_le hroom
    have hle : 512 ≤ size.toNat := by simpa [BitVec.le_def] using hroom
    rw [hwords, ht] at hu hlt
    refine hend _ u ⟨hlen'.trans hlen, ?_, ?_, fun h => ?_, G.phase.trans hphase hphase', ?_,
      hrank'.trans hrank, fun h => (hlt (by omega) h).trans_le hrank⟩
    · rw [hsub, hu]
      omega
    · rw [hu]
      exact Nat.sub_le _ _
    · rw [hu]
      exact Nat.dvd_sub h (Nat.dvd_refl 128)
    · rw [hsub, hu]
      omega
  · -- a buffer without room for a block has nothing to wait for
    have hlt : size.toNat < 512 := by simpa [BitVec.le_def] using hroom
    simp only [if_neg hroom, wp_pure]
    refine hend size t ⟨hlen, by rwa [ht], ht.le, fun h => by rwa [ht], hphase, by rw [ht],
      hrank, fun h => ?_⟩
    omega

/-! ### Rounds -/

/-- A round ends with an error, with nothing left, or with time having passed. -/
private theorem roundEnd_left (d : MmcDrive) (status1 : U16) (v : SdTransfer) {s : SdState σ}
    (hserving : G.serving s.hw) :
    wp (roundEnd H d dir.cmd status1 v) (fun r t => G.rest.rel s.hw t.hw ∧
      (r = .inl v ∧ (status1 &&& TMIO_STAT1_CMD_BUSY ≠ 0 ∨
        (G.left s.hw = 0 → G.rank t.hw < G.rank s.hw)) ∨
      r = .inr ⟨⟩ ∧ ((t.dev d).error &&& 4 = 0 → G.left t.hw = 0))) never s := by
  rw [roundEnd]
  split_ifs with herror hbusy
  · rw [wp_bind, wp_setDev, wp_pure, SdState.dev_assign_self]
    refine ⟨G.rest.refl s.hw, .inr ⟨rfl, fun h => ?_⟩⟩
    have hbit : (((s.dev d).error ||| 4) &&& 4).getLsbD 2 = true := by simp
    exact absurd (h ▸ hbit) (by decide)
  · exact ⟨G.rest.refl s.hw, .inl ⟨rfl, .inl hbusy⟩⟩
  · rw [wp_bind, wp_sdmmcRead16, wp_bind, wp_sdmmcRead16, wp_bind, wp_setDev, wp_pure]
    have hrest := hG.poll (sdReg REG_SDSTATUS0) (by decide) s.hw
    have hrest' := hG.poll (sdReg REG_SDSTATUS0) (by decide)
      (H.read16 (sdReg REG_SDSTATUS0) s.hw).2
    refine ⟨G.rest.trans hrest hrest', ?_⟩
    rw [dir.cmdFlags_cmd]
    by_cases hflags : (H.read16 (sdReg REG_SDSTATUS0) s.hw).1 &&& 5 = 5
    · refine .inr ⟨if_pos hflags, fun _ => ?_⟩
      have hend : (H.read16 (sdReg REG_SDSTATUS0) s.hw).1 &&& TMIO_STAT0_DATAEND = 5 &&& 4 := by
        rw [← hflags, BitVec.and_assoc]
        rfl
      exact (G.rest.trans hrest hrest').1.2.2.1.trans
        (hG.ended s.hw hserving fun h => absurd (hend.symm.trans h) (by decide))
    · exact .inl ⟨if_neg hflags, .inr fun hleft =>
        hrest'.1.2.2.2.trans_lt (hG.settling s.hw hserving hflags hleft)⟩

/-- A block on its way: what goes from what is left goes through the FIFO. -/
private theorem passBlock_gone {useBuf : Prop} [Decidable useBuf] (hbuf : useBuf) (ack irq : U16)
    {size : U32} (p : U32) {s : SdState σ} (hleft : G.left s.hw = 0 ∨ 128 ≤ G.left s.hw)
    (hsize : 4 * G.left s.hw ≤ size.toNat) :
    wp (passBlock H useBuf ack irq 0x200 (dir.fifo H) size p)
      (fun r t => G.Gone size r.1 s.hw t.hw ∧ (G.through dir).rel s t) never s := by
  refine ((hG.passBlock_left hbuf ack irq p hleft hsize).and
    (passBlock_moved dir useBuf ack irq 0x200 size p s)).mono' ?_ fun _ h => h.1
  rintro r t ⟨hgone, ws, hpass, -⟩
  refine ⟨hgone, ?_⟩
  have hcount := hgone.count
  have hws := hpass.size (by decide)
  change G.left s.hw + s.moved.through dir ≤ G.left t.hw + t.moved.through dir
  rw [hpass.moved, Moved.through_pass]
  change 4 * ws.length + r.1.toNat = size.toNat at hws
  omega

/-- What has gone through the buffer by the end of a round is accounted for, and the transfer goes
on, time having passed, or is over. -/
private theorem roundEnd_underway (d : MmcDrive) {status1 : U16} {v : SdTransfer} {s w : SdState σ}
    (hw : G.Underway v w.hw) (hthrough : (G.through dir).rel s w)
    (hrank : G.rank w.hw ≤ G.rank s.hw)
    (hbusy : status1 &&& TMIO_STAT1_CMD_BUSY ≠ 0 → G.rank w.hw < G.rank s.hw)
    (hprogress : 0 < G.left w.hw → G.rank w.hw < G.rank s.hw) :
    wp (roundEnd H d dir.cmd status1 v) (fun r t => (G.through dir).rel s t ∧
      ((∃ v', r = .inl v' ∧ G.Underway v' t.hw ∧ G.rank t.hw < G.rank s.hw) ∨
        r = .inr ⟨⟩ ∧ ((t.dev d).error &&& 4 = 0 → G.left t.hw = 0))) never w := by
  refine ((hG.roundEnd_left d status1 v hw.serving).and
    (roundEnd_moved d dir.cmd status1 v w)).mono' ?_ fun _ h => h.1
  rintro r x ⟨⟨hwx, hr⟩, -, hmoved⟩
  have hrank' := hwx.1.2.2.2
  refine ⟨(G.through dir).trans hthrough ?_, ?_⟩
  · change G.left w.hw + w.moved.through dir ≤ G.left x.hw + x.moved.through dir
    rw [hwx.1.2.2.1, hmoved]
  · rcases hr with ⟨rfl, hr⟩ | ⟨rfl, hr⟩
    · refine .inl ⟨v, rfl, hw.rest hwx, ?_⟩
      rcases hr with hr | hr
      · exact hrank'.trans_lt (hbusy hr)
      · rcases Nat.eq_zero_or_pos (G.left w.hw) with h0 | hpos
        · exact (hr h0).trans_le hrank
        · exact hrank'.trans_lt (hprogress hpos)
    · exact .inr ⟨rfl, hr⟩

/-- A round of a transfer that has a buffer. -/
private theorem pollRound_left (d : MmcDrive) {ctx : Mmcdevice} (hbuf : dir.buffer ctx ≠ 0)
    {v : SdTransfer} {s : SdState σ} (hs : G.Underway v s.hw) :
    wp (pollRound H d dir.cmd ctx 0x200 v) (fun r t => (G.through dir).rel s t ∧
      ((∃ v', r = .inl v' ∧ G.Underway v' t.hw ∧ G.rank t.hw < G.rank s.hw) ∨
        r = .inr ⟨⟩ ∧ ((t.dev d).error &&& 4 = 0 → G.left t.hw = 0))) never s := by
  simp only [pollRound_eq dir.cmd_other, wp_bind, wp_sdmmcRead16, wp_ite, wp_pure]
  set t := s.onRead16 H (sdReg REG_SDSTATUS1) with ht
  set u := t.onRead16 H (sdReg REG_DATACTL32) with hu
  have hst : G.rest.rel s.hw t.hw := hG.poll _ (by decide) _
  have htu : G.rest.rel t.hw u.hw := hG.poll _ (by decide) _
  have hsu := G.rest.trans hst htu
  have hthrough : (G.through dir).rel s u := by
    change G.left s.hw + s.moved.through dir ≤ G.left u.hw + u.moved.through dir
    rw [hsu.1.2.2.1, hu, moved_onRead16, ht, moved_onRead16]
  have htu' : G.rank u.hw ≤ G.rank t.hw := htu.1.2.2.2
  have hbusy := hG.busy s.hw
  split_ifs with hready
  · have hleft : G.left u.hw = 0 ∨ 128 ≤ G.left u.hw := by
      have hblock := hG.ready t.hw hready.1
      rwa [hst.1.1, hs.length, ← htu.1.2.2.1] at hblock
    have hroom : 4 * G.left u.hw ≤ (v.place dir).1.toNat := by
      rw [hsu.1.2.2.1, v.fst_place]
      exact hs.room
    refine wp_block fun ack irq => (hG.passBlock_gone hbuf ack irq _ hleft hroom).mono ?_
    rintro r w ⟨hgone, hw⟩
    have hunderway := hs.rest hsu
    refine hG.roundEnd_underway d ⟨hgone.length.trans hunderway.length,
      hgone.phase.2 hunderway.serving, hgone.blocks hunderway.blocks, ?_⟩
      ((G.through dir).trans hthrough hw) (hgone.rank.trans hsu.1.2.2.2)
      (fun h => (hgone.rank.trans htu').trans_lt (hbusy h)) fun hpos => ?_
    · rw [SdTransfer.size_put]
      exact hgone.room
    · exact (hgone.progress (hpos.trans_le hgone.le)).trans_le hsu.1.2.2.2
  · refine hG.roundEnd_underway d (hs.rest hsu) hthrough hsu.1.2.2.2
      (fun h => htu'.trans_lt (hbusy h)) fun hpos => ?_
    have hunderway := hs.rest hst
    rw [htu.1.2.2.1] at hpos
    have hblock : (G.blkLen t.hw).toNat / 4 ≤ G.left t.hw := by
      rw [hunderway.length]
      exact Nat.le_of_dvd hpos hunderway.blocks
    exact (hG.waiting t.hw hunderway.serving (fun h => hready ⟨h, dir.cmd_bit⟩) hpos
      hblock).trans_le hst.1.2.2.2

/-- The polling ends, and unless with an error, `n` words at least have gone through by then, if
that many were left or had gone through before. -/
private theorem polling_completes {fuel : ℕ} (d : MmcDrive) {ctx : Mmcdevice}
    (hbuf : dir.buffer ctx ≠ 0)
    {n : ℕ} {v : SdTransfer} {s : SdState σ} (hs : G.Underway v s.hw)
    (hn : n ≤ G.left s.hw + s.moved.through dir) (hfuel : G.rank s.hw < fuel) :
    wp (untilDone (pollRound H d dir.cmd ctx 0x200) fuel v)
      (fun _ t => (t.dev d).error &&& 4 = 0 → n ≤ t.moved.through dir) never s := by
  refine wp_untilDone_of_variant
    (I := fun v w => G.Underway v w.hw ∧ n ≤ G.left w.hw + w.moved.through dir)
    (fun _ w => G.rank w.hw) (fun v w hw => ?_) ⟨hs, hn⟩ hfuel
  refine (hG.pollRound_left d hbuf hw.1).mono ?_
  rintro r w' ⟨hthrough, hr⟩
  change G.left w.hw + w.moved.through dir ≤ G.left w'.hw + w'.moved.through dir at hthrough
  have hcount := hw.2
  rcases hr with ⟨v', rfl, hv', hlt⟩ | ⟨rfl, herror⟩
  · exact ⟨⟨hv', by omega⟩, hlt⟩
  · intro hok
    have h0 := herror hok
    omega

/-! ### Commands -/

/-- The driver does not wait for the controller for ever. -/
theorem waitIdle_ends {F : Frame (SdState σ)} (hF : AllowsRegs H F) {fuel : ℕ} {s : SdState σ}
    (hfuel : G.rank s.hw < fuel) : wp (waitIdle H fuel) (fun _ t => F.rel s t) never s := by
  rw [waitIdle]
  refine wp_untilDone_of_variant (I := fun _ t => F.rel s t)
    (fun _ t => G.rank t.hw) (fun _ t ht => ?_) (F.refl s) hfuel
  rw [wp_bind, wp_sdmmcRead16, wp_pure]
  have hread : F.rel s (t.onRead16 H (sdReg REG_SDSTATUS1)) := F.trans ht (hF.read16 _ t)
  split_ifs with hbusy
  · exact ⟨hread, hG.busy t.hw hbusy⟩
  · exact hread

/-- Before a command `REG_SDSTATUS0` is cleared. -/
private theorem prepareCommand_cleared {fuel : ℕ} {s : SdState σ} (hfuel : G.rank s.hw < fuel)
    (args : U32) : wp (prepareCommand H fuel args) (fun _ t => G.cleared t.hw) never s := by
  simp only [prepareCommand, sdmmcMask16, wp_bind, wp_sdmmcRead16, wp_sdmmcWrite16]
  refine (hG.waitIdle_ends allowsAnswer_moved.toAllowsRegs hfuel).mono fun _ t _ => ?_
  refine hG.keepCleared _ (by decide) _ _ (hG.keepCleared _ (by decide) _ _
    (hG.keepCleared _ (by decide) _ _ ((hG.poll _ (by decide) _).2.1 ?_)))
  exact (hG.ack _ _).2.1 (hG.clear _)

/-- **A command with data ends**, and unless it ends with an error, all of it went through. -/
theorem sdmmcSendCommand_completes {fuel : ℕ} {d : MmcDrive} {s : SdState σ}
    (hbuf : dir.buffer (s.dev d) ≠ 0) (hlen : G.blkLen s.hw = 0x200)
    (hroom : 512 * (G.blkCount s.hw).toNat ≤ (s.dev d).size.toNat) (hrank : G.rank s.hw < fuel)
    (hbound : bound < fuel) (args : U32) :
    wp (sdmmcSendCommand H fuel d dir.cmd args) (fun _ t => (t.dev d).error &&& 4 = 0 →
      s.moved.through dir + 128 * (G.blkCount s.hw).toNat ≤ t.moved.through dir) never s := by
  have hF : AllowsRegs H ((G.told.comap SdState.hw).inf ((Frame.same SdState.moved).inf
      (Frame.same SdState.dev))) :=
    hG.allowsAnswer.toAllowsRegs.inf (allowsAnswer_moved.toAllowsRegs.inf allowsRegs_dev)
  simp only [sdmmcSendCommand, runCommand, wp_bind, wp_setDev]
  refine ((hF.prepareCommand_of_waitIdle (hG.waitIdle_ends hF (s := s.assign d _) hrank)
    args).and (hG.prepareCommand_cleared (s := s.assign d _) hrank args)).mono' ?_ fun _ h => h.1
  rintro - t ⟨⟨htold, hmoved, hdev⟩, hcleared⟩
  simp only [wp_sdmmcWrite16, wp_getDev, wp_sdmmcRead16]
  set u := t.onWrite16 H (sdReg REG_SDCMD) (dir.cmd.setWidth 16) with hu
  obtain ⟨hleft, hrank', hserving⟩ := hG.command t.hw
  have hctx : u.dev d = (s.dev d).clearError := by
    change t.dev d = _
    rw [show t.dev = (s.assign d Mmcdevice.clearError).dev from hdev]
    exact Function.update_self ..
  have hlen' : G.blkLen u.hw = 0x200 := (hG.keepLength _ t.hw).trans (htold.1.trans hlen)
  have hread := hG.poll (sdReg REG_SDBLKLEN32) (by decide) u.hw
  have hleft' : G.left (u.onRead16 H (sdReg REG_SDBLKLEN32)).hw =
      128 * (G.blkCount s.hw).toNat := by
    refine hread.1.2.2.1.trans (hleft.trans ?_)
    rw [htold.1, htold.2.1]
    change (G.blkLen s.hw).toNat / 4 * _ = _
    rw [hlen]
    rfl
  have hmoved' : (u.onRead16 H (sdReg REG_SDBLKLEN32)).moved = s.moved := by
    rw [moved_onRead16, hu, moved_onWrite16]
    exact hmoved
  rw [hG.getLength, hlen', hctx]
  refine (hG.polling_completes d (n := s.moved.through dir + 128 * (G.blkCount s.hw).toNat)
    (by rwa [dir.buffer_clearError])
    ⟨hread.1.1.trans hlen', hread.2.2 (hserving hcleared), ?_, ?_⟩ ?_
    (hread.1.2.2.2.trans_lt (hrank'.trans_lt hbound))).mono fun _ w hw => ?_
  · rw [hleft']
    exact Nat.dvd_mul_right ..
  · rw [hleft']
    change _ ≤ (s.dev d).size.toNat
    omega
  · rw [hleft', hmoved']
    omega
  · refine ((allowsAnswer_moved.inf (allowsAnswer_error d)).collectResponse d dir.cmd w).mono ?_
    rintro - x ⟨hmoved, herror⟩ hok
    change _ ≤ x.moved.through dir
    rw [show x.moved = w.moved from hmoved]
    exact hw ((congrArg (· &&& 4) herror).symm.trans hok)

/-- What the sector functions tell the controller is what it has been told. -/
private theorem sized_gauge (s : SdState σ) (count : U32) :
    G.blkLen (s.sized H count).hw = 0x200 ∧
      G.blkCount (s.sized H count).hw = count.setWidth 16 ∧
      G.rank (s.sized H count).hw ≤ G.rank s.hw := by
  have hstop := hG.write16 (sdReg REG_SDSTOP) (by decide) 0x100 s.hw
  have hcount := hG.setCount (count.setWidth 16) (H.write16 (sdReg REG_SDSTOP) 0x100 s.hw)
  have hlen := hG.setLength 0x200 (H.write16 (sdReg REG_SDBLKCOUNT32) (count.setWidth 16)
    (H.write16 (sdReg REG_SDSTOP) 0x100 s.hw))
  have hlast := hG.write16 (sdReg REG_SDBLKCOUNT) (by decide) (count.setWidth 16)
    (H.write16 (sdReg REG_SDBLKLEN32) 0x200 (H.write16 (sdReg REG_SDBLKCOUNT32)
      (count.setWidth 16) (H.write16 (sdReg REG_SDSTOP) 0x100 s.hw)))
  exact ⟨hlast.1.trans hlen.1, hlast.2.1.trans (hlen.2.1.trans hcount.2.1),
    hlast.2.2.trans (hlen.2.2.trans (hcount.2.2.trans hstop.2.2))⟩

end Gauge.Serves

/-! ### Sectors -/

/-- `get_error` looks at one bit of what the handle recorded. -/
private theorem getError_eq (ctx : Mmcdevice) :
    getError ctx = if ctx.error &&& 4 = 0 then 0 else 1 := by
  have hval : ((ctx.error <<< 29) >>> 31).toNat = ctx.error.toNat / 2 ^ 2 % 2 := by
    rw [BitVec.toNat_ushiftRight, BitVec.toNat_shiftLeft, Nat.shiftLeft_eq,
      Nat.shiftRight_eq_div_pow]
    omega
  have hbit : ctx.error.getLsbD 2 = decide (ctx.error.toNat / 2 ^ 2 % 2 = 1) :=
    Nat.testBit_eq_decide_div_mod_eq
  rw [getError, show (4 : U32) = BitVec.twoPow 32 2 from rfl, BitVec.and_twoPow, hbit]
  rcases Nat.mod_two_eq_zero_or_one (ctx.error.toNat / 2 ^ 2) with h | h
  · rw [h] at hval
    rw [BitVec.eq_of_toNat_eq (y := 0#32) hval, h]
    rfl
  · rw [h] at hval
    rw [BitVec.eq_of_toNat_eq (y := 1#32) hval, h]
    rfl

/-- A controller in working order has the sector functions return, with all sectors moved unless
they say so. -/
private theorem wp_sectors_complete {G : Gauge σ} {dir : SdDirection} {bound : ℕ}
    (hG : G.Serves H dir bound) {fuel : ℕ} (d : MmcDrive) (sector count : U32) {p : U32}
    (hp : p ≠ 0) {s : SdState σ}
    (hrank : G.rank s.hw < fuel) (hbound : bound < fuel) :
    wp (sectors H dir fuel d sector count p) (fun ret t => (ret = 0 ∨ ret = 1) ∧
      ∃ ws, Transferred dir count p ws s.moved t.moved ∧
        (ret = 0 → 128 * (count.toNat % 2 ^ 16) ≤ ws.length)) never s := by
  have hthrough : wp (sectors H dir fuel d sector count p) (fun ret t => (ret = 0 ∨ ret = 1) ∧
      (ret = 0 → s.moved.through dir + 128 * (count.toNat % 2 ^ 16) ≤ t.moved.through dir))
      never s := by
    refine wp_sectors (((hG.allowsAnswer.inf allowsAnswer_moved).setTarget d s).mono ?_)
    rintro - t ⟨htold, hmoved⟩ args
    obtain ⟨hlen, hcount, hrank'⟩ := hG.sized_gauge t count
    have hblocks : (G.blkCount (t.sized H count).hw).toNat = count.toNat % 2 ^ 16 := by
      rw [hcount, BitVec.toNat_setWidth]
    refine (hG.sdmmcSendCommand_completes (s := (t.sized H count).assign d (dir.aim count p))
      (by rwa [SdState.dev_assign_self, dir.buffer_aim]) hlen ?_
      (hrank'.trans_lt (htold.2.2.trans_lt hrank)) hbound args).mono fun _ u hu => ?_
    · rw [SdState.dev_assign_self, dir.size_aim, toNat_shiftLeft_nine]
      change 512 * (G.blkCount (t.sized H count).hw).toNat ≤ _
      rw [hblocks]
      omega
    · rw [getError_eq]
      have hstart : ((t.sized H count).assign d (dir.aim count p)).moved = s.moved :=
        (t.moved_sized count).trans hmoved
      rw [hstart] at hu
      change _ → _ + 128 * (G.blkCount (t.sized H count).hw).toNat ≤ _ at hu
      rw [hblocks] at hu
      split_ifs with hok
      · exact ⟨.inl rfl, fun _ => hu hok⟩
      · exact ⟨.inr rfl, fun h => absurd h (by decide)⟩
  refine (hthrough.and (wp_sectors_within hG.holds dir fuel d sector count p s)).mono' ?_
    fun _ h => h.1
  rintro ret t ⟨⟨hret, hall⟩, ws, hws⟩
  refine ⟨hret, ws, hws, fun h0 => ?_⟩
  have hle := hall h0
  rw [hws.moved, Moved.through_pass] at hle
  omega

section Main

variable {G : Gauge σ} {dir : SdDirection} {bound fuel : ℕ} {s : SdState σ}

/-- **Transfers are complete.** With a controller in working order they return, and unless they
return an error as many sectors have gone through as the 16 bits of the count register say. -/
theorem sectors_complete (hG : G.Serves H dir bound) (d : MmcDrive) (sector count : U32) {p : U32}
    (hp : p ≠ 0) (hrank : G.rank s.hw < fuel) (hbound : bound < fuel) :
    ∃ ret t ws, exec (sectors H dir fuel d sector count p) s = (some ret, t) ∧
      (ret = 0 ∨ ret = 1) ∧ Transferred dir count p ws s.moved t.moved ∧
      (ret = 0 → 128 * (count.toNat % 2 ^ 16) ≤ ws.length) := by
  obtain ⟨ret, t, hrun, hret, ws, hws⟩ :=
    (wp_sectors_complete hG d sector count hp hrank hbound).returns
  exact ⟨ret, t, ws, hrun, hret, hws⟩

/-- **The driver is what the device model takes it for**: what a read returns and stores is a
reply of the card, as long as the request when it is without error and the count register holds
the count. -/
theorem sdmmcSdcardReadsectors_refines (hG : G.Serves H .read bound) (sector count : U32)
    {out : U32} (hout : out ≠ 0) (hrank : G.rank s.hw < fuel) (hbound : bound < fuel) :
    ∃ t, ∃ reply : CardReply,
      exec (sdmmcSdcardReadsectors H fuel sector count out) s = (some reply.ret, t) ∧
      reply.bytes.length ≤ 512 * count.toNat ∧
      (reply.ret = 0 → count.toNat < 2 ^ 16 → reply.bytes.length = 512 * count.toNat) ∧
      ∀ (env : Env) (c : Ctx), env.card c.tick sector count out = reply → c.mem = s.mem →
        (Arm9LinuxFw.sdmmcSdcardReadsectors env c sector count out).1 = reply.ret ∧
        (Arm9LinuxFw.sdmmcSdcardReadsectors env c sector count out).2.mem = t.mem := by
  obtain ⟨ret, t, hrun, -, ws, hws, hall⟩ :=
    (wp_sectors_complete hG .handleSD sector count hout hrank hbound).returns
  have hsize := hws.size
  refine ⟨t, ⟨ret, wordBytes ws⟩, hrun, ?_, fun h0 hcount => ?_, fun env c hreply hmem => ?_⟩
  · rwa [length_wordBytes]
  · have hle := hall h0
    rw [Nat.mod_eq_of_lt hcount] at hle
    rw [length_wordBytes]
    omega
  · have ht : t.mem = s.mem.writeBytes out (wordBytes ws) := congrArg Moved.mem hws.moved
    rw [Arm9LinuxFw.sdmmcSdcardReadsectors, hreply, hmem, ht]
    exact ⟨rfl, rfl⟩

end Main

/-! ### A controller in working order -/

/-- The plain card keeps this gauge: a word takes it four looks at most. -/
def plainGauge : Gauge PlainCard where
  blkLen := PlainCard.blkLen
  blkCount := PlainCard.blkCount
  left := PlainCard.left
  rank x := 4 * x.left + x.wait
  cleared x := x.serving = false
  serving x := x.serving = true

private theorem plainGauge_rank (x : PlainCard) : plainGauge.rank x = 4 * x.left + x.wait := rfl

/-- A look at the card passes time. -/
private theorem plainCard_read16 (a : U32) (x : PlainCard) :
    (plainCard.read16 a x).2 = { x with wait := x.wait - 1 } := rfl

private theorem plainCard_rest (x : PlainCard) :
    plainGauge.rest.rel x { x with wait := x.wait - 1 } :=
  ⟨⟨rfl, rfl, rfl, Nat.add_le_add_left (Nat.sub_le ..) _⟩, id, id⟩

/-- As long as it makes the driver wait, a look brings it on. -/
private theorem plainCard_rank {a : U32} {x : PlainCard} (h : 0 < x.wait) :
    plainGauge.rank (plainCard.read16 a x).2 < plainGauge.rank x := by
  rw [plainCard_read16, plainGauge_rank, plainGauge_rank]
  exact Nat.add_lt_add_left (Nat.sub_lt h Nat.one_pos) _

/-- It is ready when it has waited enough and has a block left. -/
private theorem plainCard_ready (dir : SdDirection) (x : PlainCard) :
    dir.Ready (plainCard.read16 (sdReg REG_DATACTL32) x).1 ↔
      x.wait = 0 ∧ 0 < x.left ∧ x.blkLen.toNat / 4 ≤ x.left := by
  have hread : (plainCard.read16 (sdReg REG_DATACTL32) x).1 =
      if x.wait = 0 ∧ 0 < x.left ∧ x.blkLen.toNat / 4 ≤ x.left then 0x100 else 0x200 := rfl
  rw [hread]
  split_ifs with h
  · refine iff_of_true ?_ h
    cases dir with
    | read => exact (by decide : (0x100 : U16) &&& 0x100 ≠ 0)
    | write => exact (by decide : (0x100 : U16) &&& 0x200 = 0)
  · refine iff_of_false ?_ h
    cases dir with
    | read => exact (by decide : ¬(0x200 : U16) &&& 0x100 ≠ 0)
    | write => exact (by decide : ¬(0x200 : U16) &&& 0x200 = 0)

private theorem plainCard_status0 {x : PlainCard} (h : x.serving = true) :
    (plainCard.read16 (sdReg REG_SDSTATUS0) x).1 = if x.wait = 0 ∧ x.left = 0 then 5 else 1 := by
  change (if x.serving then if x.wait = 0 ∧ x.left = 0 then 5 else 1 else 0 : U16) = _
  rw [h]
  rfl

/-- What the card makes of a write to a control register. -/
private theorem plainCard_write16 {a : U32} (ha : a ∈ controlRegs) (v : U16) (x : PlainCard) :
    plainCard.write16 a v x =
      if a = sdReg REG_SDSTATUS0 then { x with serving := false }
      else if a = sdReg REG_DATACTL32 then if v &&& 0x400 = 0 then x else { x with left := 0 }
      else x := by
  have hlen : a ≠ sdReg REG_SDBLKLEN32 := fun h => absurd (h ▸ ha) (by decide)
  have hcount : a ≠ sdReg REG_SDBLKCOUNT32 := fun h => absurd (h ▸ ha) (by decide)
  have hcmd : a ≠ sdReg REG_SDCMD := fun h => absurd (h ▸ ha) (by decide)
  simp only [plainCard, if_neg hlen, if_neg hcount, if_neg hcmd]

/-- A word through the FIFO is one word less, in either direction. -/
private theorem plainCard_step {dir : SdDirection} {x y : PlainCard} (h : dir.Step plainCard x y) :
    y = x.pass := by
  cases dir with
  | read => exact h
  | write =>
    obtain ⟨w, hw⟩ := h
    exact hw

/-- A word brings it on, whatever it waits for afterwards. -/
private theorem plainGauge_rank_pass (x : PlainCard) : plainGauge.rank x.pass ≤ plainGauge.rank x ∧
    (0 < x.left → plainGauge.rank x.pass < plainGauge.rank x) := by
  rw [plainGauge_rank, plainGauge_rank, PlainCard.pass]
  dsimp only
  split_ifs with h
  · exact ⟨by omega, fun _ => by omega⟩
  · exact ⟨by omega, fun hpos => absurd hpos h⟩

/-- A command takes no longer than the largest number of words it may have. -/
private theorem plainCard_bound (blkLen blkCount : U16) :
    4 * (blkLen.toNat / 4 * blkCount.toNat) + 3 ≤ 2 ^ 33 := by
  have hlen := blkLen.isLt
  have hcount := blkCount.isLt
  have hwords : blkLen.toNat / 4 * blkCount.toNat ≤ 2 ^ 14 * 2 ^ 16 :=
    Nat.mul_le_mul (by omega) (by omega)
  omega

/-- The plain card is in working order. -/
private theorem plainCard_serves (dir : SdDirection) :
    plainGauge.Serves plainCard dir (2 ^ 33) where
  read16 a x := ⟨rfl, rfl, (plainCard_rest x).1.2.2.2⟩
  write16 a ha v x := by
    rw [plainCard_write16 ha]
    split_ifs
    · exact plainGauge.told.refl x
    · exact plainGauge.told.refl x
    · exact ⟨rfl, rfl, Nat.add_le_add_right (Nat.mul_le_mul_left 4 (Nat.zero_le _)) _⟩
    · exact plainGauge.told.refl x
  poll _ _ x := plainCard_rest x
  ack v x := by
    rw [plainCard_write16 (by decide), if_neg (by decide), if_neg (by decide)]
    exact plainGauge.rest.refl x
  ctl v x hv := by
    rw [plainCard_write16 (by decide), if_neg (by decide), if_pos rfl, if_pos hv]
    exact plainGauge.rest.refl x
  ctlRead x := by
    change (if x.wait = 0 ∧ 0 < x.left ∧ x.blkLen.toNat / 4 ≤ x.left then 0x100 else 0x200 : U16)
      &&& 0x400 = 0
    split_ifs
    · decide
    · decide
  clear _ := rfl
  keepCleared a ha v x hx := by
    have hsub : argRegs ⊆ controlRegs := by decide
    rw [plainCard_write16 (hsub ha)]
    split_ifs
    · rfl
    · exact hx
    · exact hx
    · exact hx
  getLength _ := rfl
  setLength v x := ⟨rfl, rfl, Nat.le_refl _⟩
  setCount v x := ⟨rfl, rfl, Nat.le_refl _⟩
  keepLength v x := rfl
  command x := ⟨rfl, plainCard_bound x.blkLen x.blkCount, fun _ => rfl⟩
  fifo x y hxy := by
    obtain rfl := plainCard_step hxy
    exact ⟨rfl, rfl, ⟨id, id⟩, plainGauge_rank_pass x⟩
  ready x hready := .inr ((plainCard_ready dir x).mp hready).2.2
  ended x hserving hend := by
    by_contra hleft
    rw [plainCard_status0 hserving, if_neg fun h => hleft h.2] at hend
    exact hend rfl
  busy x hbusy := by
    refine plainCard_rank (Nat.pos_of_ne_zero fun h => hbusy ?_)
    change (if 0 < x.wait then TMIO_STAT1_CMD_BUSY else 0) &&& TMIO_STAT1_CMD_BUSY = 0
    rw [if_neg (by omega)]
    rfl
  waiting x _ hready hpos hle := by
    refine plainCard_rank (Nat.pos_of_ne_zero fun h => hready ?_)
    exact (plainCard_ready dir x).mpr ⟨h, hpos, hle⟩
  settling x hserving hflags hleft := by
    refine plainCard_rank (Nat.pos_of_ne_zero fun h => hflags ?_)
    rw [plainCard_status0 hserving, if_pos ⟨h, hleft⟩]
    rfl

theorem sectors_complete_plain : ∃ ret t ws,
    exec (sectors plainCard .write (2 ^ 34) .handleNAND 7 2 0x20000000) plainState =
      (some ret, t) ∧
    (ret = 0 ∨ ret = 1) ∧ Transferred .write 2 0x20000000 ws plainState.moved t.moved ∧
    (ret = 0 → 128 * ((2 : U32).toNat % 2 ^ 16) ≤ ws.length) :=
  sectors_complete (plainCard_serves .write) .handleNAND 7 2 (by decide) (by decide) (by decide)

theorem sdmmcSdcardReadsectors_refines_plain : ∃ t, ∃ reply : CardReply,
    exec (sdmmcSdcardReadsectors plainCard (2 ^ 34) 5 3 0x20000000) plainState =
      (some reply.ret, t) ∧
    reply.bytes.length ≤ 512 * (3 : U32).toNat ∧
    (reply.ret = 0 → (3 : U32).toNat < 2 ^ 16 → reply.bytes.length = 512 * (3 : U32).toNat) ∧
    ∀ (env : Env) (c : Ctx), env.card c.tick 5 3 0x20000000 = reply → c.mem = plainState.mem →
      (Arm9LinuxFw.sdmmcSdcardReadsectors env c 5 3 0x20000000).1 = reply.ret ∧
      (Arm9LinuxFw.sdmmcSdcardReadsectors env c 5 3 0x20000000).2.mem = t.mem :=
  sdmmcSdcardReadsectors_refines (plainCard_serves .read) 5 3 (by decide) (by decide) (by decide)

end Arm9LinuxFw.Sdmmc
