import Arm9LinuxFw.Hw.SdInit

/-!
# The order of accesses

What the driver does to the controller, seen from the bus.

* `Issues` is traffic that starts a list of commands: each of them is started by the accesses of
  `prologue` and in no other way. These are a look at the status that finds the controller
  idle, the interrupt masks and both status registers cleared, the FIFO cleared and its two
  interrupts turned off through `REG_DATACTL32`, the argument, and last the command itself.
* `silentFrame` is for programs that start no command. Collecting an answer, moving data and all
  the setup of the driver are in it, by the lemmas about frames of `SdTransfer` and `SdInit`.
* `orderFrame` relates states between which the traffic issues what the record says was sent.
  Frames compose, so that a program of any number of commands stays in it if each command does,
  and a program that is stopped in the middle does too.
* `SdCall` are the functions that other parts of the firmware call, and `runCalls` a sequence of
  calls, with any arguments. `runCalls_issues` is the result: the commands that the controller gets
  to see are those of the record, in their order, each started on an idle controller with a
  cleared status.
-/

namespace Arm9LinuxFw.Sdmmc

open Hoare

variable {σ : Type} {H : SdmmcHw σ}

/-! ### Traffic -/

/-- The write that starts a command. -/
def SdAccess.Starts : SdAccess → Prop
  | .write16 a _ => a = sdReg REG_SDCMD
  | _ => False

/-- What is written for a command. -/
structure CommandWord where
  cmd : U16
  arg0 : U16
  arg1 : U16

/-- What has to be written for a command of the record. -/
def SdCommand.word (c : SdCommand) : CommandWord :=
  ⟨c.cmd.setWidth 16, c.args.setWidth 16, (c.args >>> 16).setWidth 16⟩

/-- The start of a command, from the look at `REG_SDSTATUS1` that finds `status1` there on. -/
def prologue (status1 ctl32 : U16) (w : CommandWord) : List SdAccess :=
  [.read16 (sdReg REG_SDSTATUS1) status1,
    .write16 (sdReg REG_SDIRMASK0) 0,
    .write16 (sdReg REG_SDIRMASK1) 0,
    .write16 (sdReg REG_SDSTATUS0) 0,
    .write16 (sdReg REG_SDSTATUS1) 0,
    .read16 (sdReg REG_DATACTL32) ctl32,
    .write16 (sdReg REG_DATACTL32) (ctl32 &&& ~~~0x1800 ||| 0x400),
    .write16 (sdReg REG_SDCMDARG0) w.arg0,
    .write16 (sdReg REG_SDCMDARG1) w.arg1,
    .write16 (sdReg REG_SDCMD) w.cmd]

/-- Traffic that starts the given commands, in this order and each when the controller is idle. -/
inductive Issues : List SdAccess → List CommandWord → Prop
  | nil : Issues [] []
  | access {tr : List SdAccess} {ws : List CommandWord} {a : SdAccess} (h : Issues tr ws)
      (ha : ¬a.Starts) : Issues (tr ++ [a]) ws
  | command {tr : List SdAccess} {ws : List CommandWord} {status1 ctl32 : U16} {w : CommandWord}
      (h : Issues tr ws) (hidle : status1 &&& TMIO_STAT1_CMD_BUSY = 0) :
      Issues (tr ++ prologue status1 ctl32 w) (ws ++ [w])

/-- Traffic that goes on issues what it has issued so far and what is to come. -/
theorem Issues.append {tr tr' : List SdAccess} {ws ws' : List CommandWord} (h : Issues tr ws)
    (h' : Issues tr' ws') : Issues (tr ++ tr') (ws ++ ws') := by
  induction h' with
  | nil => rwa [List.append_nil, List.append_nil]
  | access _ ha ih =>
    rw [← List.append_assoc]
    exact ih.access ha
  | command _ hidle ih =>
    rw [← List.append_assoc, ← List.append_assoc]
    exact ih.command hidle

/-- Traffic without a write to the command register issues nothing. -/
private theorem Issues.of_silent {tr : List SdAccess} (h : ∀ a ∈ tr, ¬a.Starts) : Issues tr [] := by
  induction tr using List.reverseRecOn with
  | nil => exact .nil
  | append_singleton tr a ih =>
    exact (ih fun b hb => h b (by simp [hb])).access (h a (by simp))

/-! ### Frames -/

/-- No command is started, and none goes to the record. -/
def silentFrame : Frame (SdState σ) :=
  Frame.ofPreorder
    (fun s t => t.commands = s.commands ∧ ∃ tr, t.trace = s.trace ++ tr ∧ ∀ a ∈ tr, ¬a.Starts)
    (fun s => ⟨rfl, [], by simp, by simp⟩)
    (by
      rintro s t u ⟨hcommands, tr, htrace, hsilent⟩ ⟨hcommands', tr', htrace', hsilent'⟩
      refine ⟨hcommands'.trans hcommands, tr ++ tr', ?_, fun a ha => ?_⟩
      · rw [htrace', htrace, List.append_assoc]
      · exact (List.mem_append.mp ha).elim (hsilent a) (hsilent' a))

/-- Collecting an answer and moving data start no command. -/
private theorem allowsData_silent : AllowsData H silentFrame where
  read16 a s := ⟨rfl, [_], rfl, by simp [SdAccess.Starts]⟩
  write16 a v ha s := ⟨rfl, [_], rfl, by
    simp only [List.mem_singleton, SdAccess.Starts, forall_eq]
    rintro rfl
    exact absurd ha (by decide)⟩
  read32 a s := ⟨rfl, [_], rfl, by simp [SdAccess.Starts]⟩
  write32 a v s := ⟨rfl, [_], rfl, by simp [SdAccess.Starts]⟩
  store f s := silentFrame.refl s
  setDev d f _ s := silentFrame.refl s

/-- Whatever goes to the record has been issued; when a run is cut short, so may one more command
have been. -/
def orderFrame : Frame (SdState σ) where
  rel s t := ∃ tr cs, t.trace = s.trace ++ tr ∧ t.commands = s.commands ++ cs ∧
    Issues tr (cs.map SdCommand.word)
  cut s t := ∃ tr cs ws, t.trace = s.trace ++ tr ∧ t.commands = s.commands ++ cs ∧
    Issues tr (cs.map SdCommand.word ++ ws) ∧ ws.length ≤ 1
  refl s := ⟨[], [], by simp, by simp, .nil⟩
  trans := by
    rintro s t u ⟨tr, cs, htrace, hcommands, h⟩ ⟨tr', cs', htrace', hcommands', h'⟩
    refine ⟨tr ++ tr', cs ++ cs', ?_, ?_, ?_⟩
    · rw [htrace', htrace, List.append_assoc]
    · rw [hcommands', hcommands, List.append_assoc]
    · rw [List.map_append]
      exact h.append h'
  cut_of_rel := by
    rintro s t ⟨tr, cs, htrace, hcommands, h⟩
    exact ⟨tr, cs, [], htrace, hcommands, by rwa [List.append_nil], Nat.zero_le 1⟩
  trans_cut := by
    rintro s t u ⟨tr, cs, htrace, hcommands, h⟩ ⟨tr', cs', ws, htrace', hcommands', h', hws⟩
    refine ⟨tr ++ tr', cs ++ cs', ws, ?_, ?_, ?_, hws⟩
    · rw [htrace', htrace, List.append_assoc]
    · rw [hcommands', hcommands, List.append_assoc]
    · rw [List.map_append, List.append_assoc]
      exact h.append h'

private theorem order_of_silent {s t : SdState σ} (h : silentFrame.rel s t) :
    orderFrame.rel s t := by
  obtain ⟨hcommands, tr, htrace, hsilent⟩ := h
  exact ⟨tr, [], htrace, by rw [hcommands, List.append_nil], .of_silent hsilent⟩

/-- A program that starts no command keeps traffic and record in agreement. -/
private theorem does_order {α : Type} {x : SdProg σ α} (h : silentFrame.Does x) :
    orderFrame.Does x :=
  fun s => (h s).mono fun _ _ => order_of_silent

/-! ### A command -/

/-- The wait for the controller ends with a look that finds it idle. -/
private theorem wp_waitIdle (fuel : ℕ) (s : SdState σ) :
    wp (waitIdle H fuel) (fun _ t => t.commands = s.commands ∧ ∃ tr status1,
      t.trace = s.trace ++ (tr ++ [.read16 (sdReg REG_SDSTATUS1) status1]) ∧
      (∀ a ∈ tr, ¬a.Starts) ∧ status1 &&& TMIO_STAT1_CMD_BUSY = 0) (silentFrame.rel s) s := by
  rw [waitIdle]
  refine wp_untilDone (I := fun _ t => silentFrame.rel s t) (fun _ _ => id) (fun _ t ht => ?_) fuel
    (silentFrame.refl s)
  rw [wp_bind, wp_sdmmcRead16, wp_pure]
  split_ifs with hbusy
  · exact silentFrame.trans ht (allowsData_silent.read16 (sdReg REG_SDSTATUS1) t)
  · obtain ⟨hcommands, tr, htrace, hsilent⟩ := ht
    refine ⟨hcommands, tr, _, ?_, hsilent, not_not.mp hbusy⟩
    rw [SdState.onRead16, htrace, List.append_assoc]

/-- Up to the start of a command. -/
private theorem wp_startCommand (fuel : ℕ) (cmd args : U32) (s : SdState σ) :
    wp (do
      prepareCommand H fuel args
      sdmmcWrite16 H REG_SDCMD (cmd.setWidth 16))
      (fun _ t => t.commands = s.commands ∧ ∃ tr, t.trace = s.trace ++ tr ∧
        Issues tr [⟨cmd.setWidth 16, args.setWidth 16, (args >>> 16).setWidth 16⟩])
      (silentFrame.rel s) s := by
  rw [wp_bind, prepareCommand, wp_bind]
  refine (wp_waitIdle fuel s).mono ?_
  rintro - t ⟨hcommands, tr, status1, htrace, hsilent, hidle⟩
  simp only [wp_bind, wp_sdmmcWrite16, sdmmcMask16, wp_sdmmcRead16]
  -- when `REG_DATACTL32` is read
  set u := (((t.onWrite16 H (sdReg REG_SDIRMASK0) 0).onWrite16 H (sdReg REG_SDIRMASK1) 0).onWrite16
    H (sdReg REG_SDSTATUS0) 0).onWrite16 H (sdReg REG_SDSTATUS1) 0 with hu
  refine ⟨hcommands, tr ++ prologue status1 (H.read16 (sdReg REG_DATACTL32) u.hw).1
    ⟨cmd.setWidth 16, args.setWidth 16, (args >>> 16).setWidth 16⟩, ?_,
    (Issues.of_silent hsilent).command hidle⟩
  have htrace' : u.trace = s.trace ++ (tr ++ [.read16 (sdReg REG_SDSTATUS1) status1]) ++
      [.write16 (sdReg REG_SDIRMASK0) 0, .write16 (sdReg REG_SDIRMASK1) 0,
        .write16 (sdReg REG_SDSTATUS0) 0, .write16 (sdReg REG_SDSTATUS1) 0] := by
    simp [hu, SdState.onWrite16, htrace]
  simp [SdState.onWrite16, SdState.onRead16, htrace', prologue]

/-- A command goes to the bus and to the record together, behind its prologue. -/
private theorem keeps_sendCommand (fuel : ℕ) (d : MmcDrive) (cmd args : U32) :
    orderFrame.Keeps (sdmmcSendCommand H fuel d cmd args) := by
  intro s
  have hsplit : sdmmcSendCommand H fuel d cmd args = (do
      setDev d Mmcdevice.clearError
      (do
        prepareCommand H fuel args
        sdmmcWrite16 H REG_SDCMD (cmd.setWidth 16))
      (do
        let ctx ← getDev d
        let blkSize ← sdmmcRead16 H REG_SDBLKLEN32
        untilDone (pollRound H d cmd ctx blkSize) fuel ⟨ctx.size, ctx.rData, ctx.tData⟩
        collectResponse H d cmd)
      modify fun s => s.record d cmd args) := by
    simp only [sdmmcSendCommand, runCommand, bind_assoc]
  rw [hsplit, wp_bind, wp_setDev, wp_bind]
  refine (wp_startCommand fuel cmd args _).mono' ?_ fun t ht =>
    orderFrame.cut_of_rel (order_of_silent ht)
  rintro - t ⟨hcommands, tr, htrace, hissues⟩
  rw [wp_bind]
  refine (allowsData_silent.finish fuel d cmd t).mono' ?_ ?_
  · rintro - u ⟨hcommands', tr', htrace', hsilent⟩
    refine (wp_modify _).mpr ⟨tr ++ tr', [⟨d, cmd, args, u.dev d⟩], ?_, ?_,
      hissues.append (.of_silent hsilent)⟩
    · change u.trace = _
      rw [htrace', htrace, List.append_assoc]
      rfl
    · change u.commands ++ _ = _
      rw [hcommands', hcommands]
      rfl
  · rintro u ⟨hcommands', tr', htrace', hsilent⟩
    refine ⟨tr ++ tr', [], [_], ?_, ?_, hissues.append (.of_silent hsilent), le_rfl⟩
    · rw [htrace', htrace, List.append_assoc]
      rfl
    · rw [hcommands', hcommands, List.append_nil]
      rfl

/-- The start of the drives writes the command register only through `sdmmc_send_command`. -/
private theorem allowsInit_order : AllowsInit H orderFrame where
  read16 a := does_order (allowsData_silent.read16 a)
  write16 a v ha := does_order fun s => ⟨rfl, [_], rfl, by
    simp only [List.mem_singleton, SdAccess.Starts, forall_eq]
    exact ha⟩
  setDev d f := does_order fun s => silentFrame.refl s
  command _ fuel d args := keeps_sendCommand fuel d _ args
  switch fuel s _ := keeps_sendCommand fuel _ _ _ s

/-! ### Calls of the driver -/

/-- A call from outside of the driver. -/
inductive SdCall
  | init
  | readsectors (d : MmcDrive) (sector_no numsectors out : U32)
  | writesectors (d : MmcDrive) (sector_no numsectors inp : U32)
  | getCid (isNand : Bool) (info : U32)

/-- Its result is dropped. -/
def SdCall.run (H : SdmmcHw σ) (fuel : ℕ) : SdCall → SdProg σ PUnit
  | init => do
      let _ ← sdmmcSdcardInit H fuel
      pure ⟨⟩
  | readsectors d sector_no numsectors out => do
      let _ ← Sdmmc.readsectors H fuel d sector_no numsectors out
      pure ⟨⟩
  | writesectors d sector_no numsectors inp => do
      let _ ← Sdmmc.writesectors H fuel d sector_no numsectors inp
      pure ⟨⟩
  | getCid isNand info => do
      let _ ← sdmmcGetCid H fuel isNand info
      pure ⟨⟩

/-- Calls in a row. -/
def runCalls (H : SdmmcHw σ) (fuel : ℕ) : List SdCall → SdProg σ PUnit
  | [] => pure ⟨⟩
  | call :: calls => do
      call.run H fuel
      runCalls H fuel calls

/-- Choosing a drive and telling the controller the size starts no command. -/
private theorem does_startTransfer (d : MmcDrive) (sector_no numsectors : U32) :
    orderFrame.Does (startTransfer H d sector_no numsectors) :=
  Frame.does_bind (does_getDev d) fun _ =>
    Frame.does_bind (allowsInit_order.regs.setTarget d) fun _ =>
      Frame.does_bind (allowsInit_order.write _ _ (by decide)) fun _ =>
        Frame.does_bind (allowsInit_order.write _ _ (by decide)) fun _ =>
          Frame.does_bind (allowsInit_order.write _ _ (by decide)) fun _ =>
            Frame.does_bind (allowsInit_order.write _ _ (by decide)) fun _ => Frame.does_pure _

/-- Reading the identification of a card issues what its commands record. -/
private theorem keeps_getCid (fuel : ℕ) (isNand : Bool) (info : U32) :
    orderFrame.Keeps (sdmmcGetCid H fuel isNand info) := by
  refine Frame.keeps_bind (allowsInit_order.regs.setTarget _).keeps fun _ => ?_
  refine Frame.keeps_bind (keeps_sendCommand fuel _ _ _) fun _ => ?_
  refine Frame.keeps_bind (does_getDev _).keeps fun _ => ?_
  refine Frame.keeps_bind (keeps_sendCommand fuel _ _ _) fun _ => ?_
  refine Frame.keeps_bind (does_getDev _).keeps fun _ => ?_
  refine Frame.keeps_bind (Frame.Does.keeps fun s => orderFrame.refl s) fun _ => ?_
  exact Frame.keeps_bind (keeps_sendCommand fuel _ _ _) fun _ => Frame.keeps_pure _

/-- Any call of the driver issues what it records. -/
private theorem keeps_call (fuel : ℕ) (call : SdCall) : orderFrame.Keeps (call.run H fuel) := by
  cases call with
  | init =>
    refine Frame.keeps_bind (fun s => ?_) fun _ => Frame.keeps_pure _
    exact (allowsInit_order.wp_sdmmcSdcardInit fuel s).mono fun _ _ h => h.1
  | readsectors d sector_no numsectors out =>
    refine Frame.keeps_bind ?_ fun _ => Frame.keeps_pure _
    exact Frame.keeps_bind (does_startTransfer d _ _).keeps fun _ =>
      Frame.keeps_bind ((allowsInit_order (H := H)).setDev d _).keeps fun _ =>
        Frame.keeps_bind (keeps_sendCommand fuel d _ _) fun _ =>
          Frame.keeps_bind (does_getDev d).keeps fun _ => Frame.keeps_pure _
  | writesectors d sector_no numsectors inp =>
    refine Frame.keeps_bind ?_ fun _ => Frame.keeps_pure _
    exact Frame.keeps_bind (does_startTransfer d _ _).keeps fun _ =>
      Frame.keeps_bind ((allowsInit_order (H := H)).setDev d _).keeps fun _ =>
        Frame.keeps_bind (keeps_sendCommand fuel d _ _) fun _ =>
          Frame.keeps_bind (does_getDev d).keeps fun _ => Frame.keeps_pure _
  | getCid isNand info =>
    exact Frame.keeps_bind (keeps_getCid fuel isNand info) fun _ => Frame.keeps_pure _

private theorem keeps_runCalls (fuel : ℕ) (calls : List SdCall) :
    orderFrame.Keeps (runCalls H fuel calls) := by
  induction calls with
  | nil => exact Frame.keeps_pure _
  | cons call calls ih => exact Frame.keeps_bind (keeps_call fuel call) fun _ => ih

/-- **The driver keeps to the protocol of the controller**, whatever that does, over any calls:
every command is started by the whole prologue, which finds the controller idle, and what is
started is what goes to the record, command for command. A run that is cut short may have started
one more. -/
theorem runCalls_issues (fuel : ℕ) (calls : List SdCall) (s : SdState σ) :
    wp (runCalls H fuel calls)
      (fun _ t => ∃ tr cs, t.trace = s.trace ++ tr ∧ t.commands = s.commands ++ cs ∧
        Issues tr (cs.map SdCommand.word))
      (fun t => ∃ tr cs ws, t.trace = s.trace ++ tr ∧ t.commands = s.commands ++ cs ∧
        Issues tr (cs.map SdCommand.word ++ ws) ∧ ws.length ≤ 1) s :=
  keeps_runCalls fuel calls s

end Arm9LinuxFw.Sdmmc
