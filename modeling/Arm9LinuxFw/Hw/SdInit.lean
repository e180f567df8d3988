import Arm9LinuxFw.Hw.SdTransfer

/-!
# The start of the drives

`SD_Init` goes through the commands that identify a card and select it, and `sdmmc_sdcard_init`
through those of both drives.

* A script is a list of commands, each with the code that is returned if it fails. `Ran` says that
  the commands sent are those of a script up to the first that failed, with its code, or all of
  them. `Follows` is a program that does so and, unless its commands say otherwise, leaves the size
  of the card alone.
* `sdScript` is the script of `SD_Init` from `CMD2` on; it has `CMD6` in it if the card is said to
  know it. `CardKnown` says what the firmware knows of the card after some of these
  commands: its size is set when `CMD9` has been answered, and not before.
* The commands before these are repeated until the card is ready. `Polls` and `SdPoll` describe the
  rounds: each but the last was answered with an error or by a card that is not ready.
* `SdSession` is the whole of it, and `sdInit_session` the result: if `SD_Init` returns, its commands
  are those of a session, and the code names the command that failed, or is 0 and the card is
  known.
* `AllowsInit` are the frames that the start of both drives stays in. It gives two more facts
  about all of it: memory and the FIFO are never touched, since none of the commands has data but
  `CMD6`, which is sent without a buffer, and the value returned is 0 in any case.
-/

namespace Arm9LinuxFw.Sdmmc

open Hoare

variable {σ : Type} {H : SdmmcHw σ}

/-! ### What a command does to the handles -/

/-- A frame that allows, besides, what moves the data of a command. -/
structure AllowsData (H : SdmmcHw σ) (F : Frame (SdState σ)) : Prop extends AllowsRegs H F where
  read32 : ∀ a, F.Does (busRead32 H a)
  write32 : ∀ a v, F.Does (busWrite32 H a v)
  store : ∀ f : Mem → Mem, F.Does (modify fun s => { s with mem := f s.mem })
  setDev : ∀ d f, (∀ ctx, (f ctx).setup = ctx.setup) → F.Does (setDev d f)

namespace AllowsData

variable {F : Frame (SdState σ)} (hF : AllowsData H F)

include hF

theorem answer : AllowsAnswer H F where
  toAllowsRegs := hF.toAllowsRegs
  setDev d f _ hf := hF.setDev d f hf

theorem fifoRead (n : ℕ) (p : U32) : F.Does (fifoRead H n p) := by
  induction n generalizing p with
  | zero => exact Frame.does_pure p
  | succ n ih =>
    exact Frame.does_bind (hF.read32 _) fun w =>
      Frame.does_bind (hF.store fun m => m.write32 p w) fun _ => ih (p + 4)

theorem fifoWrite (n : ℕ) (p : U32) : F.Does (fifoWrite H n p) := by
  induction n generalizing p with
  | zero => exact Frame.does_pure p
  | succ n ih =>
    refine Frame.does_bind (fun s => (wp_get).mpr (F.refl s)) fun s => ?_
    exact Frame.does_bind (hF.write32 _ _) fun _ => ih (p + 4)

theorem passBlock (useBuf : Prop) [Decidable useBuf] (ack irq blkSize : U16)
    {pass : ℕ → U32 → SdProg σ U32} (hpass : ∀ n p, F.Does (pass n p)) (size p : U32) :
    F.Does (passBlock H useBuf ack irq blkSize pass size p) :=
  Frame.does_bind
    (Frame.does_ite
      (Frame.does_bind (hF.mask16 _ _ _ (by decide)) fun _ =>
        Frame.does_ite (Frame.does_bind (hpass _ _) fun _ => Frame.does_pure _)
          (Frame.does_pure _))
      (Frame.does_pure _)) fun _ =>
    Frame.does_bind (hF.mask16 _ _ _ (by decide)) fun _ => Frame.does_pure _

/-- One round of the polling loop, with whatever block it finds to be moved. -/
theorem pollRound (d : MmcDrive) (cmd : U32) (ctx : Mmcdevice) (blkSize : U16)
    (v : SdTransfer) : F.Does (pollRound H d cmd ctx blkSize v) :=
  Frame.does_bind (hF.read16 _) fun _ =>
    Frame.does_bind (hF.read16 _) fun _ =>
      Frame.does_bind
        (Frame.does_ite
          (Frame.does_bind (hF.passBlock _ _ _ _ hF.fifoRead _ _) fun _ =>
            Frame.does_pure _)
          (Frame.does_pure _)) fun _ =>
        Frame.does_bind
          (Frame.does_ite
            (Frame.does_bind (hF.passBlock _ _ _ _ hF.fifoWrite _ _) fun _ =>
              Frame.does_pure _)
            (Frame.does_pure _)) fun _ =>
          Frame.does_ite
            (Frame.does_bind (hF.setDev d _ fun _ => rfl) fun _ =>
              Frame.does_pure _)
            (Frame.does_ite (Frame.does_pure _)
              (Frame.does_bind (hF.read16 _) fun _ =>
                Frame.does_bind (hF.read16 _) fun _ =>
                  Frame.does_bind (hF.setDev d _ fun _ => rfl) fun _ =>
                    Frame.does_pure _))

/-- A command from its start on. -/
theorem finish (fuel : ℕ) (d : MmcDrive) (cmd : U32) : F.Keeps (do
    let ctx ← getDev d
    let blkSize ← sdmmcRead16 H REG_SDBLKLEN32
    untilDone (Sdmmc.pollRound H d cmd ctx blkSize) fuel ⟨ctx.size, ctx.rData, ctx.tData⟩
    collectResponse H d cmd) :=
  Frame.keeps_bind (does_getDev d).keeps fun ctx =>
    Frame.keeps_bind (hF.read16 _).keeps fun blkSize =>
      Frame.keeps_bind
        (Frame.keeps_untilDone (fun v => (hF.pollRound d cmd ctx blkSize v).keeps) _ _)
        fun _ => (hF.answer.collectResponse d cmd).keeps

end AllowsData

/-- The handles stay set up as they are, and no command is recorded. -/
def setupFrame : Frame (SdState σ) :=
  Frame.same fun s => (fun d => (s.dev d).setup, s.commands)

/-- A change of a handle that is not one of its setup. -/
private theorem setDev_setup (d : MmcDrive) {f : Mmcdevice → Mmcdevice}
    (hf : ∀ ctx, (f ctx).setup = ctx.setup) :
    (setupFrame : Frame (SdState σ)).Does (setDev d f) := by
  refine fun s => Prod.ext (funext fun d' => ?_) rfl
  change (Function.update s.dev d (f (s.dev d)) d').setup = (s.dev d').setup
  by_cases h : d' = d
  · rw [h, Function.update_self, hf]
  · rw [Function.update_of_ne h]

/-- Commands leave what was set up in the handles as it was. -/
private theorem allowsData_setup : AllowsData H setupFrame where
  read16 _ _ := rfl
  write16 _ _ _ _ := rfl
  read32 _ _ := rfl
  write32 _ _ _ := rfl
  store _ _ := rfl
  setDev d _ hf := setDev_setup d hf

/-- A command goes to the record, with the handle as it leaves it. -/
theorem sdmmcSendCommand_recorded (fuel : ℕ) (d : MmcDrive) (cmd args : U32) (s : SdState σ) :
    wp (sdmmcSendCommand H fuel d cmd args) (fun _ t =>
      (∀ d', (t.dev d').setup = (s.dev d').setup) ∧
      t.commands = s.commands ++ [⟨d, cmd, args, t.dev d⟩]) (fun _ => True) s := by
  have hrun : setupFrame.Keeps (runCommand H fuel d cmd args) := by
    refine Frame.keeps_bind (setDev_setup d (f := Mmcdevice.clearError) fun _ => rfl).keeps
      fun _ => ?_
    refine Frame.keeps_bind (fun s => allowsData_setup.prepareCommand_of_waitIdle
      (allowsData_setup.waitIdle fuel s) args) fun _ => ?_
    exact Frame.keeps_bind (Frame.Does.keeps fun s => rfl) fun _ =>
      allowsData_setup.finish fuel d cmd
  rw [sdmmcSendCommand, wp_bind]
  refine (hrun s).mono' (fun _ t ht => ?_) fun _ _ => trivial
  obtain ⟨hsetup, hcommands⟩ := Prod.mk.inj ht
  refine ⟨congrFun hsetup, ?_⟩
  change t.commands ++ _ = _
  rw [hcommands]
  rfl

/-! ### Scripts -/

/-- The command ended with an error. -/
def SdCommand.Failed (c : SdCommand) : Prop := c.reply.error &&& 4 ≠ 0

/-- Commands that follow a script, which gives the code to return for each that fails: up to the
first that does, or to its end and the code 0. -/
inductive Ran : List (U32 × ℤ) → ℤ → List SdCommand → Prop
  | done : Ran [] 0 []
  | failed {cmd : U32} {code : ℤ} {rest : List (U32 × ℤ)} {c : SdCommand} (hcmd : c.cmd = cmd)
      (hc : c.Failed) : Ran ((cmd, code) :: rest) code [c]
  | next {cmd : U32} {code ret : ℤ} {rest : List (U32 × ℤ)} {c : SdCommand} {cs : List SdCommand}
      (hcmd : c.cmd = cmd) (hc : ¬c.Failed) (hcs : Ran rest ret cs) :
      Ran ((cmd, code) :: rest) ret (c :: cs)

/-- What `SD_Init` finds out of a card. -/
def SdState.card (s : SdState σ) : U32 × U32 :=
  ((s.dev .handleSD).total_size, (s.dev .handleSD).isSDHC)

/-- A program that follows a script, and leaves what is known of the card. -/
def Follows (script : List (U32 × ℤ)) (x : SdProg σ ℤ) : Prop :=
  ∀ s, wp x (fun ret t => t.card = s.card ∧ ∃ cs, t.commands = s.commands ++ cs ∧
    Ran script ret cs) (fun _ => True) s

private theorem card_of_setup {s t : SdState σ} (h : ∀ d, (t.dev d).setup = (s.dev d).setup) :
    t.card = s.card := by
  have hsize : (t.dev .handleSD).setup.total_size = (s.dev .handleSD).setup.total_size := by rw [h]
  have hSDHC : (t.dev .handleSD).setup.isSDHC = (s.dev .handleSD).setup.isSDHC := by rw [h]
  exact Prod.ext hsize hSDHC

/-- A command of a script. -/
theorem wp_commandOr {fuel : ℕ} {d : MmcDrive} {code : ℤ} {cmd : U32} {args : Mmcdevice → U32}
    {k : SdProg σ ℤ} {Q : ℤ → SdState σ → Prop} {s : SdState σ}
    (h : ∀ t, (∀ d', (t.dev d').setup = (s.dev d').setup) → ∀ c : SdCommand, c.cmd = cmd →
      c.reply = t.dev d → t.commands = s.commands ++ [c] →
      (c.Failed → Q code t) ∧ (¬c.Failed → wp k Q (fun _ => True) t)) :
    wp (commandOr H fuel d code cmd args k) Q (fun _ => True) s := by
  simp only [commandOr, wp_bind, wp_getDev, wp_ite, wp_pure]
  refine (sdmmcSendCommand_recorded fuel d cmd _ s).mono ?_
  rintro - t ⟨hsetup, hcommands⟩
  have ht := h t hsetup ⟨d, cmd, args (s.dev d), t.dev d⟩ rfl rfl hcommands
  split_ifs with herror
  · exact ht.1 herror
  · exact ht.2 herror

/-- A script was gone through without failure if and only if the code is 0. -/
theorem Ran.eq_zero_iff {script : List (U32 × ℤ)} {ret : ℤ} {cs : List SdCommand}
    (h : Ran script ret cs) (hscript : ∀ p ∈ script, p.2 ≠ 0) :
    ret = 0 ↔ cs.map SdCommand.cmd = script.map Prod.fst ∧ ∀ c ∈ cs, ¬c.Failed := by
  induction h with
  | done => simp
  | @failed cmd code rest c _ hc =>
    rw [List.forall_mem_cons] at hscript
    exact iff_of_false hscript.1 fun h => h.2 c (List.mem_singleton_self c) hc
  | @next cmd code ret rest c cs hcmd hc _ ih =>
    rw [List.forall_mem_cons] at hscript
    rw [ih hscript.2, List.map_cons, List.map_cons, List.cons.injEq, List.forall_mem_cons]
    exact ⟨fun h => ⟨⟨hcmd, h.1⟩, hc, h.2⟩, fun h => ⟨h.1.2, h.2.2⟩⟩

private theorem follows_zero : Follows [] (pure 0 : SdProg σ ℤ) := fun _ =>
  (wp_pure 0).mpr ⟨rfl, [], (List.append_nil _).symm, .done⟩

/-- A command that may fail comes first in the script, with the code it fails with. -/
private theorem follows_commandOr {fuel : ℕ} {d : MmcDrive} {code : ℤ} {cmd : U32}
    {args : Mmcdevice → U32} {k : SdProg σ ℤ} {rest : List (U32 × ℤ)} (hk : Follows rest k) :
    Follows ((cmd, code) :: rest) (commandOr H fuel d code cmd args k) := by
  intro s
  refine wp_commandOr fun t hsetup c hcmd _ hcommands => ?_
  refine ⟨fun hc => ⟨card_of_setup hsetup, [c], hcommands, .failed hcmd hc⟩, fun hc => ?_⟩
  refine (hk t).mono ?_
  rintro ret u ⟨hcard, cs, hcs, hran⟩
  refine ⟨hcard.trans (card_of_setup hsetup), c :: cs, ?_, .next hcmd hc hran⟩
  rw [hcs, hcommands, List.append_assoc]
  rfl

/-- What is known of the card stays, and no command is sent. -/
def cardFrame : Frame (SdState σ) := Frame.same fun s => (s.card, s.commands)

/-- What sends no command and leaves the card fields alone changes nothing of the script. -/
private theorem follows_bind {α : Type} {x : SdProg σ α} {k : α → SdProg σ ℤ}
    {script : List (U32 × ℤ)} (hx : cardFrame.Does x) (hk : ∀ a, Follows script (k a)) :
    Follows script (x >>= k) := by
  intro s
  rw [wp_bind]
  refine (hx s).mono' (fun a t ht => ?_) fun _ _ => trivial
  obtain ⟨hcard, hcommands⟩ := Prod.mk.inj ht
  have ha := hk a t
  rwa [hcard, hcommands] at ha

private theorem allowsAnswer_card : AllowsAnswer H cardFrame where
  read16 _ _ := rfl
  write16 _ _ _ _ := rfl
  setDev d f _ hf s := by
    obtain ⟨hsetup, hcommands⟩ := Prod.mk.inj (setDev_setup d hf s)
    exact Prod.ext (card_of_setup (congrFun hsetup)) hcommands

/-! ### `SD_Init` -/

/-- The end of the script of `SD_Init`. -/
def selectScript : List (U32 × ℤ) := [(0x1040D, -9), (0x10410, -10)]

/-- The script of `SD_Init` from the switch to high speed on, for a card that has one or not. -/
def speedScript (cmd6Supported : Bool) : List (U32 × ℤ) :=
  if cmd6Supported then (0x31C06, -9) :: selectScript else selectScript

/-- The script of `SD_Init` from the answer to `CMD9` on. -/
def transferScript (cmd6Supported : Bool) : List (U32 × ℤ) :=
  [(0x10507, -4), (0x10437, -5), (0x1076A, -6), (0x10437, -7), (0x10446, -8)] ++
    speedScript cmd6Supported

/-- The script of `SD_Init`, once the card is ready. -/
def sdScript (cmd6Supported : Bool) : List (U32 × ℤ) :=
  [(0x10602, -1), (0x10403, -2), (0x10609, -3)] ++ transferScript cmd6Supported

private theorem sdInitSelect_follows (fuel : ℕ) : Follows selectScript (sdInitSelect H fuel) :=
  follows_commandOr (follows_commandOr follows_zero)

private theorem setDev_card (d : MmcDrive) {f : Mmcdevice → Mmcdevice}
    (hf : ∀ ctx, (f ctx).total_size = ctx.total_size ∧ (f ctx).isSDHC = ctx.isSDHC) :
    (cardFrame : Frame (SdState σ)).Does (setDev d f) := by
  refine fun s => Prod.ext ?_ rfl
  change ((Function.update s.dev d (f (s.dev d)) .handleSD).total_size,
    (Function.update s.dev d (f (s.dev d)) .handleSD).isSDHC) = s.card
  by_cases h : MmcDrive.handleSD = d
  · subst h
    rw [Function.update_self, (hf _).1, (hf _).2]
    rfl
  · rw [Function.update_of_ne h]
    rfl

/-- The commands that set the bus up follow theirs, with `CMD6` if the card knows it. -/
private theorem sdInitSpeed_follows (fuel : ℕ) (cmd6Supported : Prop) [Decidable cmd6Supported] :
    Follows (speedScript (decide cmd6Supported)) (sdInitSpeed H fuel cmd6Supported) := by
  by_cases h : cmd6Supported
  · rw [sdInitSpeed, if_pos h, speedScript, decide_eq_true h, if_pos rfl]
    refine follows_bind (fun _ => rfl) fun _ => follows_bind (fun _ => rfl) fun _ =>
      follows_bind (fun _ => rfl) fun _ => follows_bind (setDev_card _ fun _ => ⟨rfl, rfl⟩)
        fun _ s => ?_
    have hfollows : Follows selectScript (do
        setDev .handleSD fun ctx => { ctx with clk := 0x200 }
        setckl H 0x200
        sdInitSelect H fuel) :=
      follows_bind (setDev_card _ fun _ => ⟨rfl, rfl⟩) fun _ =>
        follows_bind (allowsAnswer_card.setckl _) fun _ => sdInitSelect_follows fuel
    rw [wp_bind]
    refine (sdmmcSendCommand_recorded fuel .handleSD 0x31C06 0x80FFFFF1 s).mono ?_
    rintro - t ⟨hsetup, hcommands⟩
    have hcard := card_of_setup hsetup
    rw [wp_bind, wp_sdmmcWrite16, wp_bind, wp_getDev]
    split_ifs with herror
    · exact ⟨hcard, _, hcommands, .failed rfl herror⟩
    · refine (hfollows _).mono ?_
      rintro ret u ⟨hcard', cs, hcs, hran⟩
      refine ⟨hcard'.trans hcard, ⟨.handleSD, 0x31C06, 0x80FFFFF1, t.dev .handleSD⟩ :: cs, ?_,
        .next rfl herror hran⟩
      rw [hcs]
      change t.commands ++ cs = _
      rw [hcommands, List.append_assoc]
      rfl
  · rw [sdInitSpeed, if_neg h, speedScript, decide_eq_false h, if_neg Bool.false_ne_true]
    exact follows_bind (setDev_card _ fun _ => ⟨rfl, rfl⟩) fun _ => sdInitSelect_follows fuel

/-- What `SD_Init` does with the answer to `CMD9`: it is the answer in the handle. -/
private theorem sdInitTransfer_follows (fuel : ℕ) (s : SdState σ) :
    wp (sdInitTransfer H fuel) (fun ret t =>
      t.card = (sdmmcCalcSize (s.dev .handleSD).retByte (-1), (s.dev .handleSD).isSDHC) ∧
      ∃ cs, t.commands = s.commands ++ cs ∧
        Ran (transferScript (decide ((s.dev .handleSD).retByte 10 &&& 0x40 ≠ 0))) ret cs)
      (fun _ => True) s := by
  have hfollows : Follows
      (transferScript (decide ((s.dev .handleSD).retByte 10 &&& 0x40 ≠ 0))) (do
        setckl H 0x201
        commandOr H fuel .handleSD (-4) 0x10507 Mmcdevice.address do
        commandOr H fuel .handleSD (-5) 0x10437 Mmcdevice.address do
        commandOr H fuel .handleSD (-6) 0x1076A (fun _ => 0) do
        commandOr H fuel .handleSD (-7) 0x10437 Mmcdevice.address do
        setDev .handleSD fun ctx => { ctx with SDOPT := 1 }
        commandOr H fuel .handleSD (-8) 0x10446 (fun _ => 2) do
        sdmmcMask16 H REG_SDOPT 0x8000 0
        sdInitSpeed H fuel ((s.dev .handleSD).retByte 10 &&& 0x40 ≠ 0)) :=
    follows_bind (allowsAnswer_card.setckl _) fun _ =>
      follows_commandOr <| follows_commandOr <| follows_commandOr <| follows_commandOr <|
        follows_bind (setDev_card _ fun _ => ⟨rfl, rfl⟩) fun _ =>
          follows_commandOr <| follows_bind (allowsAnswer_card.mask16 _ _ _ (by decide)) fun _ =>
            sdInitSpeed_follows fuel _
  rw [sdInitTransfer, wp_bind, wp_getDev, wp_bind, wp_setDev]
  refine (hfollows _).mono ?_
  rintro ret t ⟨hcard, hcs⟩
  refine ⟨hcard.trans ?_, hcs⟩
  rw [SdState.card, SdState.dev_assign_self]

/-- What is known of the card is what the answer to `CMD9`, the third command, says, unless that
failed or was not sent. -/
structure CardKnown (cs : List SdCommand) (cmd6Supported : Bool) (size size' : U32) : Prop where
  answered : ∀ c, cs[2]? = some c → ¬c.Failed → size' = sdmmcCalcSize c.reply.retByte (-1) ∧
    cmd6Supported = decide (c.reply.retByte 10 &&& 0x40 ≠ 0)
  unanswered : (∀ c, cs[2]? = some c → c.Failed) → size' = size

/-- As long as at most two commands were sent, the card has not told its size. -/
private theorem CardKnown.of_length {cs : List SdCommand} (hcs : cs.length ≤ 2)
    (cmd6Supported : Bool)
    {size size' : U32} (hsize : size' = size) : CardKnown cs cmd6Supported size size' where
  answered c hc _ := by
    rw [List.getElem?_eq_none (by omega)] at hc
    cases hc
  unanswered _ := hsize

/-- The part from `CMD2` on follows the script, up to the command that fails. -/
private theorem sdInitIdentify_ran (fuel : ℕ) (s : SdState σ) :
    wp (sdInitIdentify H fuel) (fun ret t => t.card.2 = s.card.2 ∧ ∃ cs cmd6Supported,
      t.commands = s.commands ++ cs ∧ Ran (sdScript cmd6Supported) ret cs ∧
      CardKnown cs cmd6Supported s.card.1 t.card.1) (fun _ => True) s := by
  refine wp_commandOr fun t₁ hsetup₁ c₁ hcmd₁ _ hcommands₁ => ⟨fun hc₁ => ?_, fun hc₁ => ?_⟩
  · have hcard := card_of_setup hsetup₁
    exact ⟨congrArg Prod.snd hcard, [c₁], false, hcommands₁, .failed hcmd₁ hc₁,
      .of_length (by simp) _ (congrArg Prod.fst hcard)⟩
  refine wp_commandOr fun t₂ hsetup₂ c₂ hcmd₂ _ hcommands₂ => ⟨fun hc₂ => ?_, fun hc₂ => ?_⟩
  · have hcard := (card_of_setup hsetup₂).trans (card_of_setup hsetup₁)
    refine ⟨congrArg Prod.snd hcard, [c₁, c₂], false, ?_,
      .next hcmd₁ hc₁ (.failed hcmd₂ hc₂), .of_length (by simp) _ (congrArg Prod.fst hcard)⟩
    rw [hcommands₂, hcommands₁, List.append_assoc]
    rfl
  rw [wp_bind, wp_setDev]
  have hcard₂ := setDev_card .handleSD
    (f := fun ctx => { ctx with initarg := ctx.ret0 >>> 0x10 }) (fun _ => ⟨rfl, rfl⟩) t₂
  refine wp_commandOr fun t₃ hsetup₃ c₃ hcmd₃ hreply₃ hcommands₃ => ?_
  have hcard : t₃.card = s.card :=
    ((card_of_setup hsetup₃).trans (Prod.mk.inj hcard₂).1).trans
      ((card_of_setup hsetup₂).trans (card_of_setup hsetup₁))
  have hcommands : t₃.commands = s.commands ++ [c₁, c₂, c₃] := by
    change t₃.commands = t₂.commands ++ [c₃] at hcommands₃
    rw [hcommands₃, hcommands₂, hcommands₁, List.append_assoc, List.append_assoc]
    rfl
  refine ⟨fun hc₃ => ?_, fun hc₃ => (sdInitTransfer_follows fuel t₃).mono ?_⟩
  · refine ⟨congrArg Prod.snd hcard, [c₁, c₂, c₃], false, hcommands,
      .next hcmd₁ hc₁ (.next hcmd₂ hc₂ (.failed hcmd₃ hc₃)), ⟨fun c hc hok => ?_, fun _ => ?_⟩⟩
    · obtain rfl := Option.some.inj hc
      exact absurd hc₃ hok
    · exact congrArg Prod.fst hcard
  · rintro ret u ⟨hcardu, cs, hcs, hran⟩
    have hSDHC : u.card.2 = s.card.2 := by
      have ht₃ := congrArg Prod.snd hcard
      rw [hcardu]
      exact ht₃
    refine ⟨hSDHC, c₁ :: c₂ :: c₃ :: cs, _, ?_,
      .next hcmd₁ hc₁ (.next hcmd₂ hc₂ (.next hcmd₃ hc₃ hran)),
      ⟨fun c hc _ => ?_, fun hall => absurd (hall c₃ rfl) hc₃⟩⟩
    · rw [hcs, hcommands, List.append_assoc]
      rfl
    · obtain rfl := Option.some.inj hc
      rw [hreply₃]
      exact ⟨congrArg Prod.fst hcardu, rfl⟩

/-! ### Waiting for a drive -/

/-- The last command of a round was answered, and the drive is up. -/
def RoundReady (cs : List SdCommand) : Prop :=
  ∃ c, cs.getLast? = some c ∧ c.reply.error &&& 1 ≠ 0 ∧ c.reply.ret0 &&& 0x80000000 ≠ 0

/-- Rounds of commands, each with `P`, up to the first that finds the drive up. -/
structure Polls (P : List SdCommand → Prop) (waits : List (List SdCommand))
    (last : List SdCommand) : Prop where
  round : ∀ cs ∈ waits, P cs ∧ ¬RoundReady cs
  lastRound : P last
  ready : RoundReady last

section Wait

variable {P : List SdCommand → Prop} {d : MmcDrive} {s t : SdState σ}
  {waits : List (List SdCommand)} {cs : List SdCommand}

/-- The rounds since `s` have not found the drive up. -/
structure Waited (P : List SdCommand → Prop) (s t : SdState σ) (waits : List (List SdCommand)) :
    Prop where
  card : t.card = s.card
  commands : t.commands = s.commands ++ waits.flatten
  rounds : ∀ cs ∈ waits, P cs ∧ ¬RoundReady cs

/-- After them there was one that was answered. -/
structure Asked (P : List SdCommand → Prop) (d : MmcDrive) (s t : SdState σ)
    (waits : List (List SdCommand)) (last : List SdCommand) : Prop where
  card : t.card = s.card
  commands : t.commands = s.commands ++ (waits ++ [last]).flatten
  rounds : ∀ cs ∈ waits, P cs ∧ ¬RoundReady cs
  lastRound : P last
  reply : ∃ c, last.getLast? = some c ∧ c.reply = t.dev d
  answered : (t.dev d).error &&& 1 ≠ 0

/-- A round of which the last answer is missing, or says that the card is not ready. -/
private theorem not_roundReady (hlast : ∃ c, cs.getLast? = some c ∧ c.reply = t.dev d)
    (h : ¬((t.dev d).error &&& 1 ≠ 0 ∧ (t.dev d).ret0 &&& 0x80000000 ≠ 0)) : ¬RoundReady cs := by
  rintro ⟨c, hc, hready⟩
  obtain ⟨c', hc', hreply⟩ := hlast
  rw [hc, Option.some.injEq] at hc'
  rw [hc', hreply] at hready
  exact h hready

private theorem forall_mem_concat_rounds (hwaits : ∀ cs ∈ waits, P cs ∧ ¬RoundReady cs)
    (hcs : P cs ∧ ¬RoundReady cs) : ∀ cs' ∈ waits ++ [cs], P cs' ∧ ¬RoundReady cs' := by
  intro cs' hmem
  rcases List.mem_append.mp hmem with hmem | hmem
  · exact hwaits cs' hmem
  · rwa [List.mem_singleton.mp hmem]

/-- The inner loop repeats the commands up to a round that is answered. -/
private theorem untilAnswered_asks {commands : SdProg σ PUnit}
    (hround : ∀ s, wp commands (fun _ t => t.card = s.card ∧ ∃ cs,
      t.commands = s.commands ++ cs ∧ P cs ∧ ∃ c, cs.getLast? = some c ∧ c.reply = t.dev d)
      (fun _ => True) s) (fuel : ℕ) (ht : ∃ waits, Waited P s t waits) :
    wp (untilDone (fun _ : PUnit => (do
      commands
      let ctx ← getDev d
      pure (if ctx.error &&& 1 = 0 then .inl .unit else .inr .unit) :
        SdProg σ (PUnit ⊕ PUnit))) fuel .unit)
      (fun _ u => ∃ waits last, Asked P d s u waits last) (fun _ => True) t := by
  refine wp_untilDone (I := fun _ u => ∃ waits, Waited P s u waits) (fun _ _ _ => trivial)
    (fun _ u hu => ?_) fuel ht
  obtain ⟨waits, hcard, hcommands, hwaits⟩ := hu
  rw [wp_bind]
  refine (hround u).mono ?_
  rintro - v ⟨hcardv, cs, hcs, hP, hlast⟩
  have hflat : v.commands = s.commands ++ (waits ++ [cs]).flatten := by
    rw [hcs, hcommands, List.flatten_append, List.append_assoc]
    simp
  rw [wp_bind, wp_getDev, wp_pure]
  split_ifs with herror
  · exact ⟨waits ++ [cs], hcardv.trans hcard, hflat,
      forall_mem_concat_rounds hwaits ⟨hP, not_roundReady hlast fun h => h.1 herror⟩⟩
  · exact ⟨waits, cs, hcardv.trans hcard, hflat, hwaits, hP, hlast, herror⟩

/-- The outer loop repeats that up to a round that finds the drive up. -/
private theorem untilReady_polls {commands : SdProg σ PUnit}
    (hround : ∀ s, wp commands (fun _ t => t.card = s.card ∧ ∃ cs,
      t.commands = s.commands ++ cs ∧ P cs ∧ ∃ c, cs.getLast? = some c ∧ c.reply = t.dev d)
      (fun _ => True) s) (fuel : ℕ) (s : SdState σ) :
    wp (untilReady fuel d commands) (fun _ t => t.card = s.card ∧ ∃ waits last,
      t.commands = s.commands ++ (waits ++ [last]).flatten ∧ Polls P waits last ∧
      ∃ c, last.getLast? = some c ∧ c.reply = t.dev d) (fun _ => True) s := by
  rw [untilReady]
  refine wp_untilDone (I := fun _ t => ∃ waits, Waited P s t waits) (fun _ _ _ => trivial)
    (fun _ t ht => ?_) fuel
    ⟨[], rfl, (List.append_nil _).symm, fun _ h => absurd h List.not_mem_nil⟩
  rw [wp_bind]
  refine (untilAnswered_asks hround fuel ht).mono ?_
  rintro - u ⟨waits, last, hcard, hcommands, hwaits, hP, hlast, herror⟩
  rw [wp_bind, wp_getDev, wp_pure]
  split_ifs with hready
  · exact ⟨waits ++ [last], hcard, hcommands,
      forall_mem_concat_rounds hwaits ⟨hP, not_roundReady hlast fun h => h.2 hready⟩⟩
  · refine ⟨hcard, waits, last, hcommands, ⟨hwaits, hP, ?_⟩, hlast⟩
    obtain ⟨c, hc, hreply⟩ := hlast
    exact ⟨c, hc, by rwa [hreply], by rwa [hreply]⟩

end Wait

/-- A round of the wait for a card: it is asked for its state, as the application command it is. -/
structure SdPoll (hcs : U32) (cs : List SdCommand) : Prop where
  codes : cs.map SdCommand.cmd = [0x10437, 0x10769]
  args : ∀ c, cs.getLast? = some c → c.args = 0x10100000 ||| hcs

/-- A round of the loop is `CMD55` and `ACMD41`, and touches no other field of the card. -/
private theorem sdPoll_round (fuel : ℕ) (hcs : U32) (s : SdState σ) :
    wp (do
      let ctx ← getDev .handleSD
      sdmmcSendCommand H fuel .handleSD 0x10437 ctx.address
      sdmmcSendCommand H fuel .handleSD 0x10769 (0x10100000 ||| hcs)) (fun _ t =>
        t.card = s.card ∧ ∃ cs, t.commands = s.commands ++ cs ∧ SdPoll hcs cs ∧
        ∃ c, cs.getLast? = some c ∧ c.reply = t.dev .handleSD) (fun _ => True) s := by
  rw [wp_bind, wp_getDev, wp_bind]
  refine (sdmmcSendCommand_recorded fuel .handleSD 0x10437 _ s).mono ?_
  rintro - t ⟨hsetup, hcommands⟩
  refine (sdmmcSendCommand_recorded fuel .handleSD 0x10769 _ t).mono ?_
  rintro - u ⟨hsetup', hcommands'⟩
  refine ⟨(card_of_setup hsetup').trans (card_of_setup hsetup),
    [⟨.handleSD, 0x10437, (s.dev .handleSD).address, t.dev .handleSD⟩,
      ⟨.handleSD, 0x10769, 0x10100000 ||| hcs, u.dev .handleSD⟩], ?_, ⟨rfl, fun c hc => ?_⟩,
    _, rfl, rfl⟩
  · rw [hcommands', hcommands, List.append_assoc]
    rfl
  · obtain rfl := Option.some.inj hc
    rfl

/-! ### The whole of it -/

/-- The commands of `SD_Init`: it resets the card and asks for its voltage, waits for it, and goes
through the script. -/
structure SdSession (c₀ c₈ : SdCommand) (waits : List (List SdCommand)) (last tail : List SdCommand)
    (cmd6Supported : Bool) (ret : ℤ) (card card' : U32 × U32) : Prop where
  reset : c₀.cmd = 0
  voltage : c₈.cmd = 0x10408 ∧ c₈.args = 0x1AA
  /-- high capacity is asked for if the card knew the question -/
  polls : Polls (SdPoll ((c₈.reply.error &&& 1) <<< 0x1E)) waits last
  /-- and it is what the card has if it says so -/
  isSDHC : ∀ c, last.getLast? = some c → card'.2 =
    if c.reply.ret0 >>> 30 &&& 1 = 0 ∨ (c₈.reply.error &&& 1) <<< 0x1E = 0 then 0 else 1
  script : Ran (sdScript cmd6Supported) ret tail
  size : CardKnown tail cmd6Supported card.1 card'.1

/-- If `SD_Init` returns, its commands were a session. -/
theorem wp_sdInit_session (fuel : ℕ) (s : SdState σ) :
    wp (sdInit H fuel) (fun ret t => ∃ c₀ c₈ waits last tail cmd6Supported,
      t.commands = s.commands ++ c₀ :: c₈ :: ((waits ++ [last]).flatten ++ tail) ∧
      SdSession c₀ c₈ waits last tail cmd6Supported ret s.card t.card) (fun _ => True) s := by
  rw [sdInit, wp_bind, wp_setDev, wp_bind]
  set s₁ := s.assign .handleSD fun ctx => ctx.reset 0 0 with hs₁
  refine (allowsAnswer_card.setTarget .handleSD s₁).mono' (fun _ s₂ h₂ => ?_) fun _ _ => trivial
  obtain ⟨hcard₂, hcommands₂⟩ := Prod.mk.inj h₂
  rw [wp_bind]
  refine (sdmmcSendCommand_recorded fuel .handleSD 0 0 s₂).mono ?_
  rintro - s₃ ⟨hsetup₃, hcommands₃⟩
  rw [wp_bind]
  refine (sdmmcSendCommand_recorded fuel .handleSD 0x10408 0x1AA s₃).mono ?_
  rintro - s₄ ⟨hsetup₄, hcommands₄⟩
  rw [wp_bind, wp_getDev, wp_bind]
  refine (untilReady_polls (sdPoll_round fuel _) fuel s₄).mono ?_
  rintro - s₅ ⟨hcard₅, waits, last, hcommands₅, hpolls, clast, hlast, hreply⟩
  rw [wp_bind, wp_setDev]
  refine (sdInitIdentify_ran fuel _).mono ?_
  rintro ret t ⟨hSDHC, tail, cmd6Supported, hcommands, hran, hknown⟩
  have hsize : (s₅.dev .handleSD).total_size = s.card.1 := by
    have hcard : s₅.card = s₁.card := hcard₅.trans
      ((card_of_setup hsetup₄).trans ((card_of_setup hsetup₃).trans hcard₂))
    have hfst := congrArg Prod.fst hcard
    change (s₅.dev .handleSD).total_size = (s₁.dev .handleSD).total_size at hfst
    rw [hfst, hs₁, SdState.dev_assign_self]
    rfl
  refine ⟨⟨.handleSD, 0, 0, s₃.dev .handleSD⟩, ⟨.handleSD, 0x10408, 0x1AA, s₄.dev .handleSD⟩,
    waits, last, tail, cmd6Supported, ?_, ⟨rfl, ⟨rfl, rfl⟩, hpolls, fun c hc => ?_, hran, ?_⟩⟩
  · change t.commands = s₅.commands ++ tail at hcommands
    rw [hcommands, hcommands₅, hcommands₄, hcommands₃, hcommands₂]
    simp [hs₁, SdState.assign]
  · rw [hlast, Option.some.injEq] at hc
    rw [hSDHC, ← hc, hreply, SdState.card, SdState.dev_assign_self]
  · rw [SdState.card, SdState.dev_assign_self] at hknown
    rwa [← hsize]

theorem sdScript_ne_zero (cmd6Supported : Bool) : ∀ p ∈ sdScript cmd6Supported, p.2 ≠ 0 := by
  cases cmd6Supported with
  | false => decide
  | true => decide

/-- **`SD_Init` follows its script**, whatever the controller does: if it returns, the code names
the command that failed, and is 0 if all were sent and none did. -/
theorem sdInit_session (fuel : ℕ) (s : SdState σ) :
    wp (sdInit H fuel) (fun ret t => ∃ c₀ c₈ waits last tail cmd6Supported,
      t.commands = s.commands ++ c₀ :: c₈ :: ((waits ++ [last]).flatten ++ tail) ∧
      SdSession c₀ c₈ waits last tail cmd6Supported ret s.card t.card ∧
      (ret = 0 ↔ tail.map SdCommand.cmd = (sdScript cmd6Supported).map Prod.fst ∧
        ∀ c ∈ tail, ¬c.Failed)) (fun _ => True) s := by
  refine (wp_sdInit_session fuel s).mono ?_
  rintro ret t ⟨c₀, c₈, waits, last, tail, cmd6Supported, hcommands, hsession⟩
  exact ⟨c₀, c₈, waits, last, tail, cmd6Supported, hcommands, hsession,
    hsession.script.eq_zero_iff (sdScript_ne_zero cmd6Supported)⟩

/-! ### Frames of the initialization -/

/-- The `CMD6` of `SD_Init`. -/
def switchFunction (H : SdmmcHw σ) (fuel : ℕ) : SdProg σ PUnit :=
  sdmmcSendCommand H fuel .handleSD 0x31C06 0x80FFFFF1

/-- A frame that allows what the initialization does: any access of 16 bits but the start of a
command, whole commands without data, and the one with data, which is sent without a buffer. -/
structure AllowsInit (H : SdmmcHw σ) (F : Frame (SdState σ)) : Prop where
  read16 : ∀ a, F.Does (busRead16 H a)
  write16 : ∀ a v, a ≠ sdReg REG_SDCMD → F.Does (busWrite16 H a v)
  setDev : ∀ d f, F.Does (setDev d f)
  command : ∀ {cmd : U32}, cmd &&& 0x60000 = 0 → ∀ fuel d args,
    F.Keeps (sdmmcSendCommand H fuel d cmd args)
  switch : ∀ fuel s, (s.dev .handleSD).rData = 0 →
    wp (switchFunction H fuel) (fun _ t => F.rel s t) (F.cut s) s

/-- What `sdmmc_sdcard_init` makes of the results: it masks 0 with the bits of the errors. -/
private theorem ite_and_eq_zero (p : Prop) [Decidable p] (m : U32) :
    (if p then 0 &&& m else 0) = 0 := by
  split_ifs
  · exact BitVec.zero_and
  · rfl

namespace AllowsInit

variable {F : Frame (SdState σ)} (hF : AllowsInit H F)

include hF

theorem regs : AllowsRegs H F where
  read16 := hF.read16
  write16 a v ha := by
    refine hF.write16 a v ?_
    rintro rfl
    exact absurd ha (by decide)

theorem write (reg v : U16) (hreg : sdReg reg ≠ sdReg REG_SDCMD) :
    F.Does (sdmmcWrite16 H reg v) := hF.write16 _ v hreg

theorem mask (reg clear set : U16) (hreg : sdReg reg ≠ sdReg REG_SDCMD) :
    F.Does (sdmmcMask16 H reg clear set) :=
  Frame.does_bind (hF.read16 _) fun _ => hF.write reg _ hreg

theorem commandOr {cmd : U32} (hdata : cmd &&& 0x60000 = 0) {fuel : ℕ} {d : MmcDrive}
    {code : ℤ} {args : Mmcdevice → U32} {k : SdProg σ ℤ} (hk : F.Keeps k) :
    F.Keeps (commandOr H fuel d code cmd args k) :=
  Frame.keeps_bind (does_getDev d).keeps fun _ =>
    Frame.keeps_bind (hF.command hdata fuel d _) fun _ =>
      Frame.keeps_bind (does_getDev d).keeps fun _ => Frame.keeps_ite (Frame.keeps_pure _) hk

omit hF in
/-- Polling a card until it is ready keeps what each of its rounds keeps. -/
theorem untilReady {fuel : ℕ} {d : MmcDrive} {commands : SdProg σ PUnit}
    (hcommands : F.Keeps commands) : F.Keeps (untilReady fuel d commands) := by
  rw [Sdmmc.untilReady]
  refine Frame.keeps_untilDone (fun _ => ?_) fuel _
  refine Frame.keeps_bind (Frame.keeps_untilDone (fun _ => ?_) fuel _) fun _ => ?_
  · exact Frame.keeps_bind hcommands fun _ =>
      Frame.keeps_bind (does_getDev d).keeps fun _ => Frame.keeps_pure _
  · exact Frame.keeps_bind (does_getDev d).keeps fun _ => Frame.keeps_pure _

/-- Setting the controller up. -/
theorem sdmmcInit : F.Does (sdmmcInit H) := by
  refine Frame.does_bind (hF.setDev _ _) fun _ => Frame.does_bind (hF.setDev _ _) fun _ => ?_
  iterate 6 refine Frame.does_bind (hF.mask _ _ _ (by decide)) fun _ => ?_
  iterate 2 refine Frame.does_bind (hF.write _ _ (by decide)) fun _ => ?_
  iterate 7 refine Frame.does_bind (hF.mask _ _ _ (by decide)) fun _ => ?_
  iterate 2 refine Frame.does_bind (hF.write _ _ (by decide)) fun _ => ?_
  exact Frame.does_bind (hF.mask _ _ _ (by decide)) fun _ =>
    Frame.does_bind (hF.write _ _ (by decide)) fun _ => hF.write _ _ (by decide)

/-- The start of the NAND, command by command. -/
theorem nandInit (fuel : ℕ) : F.Keeps (nandInit H fuel) := by
  refine Frame.keeps_bind (hF.setDev _ _).keeps fun _ => ?_
  refine Frame.keeps_bind (hF.regs.setTarget _).keeps fun _ => ?_
  refine Frame.keeps_bind (hF.command (by decide) fuel _ _) fun _ => ?_
  refine Frame.keeps_bind (untilReady (hF.command (by decide) fuel _ _)) fun _ => ?_
  iterate 3 refine hF.commandOr (by decide) ?_
  refine Frame.keeps_bind (hF.setDev _ _).keeps fun _ => ?_
  refine Frame.keeps_bind (hF.regs.setckl _).keeps fun _ => ?_
  refine hF.commandOr (by decide) ?_
  refine Frame.keeps_bind (hF.setDev _ _).keeps fun _ => ?_
  refine hF.commandOr (by decide) ?_
  refine Frame.keeps_bind (hF.mask _ _ _ (by decide)).keeps fun _ => ?_
  refine hF.commandOr (by decide) ?_
  refine Frame.keeps_bind (hF.setDev _ _).keeps fun _ => ?_
  refine Frame.keeps_bind (hF.regs.setckl _).keeps fun _ => ?_
  exact hF.commandOr (by decide) (hF.commandOr (by decide) (Frame.keeps_pure _))

theorem sdInitSelect (fuel : ℕ) : F.Keeps (sdInitSelect H fuel) :=
  hF.commandOr (by decide) (hF.commandOr (by decide) (Frame.keeps_pure _))

theorem sdInitSpeed (fuel : ℕ) (cmd6Supported : Prop) [Decidable cmd6Supported] :
    F.Keeps (sdInitSpeed H fuel cmd6Supported) := by
  refine Frame.keeps_ite ?_
    (Frame.keeps_bind (hF.setDev _ _).keeps fun _ => hF.sdInitSelect fuel)
  refine Frame.keeps_bind (hF.write _ _ (by decide)).keeps fun _ => ?_
  refine Frame.keeps_bind (hF.write _ _ (by decide)).keeps fun _ => ?_
  refine Frame.keeps_bind (hF.write _ _ (by decide)).keeps fun _ => fun s => ?_
  have hrest : F.Keeps (do
      sdmmcWrite16 H REG_SDBLKLEN 512
      let ctx ← getDev .handleSD
      if ctx.error &&& 4 ≠ 0 then pure (-9)
      else do
        Sdmmc.setDev .handleSD fun ctx => { ctx with clk := 0x200 }
        setckl H 0x200
        Sdmmc.sdInitSelect H fuel) :=
    Frame.keeps_bind (hF.write _ _ (by decide)).keeps fun _ =>
      Frame.keeps_bind (does_getDev _).keeps fun _ =>
        Frame.keeps_ite (Frame.keeps_pure _)
          (Frame.keeps_bind (hF.setDev _ _).keeps fun _ =>
            Frame.keeps_bind (hF.regs.setckl _).keeps fun _ => hF.sdInitSelect fuel)
  have hset := hF.setDev .handleSD (fun ctx => { ctx with rData := 0, size := 64 }) s
  rw [wp_setDev] at hset
  rw [wp_bind, wp_setDev, wp_bind]
  refine (hF.switch fuel _ ?_).mono' (fun _ t ht => ?_) fun _ ht => F.trans_cut hset ht
  · rw [SdState.dev_assign_self]
  · have hst := F.trans hset ht
    exact (hrest t).mono' (fun _ _ hu => F.trans hst hu) fun _ hu => F.trans_cut hst hu

/-- The start of a card, from `CMD0` on. -/
theorem sdInit (fuel : ℕ) : F.Keeps (sdInit H fuel) := by
  refine Frame.keeps_bind (hF.setDev _ _).keeps fun _ => ?_
  refine Frame.keeps_bind (hF.regs.setTarget _).keeps fun _ => ?_
  iterate 2 refine Frame.keeps_bind (hF.command (by decide) fuel _ _) fun _ => ?_
  refine Frame.keeps_bind (does_getDev _).keeps fun _ => ?_
  refine Frame.keeps_bind (untilReady (Frame.keeps_bind (does_getDev _).keeps fun _ =>
    Frame.keeps_bind (hF.command (by decide) fuel _ _) fun _ =>
      hF.command (by decide) fuel _ _)) fun _ => ?_
  refine Frame.keeps_bind (hF.setDev _ _).keeps fun _ => ?_
  iterate 2 refine hF.commandOr (by decide) ?_
  refine Frame.keeps_bind (hF.setDev _ _).keeps fun _ => ?_
  refine hF.commandOr (by decide) ?_
  refine Frame.keeps_bind (does_getDev _).keeps fun _ => ?_
  refine Frame.keeps_bind (hF.setDev _ _).keeps fun _ => ?_
  refine Frame.keeps_bind (hF.regs.setckl _).keeps fun _ => ?_
  iterate 4 refine hF.commandOr (by decide) ?_
  refine Frame.keeps_bind (hF.setDev _ _).keeps fun _ => ?_
  refine hF.commandOr (by decide) ?_
  exact Frame.keeps_bind (hF.mask _ _ _ (by decide)).keeps fun _ => hF.sdInitSpeed fuel _

theorem pollCard (timeout : ℕ) : F.Does (pollCard H timeout) := by
  induction timeout with
  | zero => exact Frame.does_pure _
  | succ timeout ih =>
    exact Frame.does_bind (hF.read16 _) fun _ => Frame.does_ite (Frame.does_pure _) ih

/-- The whole of it, which returns 0 whatever the drives answer. -/
theorem wp_sdmmcSdcardInit (fuel : ℕ) (s : SdState σ) :
    wp (sdmmcSdcardInit H fuel) (fun ret t => F.rel s t ∧ ret = 0) (F.cut s) s := by
  have hthen {α : Type} {x : SdProg σ α} (hx : F.Keeps x) {t : SdState σ} (ht : F.rel s t) :
      wp x (fun _ u => F.rel s u) (F.cut s) t :=
    (hx t).mono' (fun _ _ hu => F.trans ht hu) fun _ hu => F.trans_cut ht hu
  rw [sdmmcSdcardInit, wp_bind]
  refine ((hF.write16 0x10000020 0x340 (by decide)).keeps s).mono fun _ r hr => ?_
  rw [wp_bind]
  refine (hthen hF.sdmmcInit.keeps hr).mono fun _ t ht => ?_
  rw [wp_bind]
  refine (hthen (hF.nandInit fuel) ht).mono fun nand u hu => ?_
  rw [wp_bind]
  refine (hthen (hF.pollCard 20).keeps hu).mono fun card v hv => ?_
  simp only [ite_and_eq_zero]
  split_ifs
  · rw [wp_bind]
    refine (hthen (hF.sdInit fuel) hv).mono fun sd w hw => ?_
    rw [wp_pure]
    exact ⟨hw, rfl⟩
  · rw [wp_pure]
    exact ⟨hv, BitVec.zero_and⟩

end AllowsInit

/-! ### What is stored to memory -/

/-- A command without data, or without a buffer for what it reads, moves nothing. -/
private theorem sdmmcSendCommand_moves_none {cmd : U32} (hwrite : cmd &&& 0x40000 = 0) (fuel : ℕ)
    (d : MmcDrive) (args : U32) {s : SdState σ} (hread : ¬Moves .read cmd (s.dev d)) :
    wp (sdmmcSendCommand H fuel d cmd args) (fun _ t => t.moved = s.moved)
      (fun t => t.moved = s.moved) s := by
  refine sdmmcSendCommand_within (show cmd &&& SdDirection.read.other.bit = 0 from hwrite) fuel d
    args s
    fun t _ _ hwithin => ?_
  obtain ⟨ws, hmoved, -, -, hnone⟩ := hwithin
  rw [hmoved, hnone hread, Moved.pass_nil]

/-- Nothing moves. -/
abbrev movedFrame : Frame (SdState σ) := Frame.same SdState.moved

/-- No part of the start moves data: its commands have no data bits, or no buffer. -/
private theorem allowsInit_moved : AllowsInit H movedFrame where
  read16 a s := moved_onRead16 s a
  write16 a v _ s := moved_onWrite16 s a v
  setDev _ _ _ := rfl
  command {cmd} hdata fuel d args := by
    have hbits {m : U32} (hm : 0x60000 &&& m = m) : cmd &&& m = 0 := by
      rw [← hm, ← BitVec.and_assoc, hdata]
      exact BitVec.zero_and
    exact fun s => sdmmcSendCommand_moves_none (hbits (by decide)) fuel d args
      fun h => h.1 (hbits (by decide))
  switch fuel s hs := sdmmcSendCommand_moves_none (by decide) fuel .handleSD _ fun h => h.2 hs

/-- **Initialization stores nothing and reports nothing**: at whatever point it is cut short,
memory and the FIFO are as they were, and what it returns is 0, be there a card or not. -/
theorem sdmmcSdcardInit_silent (fuel : ℕ) (s : SdState σ) :
    (exec (sdmmcSdcardInit H fuel) s).2.moved = s.moved ∧
      ∀ ret, (exec (sdmmcSdcardInit H fuel) s).1 = some ret → ret = 0 := by
  have hinit := allowsInit_moved.wp_sdmmcSdcardInit (H := H) fuel s
  refine ⟨(hinit.mono fun _ _ h => h.1).always, fun ret hret => ?_⟩
  exact (hinit.of_exec (Prod.ext hret rfl)).2

end Arm9LinuxFw.Sdmmc
