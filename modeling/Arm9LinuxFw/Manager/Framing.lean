import Arm9LinuxFw.Hw.Pxi
import Arm9LinuxFw.Manager.Registers

/-!
# Commands over the FIFO

`onPxiRecv` reads commands from the receive FIFO: a word for a read of a register, two for a
write. How far the handler has got with a command is known only to its program counter, and
words may arrive, and answers be taken, between any two of its accesses to the hardware.

* `PxiCmd.words` are the words of a command, and `PxiCmd.Encodable` says that its numbers fit into
  the fields they are given; the handler gets out of them what was put in (`PxiCmd.header_readReg`,
  `PxiCmd.header_writeReg`).
* `linkStep` is the system: a step of the handler, the arrival of a word, or a result that is taken.
  The accesses that the handler makes are logged where it makes them (`Served.access`).
* `serveStep` is what the host is to see: commands served one by one, each as one access.
* `Framed` is the invariant, a conservation law: the words of the commands still to be executed are
  those that the handler holds, then those in the FIFO, then those on their way; and the results are
  in the host's hands, in the other FIFO, or about to be sent. There is a lemma for each step that
  moves a word.
* `Link.work` counts the moves that are left. From every state there is a way on to the end, on
  which it falls (`Framed.progress`), so that no command is stuck.

`framing` is the contract: whatever the schedule, the handler executes the commands whose words
were sent, each as one access to the registers, and sends back the results of the reads.
-/

namespace Arm9LinuxFw

open Transition

variable {ω : Type*} (T : DevTable ω)

/-! ### Commands as words -/

/-- The first word of a command. -/
def PxiCmd.header : PxiCmd → U32
  | .readReg dev reg => dev <<< 24 ||| reg
  | .writeReg dev reg _ => (1 : U32) <<< 31 ||| dev <<< 24 ||| reg

/-- The words of a command. -/
def PxiCmd.words : PxiCmd → List U32
  | .readReg dev reg => [(PxiCmd.readReg dev reg).header]
  | .writeReg dev reg data => [(PxiCmd.writeReg dev reg data).header, data]

/-- The fields of the command fit its first word. -/
def PxiCmd.Encodable : PxiCmd → Prop
  | .readReg dev reg | .writeReg dev reg _ => dev.toNat < 128 ∧ reg.toNat < 2 ^ 24

/-- What a command returns. -/
def PxiCmd.reply (w : Fw ω) : PxiCmd → Option U32
  | .readReg dev reg => some (virtDevReadReg T w dev reg).1
  | .writeReg _ _ _ => none

/-- The handler gets out of the first word what was put in, for a read. -/
private theorem PxiCmd.header_readReg {dev reg : U32} (h : (PxiCmd.readReg dev reg).Encodable) :
    pximsgCmdType (PxiCmd.readReg dev reg).header = 0 ∧
      pximsgCmdDev (PxiCmd.readReg dev reg).header = dev ∧
      pximsgCmdReg (PxiCmd.readReg dev reg).header = reg := by
  have htype : (0 : U32).toNat < 2 := by decide
  have hzero : (PxiCmd.readReg dev reg).header = (0 : U32) <<< 31 ||| dev <<< 24 ||| reg := by
    simp [header]
  rw [hzero]
  exact pximsgCmd_commandWord htype h.1 h.2

/-- And for a write, but for its data. -/
private theorem PxiCmd.header_writeReg {dev reg data : U32}
    (h : (PxiCmd.writeReg dev reg data).Encodable) :
    pximsgCmdType (PxiCmd.writeReg dev reg data).header = 1 ∧
      pximsgCmdDev (PxiCmd.writeReg dev reg data).header = dev ∧
      pximsgCmdReg (PxiCmd.writeReg dev reg data).header = reg := by
  have htype : (1 : U32).toNat < 2 := by decide
  exact pximsgCmd_commandWord htype h.1 h.2

/-! ### The link -/

/-- Where `onPxiRecv` stands, with what it has read. -/
inductive RecvPc
  /-- not running -/
  | idle
  /-- at `while(!pxiRecvEmpty())` -/
  | loop
  /-- at `msg = pxiRecvMsg()` -/
  | recv
  /-- at `switch(cmd)` -/
  | cmd (msg : U32)
  /-- at `while(pxiSendFull())` -/
  | sendWait (data : U32)
  /-- at `pxiSendMsg(data)` -/
  | send (data : U32)
  /-- at `while(pxiRecvEmpty())` -/
  | dataWait (msg : U32)
  /-- at `data = pxiRecvMsg()` -/
  | dataRecv (msg : U32)
  /-- at `virtDevWriteReg` -/
  | write (msg data : U32)
  deriving DecidableEq

/-- The commands executed, with what they returned, and the state of the firmware. -/
structure Served (ω : Type*) where
  fw : Fw ω
  ops : List (PxiCmd × Option U32)

/-- The two processors and the FIFOs between them. -/
structure Link (ω : Type*) where
  /-- words that have not arrived yet -/
  incoming : List U32
  pxi : Pxi
  /-- words the other processor has taken from the send FIFO -/
  host : List U32
  pc : RecvPc
  served : Served ω
  /-- the words that were read as commands -/
  msgs : List U32

/-- Execute a command. -/
def Served.access (v : Served ω) (c : PxiCmd) : Served ω where
  fw := c.access T v.fw
  ops := v.ops ++ [(c, c.reply T v.fw)]

/-- The next step of `onPxiRecv`. -/
def onPxiRecv (s : Link ω) : Option (Link ω) :=
  match s.pc with
  | .idle => none
  | .loop => some { s with pc := if pxiRecvEmpty s.pxi then .idle else .recv }
  | .recv =>
      let (msg, pxi) := pxiRecvMsg s.pxi
      some { s with pxi := pxi, pc := .cmd msg, msgs := s.msgs ++ [msg] }
  | .cmd msg =>
      if pximsgCmdType msg = 0 then
        let c := .readReg (pximsgCmdDev msg) (pximsgCmdReg msg)
        let data := (virtDevReadReg T s.served.fw (pximsgCmdDev msg) (pximsgCmdReg msg)).1
        some { s with served := s.served.access T c, pc := .sendWait data }
      else some { s with pc := .dataWait msg }
  | .sendWait data => some { s with pc := if pxiSendFull s.pxi then .sendWait data else .send data }
  | .send data => some { s with pxi := pxiSendMsg s.pxi data, pc := .loop }
  | .dataWait msg =>
      some { s with pc := if pxiRecvEmpty s.pxi then .dataWait msg else .dataRecv msg }
  | .dataRecv msg =>
      let (data, pxi) := pxiRecvMsg s.pxi
      some { s with pxi := pxi, pc := .write msg data }
  | .write msg data =>
      let c := .writeReg (pximsgCmdDev msg) (pximsgCmdReg msg) data
      some { s with served := s.served.access T c, pc := .loop }

/-- What happens on the link. -/
inductive LinkAction
  /-- a word arrives in the receive FIFO -/
  | arrive
  /-- the receive interrupt is taken -/
  | irq
  /-- the handler takes a step -/
  | handler
  /-- the other processor takes a word from the send FIFO -/
  | drain
  /-- the main loop processes a pending queue -/
  | process
  deriving DecidableEq

def linkStep (s : Link ω) : LinkAction → Option (Link ω)
  | .arrive =>
      match s.incoming with
      | [] => none
      | x :: xs => some { s with incoming := xs, pxi := { s.pxi with rx := s.pxi.rx ++ [x] } }
  | .irq => if s.pc = .idle then some { s with pc := .loop } else none
  | .handler => onPxiRecv T s
  | .drain =>
      match s.pxi.tx with
      | [] => none
      | x :: xs => some { s with host := s.host ++ [x], pxi := { s.pxi with tx := xs } }
  -- interrupts are masked meanwhile
  | .process =>
      if s.pc = .idle then
        some { s with served :=
          { s.served with fw := (virtManagerProcessPending T s.served.fw).2 } }
      else none

/-- The link before any word of the commands has arrived. -/
def linkBoot (w : Fw ω) (stale : U32) (cmds : List PxiCmd) : Link ω where
  incoming := cmds.flatMap PxiCmd.words
  pxi := ⟨[], [], stale⟩
  host := []
  pc := .idle
  served := ⟨w, []⟩
  msgs := []

/-! ### Commands served one by one -/

/-- Commands executed as a whole, and queues processed, in some order. -/
def serveStep (v : Served ω) : RegAction → Option (Served ω)
  | .access c => some (v.access T c)
  | .process => some { v with fw := (virtManagerProcessPending T v.fw).2 }

/-- The commands executed so far. -/
def Served.cmds (v : Served ω) : List PxiCmd := v.ops.map Prod.fst

/-- The results of the reads among them. -/
def Served.results (v : Served ω) : List U32 := v.ops.filterMap Prod.snd

@[simp]
theorem Served.cmds_access (v : Served ω) (c : PxiCmd) : (v.access T c).cmds = v.cmds ++ [c] := by
  simp [cmds, access]

@[simp]
theorem Served.results_readReg (v : Served ω) (dev reg : U32) :
    (v.access T (.readReg dev reg)).results =
      v.results ++ [(virtDevReadReg T v.fw dev reg).1] := by
  simp [results, access, PxiCmd.reply]

@[simp]
theorem Served.results_writeReg (v : Served ω) (dev reg data : U32) :
    (v.access T (.writeReg dev reg data)).results = v.results := by
  simp [results, access, PxiCmd.reply]

/-- A step of the link executes a command, processes a queue, or does neither. -/
theorem linkStep_serves {s t : Link ω} {a : LinkAction} (h : linkStep T s a = some t) :
    Reachable (serveStep T) s.served t.served := by
  have hstep (a : RegAction) {v : Served ω} (ha : serveStep T s.served a = some v) :
      Reachable (serveStep T) s.served v := (Reachable.refl _).tail ha
  rcases a with _ | _ | _ | _ | _
  case arrive | drain =>
    simp only [linkStep] at h
    split at h
    · cases h
    · obtain rfl := Option.some.inj h
      exact .refl _
  case irq =>
    obtain ⟨-, heq⟩ := Option.ite_none_right_eq_some.mp h
    obtain rfl := Option.some.inj heq
    exact .refl _
  case handler =>
    simp only [linkStep, onPxiRecv] at h
    split at h
    case h_1 => cases h
    case h_4 msg _ =>
      split_ifs at h
      · obtain rfl := Option.some.inj h
        exact hstep (.access (.readReg (pximsgCmdDev msg) (pximsgCmdReg msg))) rfl
      · obtain rfl := Option.some.inj h
        exact .refl _
    case h_9 msg data _ =>
      obtain rfl := Option.some.inj h
      exact hstep (.access (.writeReg (pximsgCmdDev msg) (pximsgCmdReg msg) data)) rfl
    all_goals
      obtain rfl := Option.some.inj h
      exact .refl _
  case process =>
    obtain ⟨-, heq⟩ := Option.ite_none_right_eq_some.mp h
    obtain rfl := Option.some.inj heq
    exact hstep .process rfl

/-- Behind the link the firmware runs as the register map does. -/
theorem link_registers {s t : Link ω} {as : List LinkAction}
    (hrun : exec (linkStep T) s as = some t) : Reachable (regStep T) s.served.fw t.served.fw := by
  obtain ⟨bs, hbs⟩ := exec_refines (fun s a t ht => linkStep_serves T ht) hrun
  refine exec_refines (f := Served.fw) (fun v a u hu => (Reachable.refl v.fw).tail (a := a) ?_) hbs
  rcases a with c | _ <;> obtain rfl := Option.some.inj hu <;> rfl

/-! ### The invariant -/

/-- The words the handler holds of a command that it has not executed. -/
def RecvPc.held : RecvPc → List U32
  | .cmd msg | .dataWait msg | .dataRecv msg => [msg]
  | .write msg data => [msg, data]
  | _ => []

/-- The command word of a command that it has not executed. -/
def RecvPc.opened : RecvPc → List U32
  | .cmd msg | .dataWait msg | .dataRecv msg | .write msg _ => [msg]
  | _ => []

/-- The result it has not sent back. -/
def RecvPc.unsent : RecvPc → List U32
  | .sendWait data | .send data => [data]
  | _ => []

/-- The handler goes on only as far as the FIFOs allow, and takes data for writes only. -/
def RecvPc.Sound (p : Pxi) : RecvPc → Prop
  | .recv => p.rx ≠ []
  | .send _ => p.tx.length < PXI_FIFO_WIDTH
  | .dataWait msg | .write msg _ => pximsgCmdType msg ≠ 0
  | .dataRecv msg => pximsgCmdType msg ≠ 0 ∧ p.rx ≠ []
  | _ => True

/-- No word is lost, reordered or taken for what it is not. -/
structure Framed (cmds : List PxiCmd) (s : Link ω) : Prop where
  words : ∃ todo, cmds = s.served.cmds ++ todo ∧
    todo.flatMap PxiCmd.words = s.pc.held ++ (s.pxi.rx ++ s.incoming)
  msgs : s.msgs = s.served.cmds.map PxiCmd.header ++ s.pc.opened
  results : s.served.results = s.host ++ (s.pxi.tx ++ s.pc.unsent)
  sound : s.pc.Sound s.pxi

private theorem framed_boot (w : Fw ω) (stale : U32) (cmds : List PxiCmd) :
    Framed cmds (linkBoot w stale cmds) where
  words := ⟨cmds, rfl, rfl⟩
  msgs := rfl
  results := rfl
  sound := trivial

/-- The first of the words left is the first word of the next command, whose fields it gives. -/
theorem next_command {todo : List PxiCmd} (henc : ∀ c ∈ todo, c.Encodable) {msg : U32}
    {rest : List U32} (h : todo.flatMap PxiCmd.words = msg :: rest) :
    ∃ c todo', todo = c :: todo' ∧ c.header = msg ∧
      ((pximsgCmdType msg = 0 ∧ c = .readReg (pximsgCmdDev msg) (pximsgCmdReg msg) ∧
          rest = todo'.flatMap PxiCmd.words) ∨
        (pximsgCmdType msg ≠ 0 ∧ ∃ data,
          c = .writeReg (pximsgCmdDev msg) (pximsgCmdReg msg) data ∧
            rest = data :: todo'.flatMap PxiCmd.words)) := by
  rcases todo with _ | ⟨c, todo⟩
  · cases h
  have hc := henc c (List.mem_cons_self ..)
  refine ⟨c, todo, rfl, ?_⟩
  rw [List.flatMap_cons] at h
  rcases c with ⟨dev, reg⟩ | ⟨dev, reg, data⟩
  · obtain ⟨rfl, rfl⟩ := List.cons_eq_cons.mp h
    obtain ⟨htype, hdev, hreg⟩ := PxiCmd.header_readReg hc
    refine ⟨rfl, Or.inl ⟨htype, ?_, rfl⟩⟩
    rw [hdev, hreg]
  · obtain ⟨rfl, rfl⟩ := List.cons_eq_cons.mp h
    obtain ⟨htype, hdev, hreg⟩ := PxiCmd.header_writeReg hc
    refine ⟨rfl, Or.inr ⟨?_, data, ?_, rfl⟩⟩
    · rw [htype]
      decide
    · rw [hdev, hreg]

section Steps

variable {T} {cmds : List PxiCmd} {s t : Link ω}

/-- A word that arrives is taken from those on their way to those in the FIFO. -/
private theorem Framed.arrive (h : Framed cmds s) (hstep : linkStep T s .arrive = some t) :
    Framed cmds t := by
  simp only [linkStep] at hstep
  split at hstep
  case h_1 => cases hstep
  case h_2 x xs hin =>
    obtain rfl := Option.some.inj hstep
    obtain ⟨todo, hcmds, hwords⟩ := h.words
    refine ⟨⟨todo, hcmds, ?_⟩, h.msgs, h.results, ?_⟩
    · rw [hwords, hin]
      simp
    · have hsound := h.sound
      unfold RecvPc.Sound at hsound ⊢
      rcases hpc : s.pc <;> simp_all

/-- A result that is taken is one more that the host has. -/
private theorem Framed.drain (h : Framed cmds s) (hstep : linkStep T s .drain = some t) :
    Framed cmds t := by
  simp only [linkStep] at hstep
  split at hstep
  case h_1 => cases hstep
  case h_2 x xs htx =>
    obtain rfl := Option.some.inj hstep
    refine ⟨h.words, h.msgs, ?_, ?_⟩
    · rw [h.results, htx]
      simp
    · have hsound := h.sound
      unfold RecvPc.Sound at hsound ⊢
      rcases hpc : s.pc <;> simp_all
      omega

/-- The handler waits, or finds that it can go on: it holds the same words. -/
theorem Framed.goto (h : Framed cmds s) {pc pc' : RecvPc} (hpc : s.pc = pc)
    (hheld : pc'.held = pc.held) (hopened : pc'.opened = pc.opened)
    (hunsent : pc'.unsent = pc.unsent) (hsound : pc'.Sound s.pxi) :
    Framed cmds { s with pc := pc' } := by
  subst hpc
  exact ⟨hheld ▸ h.words, hopened ▸ h.msgs, hunsent ▸ h.results, hsound⟩

/-- A result is sent, for which there is room. -/
theorem Framed.send (h : Framed cmds s) {data : U32} (hpc : s.pc = .send data)
    (hstep : onPxiRecv T s = some t) : Framed cmds t := by
  have hsound := h.sound
  obtain ⟨todo, hcmds, hwords⟩ := h.words
  have hmsgs := h.msgs
  have hresults := h.results
  rw [hpc] at hsound hwords hmsgs hresults
  have hroom : pxiSendFull s.pxi = false := decide_eq_false (Nat.not_le_of_lt hsound)
  simp only [onPxiRecv, hpc, pxiSendMsg, hroom] at hstep
  obtain rfl := Option.some.inj hstep
  refine ⟨⟨todo, hcmds, hwords⟩, hmsgs, ?_, trivial⟩
  rw [hresults]
  simp [RecvPc.unsent]

/-- A command word is read. -/
theorem Framed.recv (h : Framed cmds s) (hpc : s.pc = .recv) (hstep : onPxiRecv T s = some t) :
    Framed cmds t := by
  have hsound := h.sound
  obtain ⟨todo, hcmds, hwords⟩ := h.words
  have hmsgs := h.msgs
  have hresults := h.results
  rw [hpc] at hsound hwords hmsgs hresults
  rcases hrx : s.pxi.rx with _ | ⟨msg, rx⟩
  · exact absurd hrx hsound
  · simp only [onPxiRecv, hpc, pxiRecvMsg, hrx] at hstep
    obtain rfl := Option.some.inj hstep
    refine ⟨⟨todo, hcmds, ?_⟩, ?_, hresults, trivial⟩
    · rw [hwords, hrx]
      rfl
    · rw [hmsgs]
      simp [RecvPc.opened]

/-- The data word of a write is read. -/
theorem Framed.dataRecv (h : Framed cmds s) {msg : U32} (hpc : s.pc = .dataRecv msg)
    (hstep : onPxiRecv T s = some t) : Framed cmds t := by
  have hsound := h.sound
  obtain ⟨todo, hcmds, hwords⟩ := h.words
  have hmsgs := h.msgs
  have hresults := h.results
  rw [hpc] at hsound hwords hmsgs hresults
  rcases hrx : s.pxi.rx with _ | ⟨data, rx⟩
  · exact absurd hrx hsound.2
  · simp only [onPxiRecv, hpc, pxiRecvMsg, hrx] at hstep
    obtain rfl := Option.some.inj hstep
    refine ⟨⟨todo, hcmds, ?_⟩, hmsgs, hresults, hsound.1⟩
    rw [hwords, hrx]
    rfl

/-- A command word is decoded: a read is executed, a write waits for its data. -/
theorem Framed.cmd (h : Framed cmds s) (henc : ∀ c ∈ cmds, c.Encodable) {msg : U32}
    (hpc : s.pc = .cmd msg) (hstep : onPxiRecv T s = some t) : Framed cmds t := by
  obtain ⟨todo, hcmds, hwords⟩ := h.words
  have hmsgs := h.msgs
  have hresults := h.results
  rw [hpc] at hwords hmsgs hresults
  have htodo : ∀ c ∈ todo, c.Encodable := fun c hc => henc c (hcmds ▸ List.mem_append_right _ hc)
  simp only [onPxiRecv, hpc] at hstep
  split_ifs at hstep with htype
  · obtain rfl := Option.some.inj hstep
    obtain ⟨c, todo', rfl, hheader, ⟨-, rfl, hrest⟩ | ⟨hne, -⟩⟩ := next_command htodo hwords
    · refine ⟨⟨todo', ?_, ?_⟩, ?_, ?_, trivial⟩
      · rw [hcmds, Served.cmds_access]
        simp
      · exact hrest.symm
      · rw [hmsgs, Served.cmds_access, List.map_append, List.map_singleton, hheader]
        simp [RecvPc.opened]
      · rw [Served.results_readReg, hresults]
        simp [RecvPc.unsent]
    · exact absurd htype hne
  · obtain rfl := Option.some.inj hstep
    exact ⟨⟨todo, hcmds, hwords⟩, hmsgs, hresults, htype⟩

/-- A write is executed. -/
theorem Framed.write (h : Framed cmds s) (henc : ∀ c ∈ cmds, c.Encodable) {msg data : U32}
    (hpc : s.pc = .write msg data) (hstep : onPxiRecv T s = some t) : Framed cmds t := by
  have hsound := h.sound
  obtain ⟨todo, hcmds, hwords⟩ := h.words
  have hmsgs := h.msgs
  have hresults := h.results
  rw [hpc] at hsound hwords hmsgs hresults
  have htodo : ∀ c ∈ todo, c.Encodable := fun c hc => henc c (hcmds ▸ List.mem_append_right _ hc)
  simp only [onPxiRecv, hpc] at hstep
  obtain rfl := Option.some.inj hstep
  obtain ⟨c, todo', rfl, hheader, ⟨htype, -⟩ | ⟨-, data', rfl, hrest⟩⟩ := next_command htodo hwords
  · exact absurd htype hsound
  · obtain ⟨rfl, htail⟩ := List.cons_eq_cons.mp hrest
    refine ⟨⟨todo', ?_, htail.symm⟩, ?_, ?_, trivial⟩
    · rw [hcmds, Served.cmds_access]
      simp
    · rw [hmsgs, Served.cmds_access, List.map_append, List.map_singleton, hheader]
      simp [RecvPc.opened]
    · rw [Served.results_writeReg, hresults]
      rfl

/-- **A step of the handler** moves a word from the FIFO to what it holds, or spends what it holds
on one access. -/
theorem Framed.handler (h : Framed cmds s) (henc : ∀ c ∈ cmds, c.Encodable)
    (hstep : onPxiRecv T s = some t) : Framed cmds t := by
  have hsound := h.sound
  rcases hpc : s.pc with _ | _ | _ | msg | data | data | msg | msg | ⟨msg, data⟩
  all_goals rw [hpc] at hsound
  case recv => exact h.recv hpc hstep
  case cmd => exact h.cmd henc hpc hstep
  case dataRecv => exact h.dataRecv hpc hstep
  case write => exact h.write henc hpc hstep
  case send => exact h.send hpc hstep
  all_goals simp only [onPxiRecv, hpc, reduceCtorEq, Option.some.injEq] at hstep
  -- the loops that wait for a FIFO
  case loop =>
    subst hstep
    split_ifs with hempty
    · exact h.goto hpc rfl rfl rfl trivial
    · exact h.goto hpc rfl rfl rfl fun hrx => hempty (by rw [pxiRecvEmpty, hrx]; rfl)
  case sendWait =>
    subst hstep
    split_ifs with hfull
    · exact h.goto hpc rfl rfl rfl trivial
    · exact h.goto hpc rfl rfl rfl (Nat.lt_of_not_le fun hle => hfull (decide_eq_true hle))
  case dataWait =>
    subst hstep
    split_ifs with hempty
    · exact h.goto hpc rfl rfl rfl hsound
    · exact h.goto hpc rfl rfl rfl ⟨hsound, fun hrx => hempty (by rw [pxiRecvEmpty, hrx]; rfl)⟩

/-- **One step** keeps the invariant. -/
theorem Framed.step (h : Framed cmds s) (henc : ∀ c ∈ cmds, c.Encodable) {a : LinkAction}
    (hstep : linkStep T s a = some t) : Framed cmds t := by
  rcases a with _ | _ | _ | _ | _
  case arrive => exact h.arrive hstep
  case drain => exact h.drain hstep
  case handler => exact h.handler henc hstep
  case irq =>
    obtain ⟨hidle, heq⟩ := Option.ite_none_right_eq_some.mp hstep
    obtain rfl := Option.some.inj heq
    exact h.goto hidle rfl rfl rfl trivial
  case process =>
    obtain ⟨-, heq⟩ := Option.ite_none_right_eq_some.mp hstep
    obtain rfl := Option.some.inj heq
    exact ⟨h.words, h.msgs, h.results, h.sound⟩

end Steps

/-! ### Progress -/

/-- What is left to do: words to receive and to send, and the handler's way to the next. -/
def RecvPc.rank : RecvPc → ℕ
  | .idle => 0
  | .recv => 1
  | .loop => 2
  | .write _ _ => 3
  | .send _ => 4
  | .dataRecv _ => 4
  | .sendWait _ => 5
  | .dataWait _ => 5
  | .cmd _ => 6

def Link.work (s : Link ω) : ℕ :=
  8 * s.incoming.length + 7 * s.pxi.rx.length + s.pxi.tx.length + s.pc.rank

/-- All words are consumed and all results taken. -/
structure Quiet (s : Link ω) : Prop where
  incoming : s.incoming = []
  rx : s.pxi.rx = []
  tx : s.pxi.tx = []
  pc : s.pc = .idle

section Progress

variable {T} {cmds : List PxiCmd} {s : Link ω}

/-- The handler is never stuck in the middle of a command. -/
private theorem onPxiRecv_isSome (h : s.pc ≠ .idle) : (onPxiRecv T s).isSome := by
  rw [onPxiRecv]
  split
  case h_1 hpc => exact absurd hpc h
  case h_4 => split_ifs <;> rfl
  all_goals rfl

/-- A step of the handler that is not kept waiting lessens the work. -/
private theorem handler_work {t : Link ω} (hsound : s.pc.Sound s.pxi)
    (hsend : ∀ data, s.pc = .sendWait data → pxiSendFull s.pxi = false)
    (hdata : ∀ msg, s.pc = .dataWait msg → pxiRecvEmpty s.pxi = false)
    (hstep : onPxiRecv T s = some t) : t.work < s.work := by
  rcases hpc : s.pc with _ | _ | _ | msg | data | data | msg | msg | ⟨msg, data⟩
  all_goals
    rw [hpc] at hsound
    simp only [onPxiRecv, hpc, reduceCtorEq, Option.some.injEq] at hstep
  case loop =>
    subst hstep
    simp only [Link.work, hpc]
    split_ifs <;> simp [RecvPc.rank]
  case recv | dataRecv =>
    rcases hrx : s.pxi.rx with _ | ⟨x, xs⟩
    · simp [RecvPc.Sound, hrx] at hsound
    · subst hstep
      simp only [Link.work, hpc, hrx, pxiRecvMsg, RecvPc.rank, List.length_cons]
      omega
  case cmd =>
    split_ifs at hstep
    all_goals
      obtain rfl := Option.some.inj hstep
      simp [Link.work, hpc, RecvPc.rank]
  case sendWait =>
    subst hstep
    simp [Link.work, hpc, hsend data hpc, RecvPc.rank]
  case send =>
    have hroom : pxiSendFull s.pxi = false := decide_eq_false (Nat.not_le_of_lt hsound)
    subst hstep
    simp only [Link.work, hpc, RecvPc.rank, pxiSendMsg, hroom, Bool.false_eq_true, if_false,
      List.length_append, List.length_singleton]
    omega
  case dataWait =>
    subst hstep
    simp [Link.work, hpc, hdata msg hpc, RecvPc.rank]
  case write =>
    subst hstep
    simp [Link.work, hpc, RecvPc.rank]

/-- Arrivals bring the end nearer. -/
private theorem arrive_work (h : s.incoming ≠ []) :
    ∃ t, linkStep T s .arrive = some t ∧ t.work < s.work := by
  obtain ⟨x, xs, hin⟩ := List.exists_cons_of_ne_nil h
  refine ⟨{ s with incoming := xs, pxi := { s.pxi with rx := s.pxi.rx ++ [x] } }, ?_, ?_⟩
  · simp only [linkStep, hin]
  · simp only [Link.work, hin, List.length_append, List.length_cons, List.length_nil]
    omega

/-- So do results that are taken. -/
private theorem drain_work (h : s.pxi.tx ≠ []) :
    ∃ t, linkStep T s .drain = some t ∧ t.work < s.work := by
  obtain ⟨x, xs, htx⟩ := List.exists_cons_of_ne_nil h
  refine ⟨{ s with host := s.host ++ [x], pxi := { s.pxi with tx := xs } }, ?_, ?_⟩
  · simp only [linkStep, htx]
  · simp only [Link.work, htx, List.length_cons]
    omega

/-- The interrupt is taken for a word that is there. -/
private theorem irq_work (hidle : s.pc = .idle) (h : s.pxi.rx ≠ []) :
    ∃ t, exec (linkStep T) s [.irq, .handler, .handler] = some t ∧ t.work < s.work := by
  obtain ⟨x, xs, hrx⟩ := List.exists_cons_of_ne_nil h
  refine ⟨{ s with
    pxi := { s.pxi with rx := xs, stale := x }
    pc := .cmd x
    msgs := s.msgs ++ [x] }, ?_, ?_⟩
  · simp [exec, linkStep, hidle, onPxiRecv, pxiRecvEmpty, hrx, pxiRecvMsg]
  · simp only [Link.work, hidle, hrx, RecvPc.rank, List.length_cons]
    omega

/-- While data is waited for, it is in the FIFO or on its way. -/
private theorem Framed.data_coming (h : Framed cmds s) (henc : ∀ c ∈ cmds, c.Encodable) {msg : U32}
    (hpc : s.pc = .dataWait msg) : s.pxi.rx ++ s.incoming ≠ [] := by
  have hsound := h.sound
  obtain ⟨todo, hcmds, hwords⟩ := h.words
  rw [hpc] at hsound hwords
  have htodo : ∀ c ∈ todo, c.Encodable := fun c hc => henc c (hcmds ▸ List.mem_append_right _ hc)
  obtain ⟨c, todo', -, -, ⟨htype, -⟩ | ⟨-, data, -, hrest⟩⟩ := next_command htodo hwords
  · exact absurd htype hsound
  · intro hnil
    rw [hnil] at hrest
    cases hrest

/-- From every state some run lessens the work, unless there is none. -/
theorem Framed.progress (h : Framed cmds s) (henc : ∀ c ∈ cmds, c.Encodable) :
    Quiet s ∨ ∃ as t, exec (linkStep T) s as = some t ∧ t.work < s.work := by
  have hone {a : LinkAction} (ha : ∃ t, linkStep T s a = some t ∧ t.work < s.work) :
      ∃ as t, exec (linkStep T) s as = some t ∧ t.work < s.work := by
    obtain ⟨t, ht, hlt⟩ := ha
    exact ⟨[a], t, exec_cons.mpr ⟨t, ht, rfl⟩, hlt⟩
  by_cases hin : s.incoming ≠ []
  · exact Or.inr (hone (arrive_work hin))
  by_cases htx : s.pxi.tx ≠ []
  · exact Or.inr (hone (drain_work htx))
  rw [not_not] at hin htx
  by_cases hidle : s.pc = .idle
  · by_cases hrx : s.pxi.rx = []
    · exact Or.inl ⟨hin, hrx, htx, hidle⟩
    · obtain ⟨t, ht, hlt⟩ := irq_work (T := T) hidle hrx
      exact Or.inr ⟨_, t, ht, hlt⟩
  · obtain ⟨t, ht⟩ := Option.isSome_iff_exists.mp (onPxiRecv_isSome (T := T) hidle)
    refine Or.inr (hone (a := .handler) ⟨t, ht, handler_work h.sound ?_ ?_ ht⟩)
    · intro data _
      rw [pxiSendFull, htx]
      rfl
    · intro msg hpc
      have hcoming := h.data_coming henc hpc
      rw [hin, List.append_nil] at hcoming
      rw [pxiRecvEmpty, Bool.eq_false_iff, Ne, List.isEmpty_iff]
      exact hcoming

end Progress

/-! ### The contract -/

/-- What the link owes the host, which has sent the words of the commands. -/
structure FramingKept (T : DevTable ω) (w₀ : Fw ω) (cmds : List PxiCmd) (s : Link ω) : Prop where
  /-- the accesses are those of the commands, in order, and each is made as a whole -/
  executed : s.served.cmds <+: cmds
  served : Reachable (serveStep T) ⟨w₀, []⟩ s.served
  /-- the words sent back are the results of the reads, in order -/
  sent : s.host ++ s.pxi.tx <+: s.served.results
  /-- the words taken for commands are the first words of the commands -/
  msgs : s.msgs <+: cmds.map PxiCmd.header
  /-- with all words consumed, all commands are executed and all results sent -/
  complete : s.incoming = [] → s.pxi.rx = [] → s.pc = .idle →
    s.served.cmds = cmds ∧ s.host ++ s.pxi.tx = s.served.results ∧
      s.msgs = cmds.map PxiCmd.header

private theorem flatMap_words_eq_nil {todo : List PxiCmd} (h : todo.flatMap PxiCmd.words = []) :
    todo = [] := by
  rcases todo with _ | ⟨_ | _, todo⟩
  · rfl
  all_goals cases h

/-- An opened command is the first of the words held. -/
private theorem RecvPc.opened_cases (pc : RecvPc) :
    pc.opened = [] ∨ ∃ msg rest, pc.opened = [msg] ∧ pc.held = msg :: rest := by
  rcases pc with _ | _ | _ | msg | _ | _ | msg | msg | ⟨msg, data⟩
  case cmd | dataWait | dataRecv | write => exact Or.inr ⟨msg, _, rfl, rfl⟩
  all_goals exact Or.inl rfl

variable {T} in
/-- What the invariant says to the host. -/
theorem Framed.kept {w₀ : Fw ω} {cmds : List PxiCmd} {s : Link ω} (h : Framed cmds s)
    (henc : ∀ c ∈ cmds, c.Encodable) (hserved : Reachable (serveStep T) ⟨w₀, []⟩ s.served) :
    FramingKept T w₀ cmds s := by
  obtain ⟨todo, hcmds, hwords⟩ := h.words
  refine ⟨⟨todo, hcmds.symm⟩, hserved, ?_, ?_, ?_⟩
  · rw [h.results, ← List.append_assoc]
    exact List.prefix_append _ _
  · rw [h.msgs, hcmds, List.map_append]
    rcases s.pc.opened_cases with hopened | ⟨msg, rest, hopened, hheld⟩
    · rw [hopened, List.append_nil]
      exact List.prefix_append _ _
    · rw [hheld] at hwords
      have htodo : ∀ c ∈ todo, c.Encodable :=
        fun c hc => henc c (hcmds ▸ List.mem_append_right _ hc)
      obtain ⟨c, todo', rfl, hheader, -⟩ := next_command htodo hwords
      rw [hopened, ← hheader, List.map_cons, List.prefix_append_right_inj]
      exact List.cons_prefix_cons.mpr ⟨rfl, List.nil_prefix⟩
  · intro hin hrx hpc
    rw [hin, hrx, hpc] at hwords
    obtain rfl := flatMap_words_eq_nil hwords
    rw [List.append_nil] at hcmds
    refine ⟨hcmds.symm, ?_, ?_⟩
    · rw [h.results, hpc]
      simp [RecvPc.unsent]
    · rw [h.msgs, hpc, hcmds]
      simp [RecvPc.opened]

/-- **Command framing.** Whatever the schedule by which words arrive and results are taken, the
commands sent are executed, and from every state some schedule leads to their completion. -/
theorem framing (T : DevTable ω) (w₀ : Fw ω) (stale : U32) (cmds : List PxiCmd)
    (henc : ∀ c ∈ cmds, c.Encodable) (as : List LinkAction) (s : Link ω)
    (hrun : exec (linkStep T) (linkBoot w₀ stale cmds) as = some s) :
    FramingKept T w₀ cmds s ∧
      ∃ bs t, exec (linkStep T) s bs = some t ∧ Quiet t ∧ t.served.cmds = cmds ∧
        t.host = t.served.results := by
  have hframed : Framed cmds s := exec_invariant (fun s a t hs ht => hs.step henc ht)
    (framed_boot w₀ stale cmds) hrun
  have hserved : Reachable (serveStep T) ⟨w₀, []⟩ s.served :=
    exec_refines (fun s a t ht => linkStep_serves T ht) hrun
  refine ⟨hframed.kept henc hserved, ?_⟩
  obtain ⟨bs, t, hbs, hquiet⟩ := exists_exec_of_measure Link.work
    (fun s a t hs ht => Framed.step hs henc ht) (fun s hs => Framed.progress hs henc) hframed
  have hserved' : Reachable (serveStep T) ⟨w₀, []⟩ t.served :=
    exec_refines (fun s a t ht => linkStep_serves T ht) (exec_append.mpr ⟨s, hrun, hbs⟩)
  have ht : Framed cmds t := exec_invariant (fun s a t hs ht => hs.step henc ht) hframed hbs
  obtain ⟨hcmds, hsent, -⟩ := (ht.kept henc hserved').complete hquiet.incoming hquiet.rx hquiet.pc
  refine ⟨bs, t, hbs, hquiet, hcmds, ?_⟩
  rw [← hsent, hquiet.tx, List.append_nil]

/-- A write and a read arrive, the data word of the write while the handler waits for it. -/
def lateData : List LinkAction :=
  [.arrive, .irq] ++ List.replicate 4 .handler ++ [.arrive, .arrive] ++
    List.replicate 9 .handler ++ [.drain]

/-- The status of the block device is written and read back; the data word would decode as a
write itself. -/
theorem framing_status :
    ∃ s, exec (linkStep (deviceTable zeroEnv (some 0) 0))
        (linkBoot (virtDevInitAll (deviceTable zeroEnv (some 0) 0) powerOn) 0
          [.writeReg 1 8 0x80000001, .readReg 1 8]) lateData = some s ∧
      s.host = [1] ∧ FramingKept (deviceTable zeroEnv (some 0) 0)
        (virtDevInitAll (deviceTable zeroEnv (some 0) 0) powerOn)
          [.writeReg 1 8 0x80000001, .readReg 1 8] s := by
  have henc : ∀ c ∈ [PxiCmd.writeReg 1 8 0x80000001, .readReg 1 8], c.Encodable := by
    intro c hc
    simp only [List.mem_cons, List.not_mem_nil, or_false] at hc
    rcases hc with rfl | rfl <;> exact ⟨by decide, by decide⟩
  have hhost : (exec (linkStep (deviceTable zeroEnv (some 0) 0))
      (linkBoot (virtDevInitAll (deviceTable zeroEnv (some 0) 0) powerOn) 0
        [.writeReg 1 8 0x80000001, .readReg 1 8]) lateData).map Link.host = some [1] := by
    decide
  obtain ⟨s, hs, hhost⟩ := Option.map_eq_some_iff.mp hhost
  exact ⟨s, hs, hhost, (framing _ _ 0 _ henc _ s hs).1⟩

end Arm9LinuxFw
