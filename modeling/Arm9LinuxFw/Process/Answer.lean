import Arm9LinuxFw.Lib.Blocks
import Arm9LinuxFw.Process.Loop

/-!
# What a device answers

A device leaves in a buffer what its hardware gives it: random words, sectors of the card, or the
status byte.

* `Delivery` is what the answer depends on: the descriptor, how far the hardware has got, and the
  sector that the block device is at.
* `Vdev.answer` are the bytes, as a list; `Vdev.draws` how far the hardware gets by them, and
  `Vdev.nextSector` where the block device is afterwards. A readable buffer is not answered; the
  block device finds its next sector in it.
* `descStep_answer` says that a round of the inner loop leaves exactly the answer, from the
  start of the buffer on, and nothing else: with it, what a device does to memory is known byte by
  byte, where `BodySpec` only bounds it.
* `deliveries` follows a chain of descriptors through memory as it is answered, so that the
  answers to a chain are a function of its descriptors and the memory at its start.
-/

namespace Arm9LinuxFw

open ByteMem

/-! ### Answers -/

/-- The words of a run of draws. -/
def Env.words (env : Env) (tick n : ℕ) : List U32 := (List.range n).map fun i => env.hot (tick + i)

@[simp]
theorem Env.length_words (env : Env) (tick n : ℕ) : (env.words tick n).length = n := by
  rw [words, List.length_map, List.length_range]

private theorem Env.words_succ (env : Env) (tick n : ℕ) :
    env.words tick (n + 1) = env.words tick n ++ [env.hot (tick + n)] := by
  rw [words, List.range_succ, List.map_append, List.map_singleton, words]

/-- Filling a buffer draws one word after the other. -/
private theorem hwrngFill_eq (env : Env) (data : U32) (c : Ctx) (n : ℕ) :
    (hwrngFill env data n c).mem = c.mem.writeBytes data (wordBytes (env.words c.tick n)) ∧
      (hwrngFill env data n c).tick = c.tick + n := by
  induction n with
  | zero => exact ⟨rfl, rfl⟩
  | succ n ih =>
    obtain ⟨hmem, htick⟩ := ih
    have hlast : wordBytes [env.hot (c.tick + n)] = leBytes (env.hot (c.tick + n)) :=
      List.append_nil _
    rw [env.words_succ, wordBytes_append, hlast, Mem.writeBytes_append, length_wordBytes,
      env.length_words]
    simp only [hwrngFill, hmem, htick, Mem.write32_eq_writeBytes, Nat.add_assoc, and_self]

/-- What a device goes by when it works on a descriptor: the descriptor, the number of the next
answer of the hardware, and the current sector. -/
structure Delivery where
  desc : VirtDesc
  tick : ℕ
  sector : U32

/-- What it leaves in the buffer. -/
def Vdev.answer (dev : Vdev) (env : Env) (d : Delivery) : List U8 :=
  match dev with
  | .hwrngDevice =>
      if d.desc.dir = HOST_TO_VDEV then []
      else wordBytes (env.words d.tick (d.desc.length / 4).toNat)
  | .sdmcDevice =>
      if d.desc.dir = HOST_TO_VDEV then []
      else if d.desc.length < 512 then [0]
      else (env.card d.tick d.sector (d.desc.length >>> 9) d.desc.data).bytes

/-- How many answers of the hardware that takes. -/
def Vdev.draws (dev : Vdev) (desc : VirtDesc) : ℕ :=
  match dev with
  | .hwrngDevice => if desc.dir = HOST_TO_VDEV then 0 else (desc.length / 4).toNat
  | .sdmcDevice => if desc.dir = HOST_TO_VDEV ∨ desc.length < 512 then 0 else 1

/-- The sector it is at afterwards. -/
def Vdev.nextSector (dev : Vdev) (m : Mem) (d : Delivery) : U32 :=
  match dev with
  | .hwrngDevice => d.sector
  | .sdmcDevice =>
      if d.desc.dir = HOST_TO_VDEV then (vblkSectorOffset m d.desc.data).setWidth 32
      else if d.desc.length < 512 then d.sector
      else d.sector + d.desc.length >>> 9

variable {dev : Vdev} {env : Env}

/-! ### A round of the inner loop -/

/-- What the device goes by in a round. -/
def delivery (env : Env) (vjob : VirtJob) (c : Ctx) : Delivery where
  desc := jobDesc env vjob c
  tick := c.tick + 1
  sector := c.vq.priv

/-- What the device specific part leaves. -/
private theorem Vdev.body_answer (dev : Vdev) (env : Env) (d : Delivery) (vjob : VirtJob) (c : Ctx)
    (htick : c.tick = d.tick) (hsector : c.vq.priv = d.sector) :
    (dev.body env d.desc (vjob, c)).2.mem = c.mem.writeBytes d.desc.data (dev.answer env d) ∧
      (dev.body env d.desc (vjob, c)).2.tick = d.tick + dev.draws d.desc ∧
      (dev.body env d.desc (vjob, c)).2.vq.priv = dev.nextSector c.mem d := by
  cases dev with
  | hwrngDevice =>
    obtain ⟨hmem, hdrawn⟩ := hwrngFill_eq env d.desc.data c (d.desc.length / 4).toNat
    simp only [body, hwrngBody, answer, draws, nextSector]
    split_ifs with hdir
    · exact ⟨rfl, htick, hsector⟩
    · simp only [hwrngFill_vq, hmem, hdrawn, htick]
      exact ⟨trivial, trivial, hsector⟩
  | sdmcDevice =>
    simp only [body, sdmcBody, answer, draws, nextSector]
    by_cases hdir : d.desc.dir = HOST_TO_VDEV
    · rw [if_pos hdir, if_pos hdir, if_pos (Or.inl hdir), if_pos hdir]
      exact ⟨rfl, htick, rfl⟩
    rw [if_neg hdir, if_neg hdir, if_neg hdir]
    by_cases hlt : d.desc.length < 512
    · rw [if_pos hlt, if_pos hlt, if_pos (Or.inr hlt), if_pos hlt]
      exact ⟨rfl, htick, hsector⟩
    · rw [if_neg hlt, if_neg hlt, if_neg (not_or.mpr ⟨hdir, hlt⟩), if_neg hlt]
      simp only [sdmmcSdcardReadsectors, htick, hsector, and_self]

/-- **A round of the inner loop** leaves the answer in the buffer and draws as many words as it has.
-/
theorem descStep_answer (dev : Vdev) (env : Env) (vjob : VirtJob) (c : Ctx) :
    (descStep dev.body env vjob c).2.mem = c.mem.writeBytes (delivery env vjob c).desc.data
        (dev.answer env (delivery env vjob c)) ∧
      (descStep dev.body env vjob c).2.tick =
        (delivery env vjob c).tick + dev.draws (delivery env vjob c).desc ∧
      (descStep dev.body env vjob c).2.vq.priv = dev.nextSector c.mem (delivery env vjob c) := by
  rw [descStep_eq]
  exact dev.body_answer env (delivery env vjob c) vjob (bodyCtx vjob c) rfl rfl

/-! ### A chain of descriptors -/

/-- What a device goes by at each descriptor of a chain, from a state of memory, of the hardware and
of the current sector on: each answer is stored before the next descriptor is looked at. -/
def deliveries (dev : Vdev) (env : Env) : Mem → ℕ → U32 → List VirtDesc → List Delivery
  | _, _, _, [] => []
  | m, tick, sector, desc :: ds =>
      let d : Delivery := ⟨desc, tick + 1, sector⟩
      d :: deliveries dev env (m.writeBytes desc.data (dev.answer env d))
        (d.tick + dev.draws desc) (dev.nextSector m d) ds

end Arm9LinuxFw
