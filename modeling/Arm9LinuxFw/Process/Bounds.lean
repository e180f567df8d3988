import Arm9LinuxFw.Process.Visits

/-!
# Which descriptors and buffers processing touches

`virtQueueGetDesc` refuses an index outside the descriptor table; nothing else does. The two
loops go on after a refusal: they decide on the fields it left unset, and
`virtQueueFetchAvailNext` loads the entry anyway. So whether a run over arbitrary guest data is
safe depends on the indices that the available ring and the links of the table lead to.

* **A safe step** (`StepSafe`) loads table entries below `N` only; a buffer access goes through
  the entry that was loaded in the same step, which the links lead to from the head fetched last,
  as the table was at the call; and a refused index leads to no decision on unset fields. How far
  into a buffer an access may reach is a parameter: as far as the device goes (`Vdev.reach`), or
  to the end of the buffer (`lengthReach`).
* **Sufficient, for all guest data**: if every entry visited is below `N` and the rings are apart
  from the buffers (`Guarded`), every step of every run is safe.
* **Exact, as long as what the loops read stays as it was** (`Held`): all steps are safe if and
  only if every entry visited is below `N`. To keep within the lengths of the buffers as well, the
  block device must meet neither a header shorter than 16 bytes nor an empty writable buffer.

Both are `prQueue_stepSafe_iff`; `Visited` is a condition on the available ring and the links in
the table alone.
-/

namespace Arm9LinuxFw

open ByteMem

/-- An access to a data buffer. -/
def Event.IsBuffer : Event → Prop
  | .load _ _ | .store _ _ | .readsectors _ _ _ _ => True
  | .desc _ | .fetched _ | .pushed _ _ => False

/-- How far into a buffer an access may reach: the bytes loaded of a readable one and the bytes
stored to a writable one. -/
abbrev Reach := VirtDesc → ℕ × ℕ

/-- An access starts at the buffer and reaches as far as the device goes. -/
def Vdev.reach (dev : Vdev) : Reach := fun desc => (dev.readReach desc, dev.writeReach desc)

/-- The index the loops are at is inside the descriptor table. -/
def InTable (s : Config) : Prop := s.vjob.currentDesc ≤ s.ctx.vq.sizeMask

/-- The events that the step from `s` records. -/
def stepEvents (dev : Vdev) (env : Env) (vdevId : U32) (s : Config) : List Event :=
  (dev.prQueue env vdevId s).ctx.log.drop s.ctx.log.length

/-- A safe step of the run called with `c₀`, with buffer accesses reaching no further than
`reach`. -/
structure StepSafe (reach : Reach) (dev : Vdev) (env : Env) (vdevId : U32) (c₀ : Ctx) (s : Config) :
    Prop where
  /-- the descriptor table is accessed at its own entries only -/
  table : ∀ i, .desc i ∈ stepEvents dev env vdevId s → i.toNat < c₀.vq.size
  /-- a buffer access goes through an entry that was loaded in the same step, of the chain of the
  head fetched last -/
  buffer : ∀ e ∈ stepEvents dev env vdevId s, e.IsBuffer → ∃ head i,
    Fetched head s.ctx.log ∧ Leads c₀.mem c₀.vq.qDesc head i ∧
      .desc i ∈ stepEvents dev env vdevId s ∧
      e.Through (tableEntry c₀.mem c₀.vq.qDesc i).desc
        (reach (tableEntry c₀.mem c₀.vq.qDesc i).desc).1
        (reach (tableEntry c₀.mem c₀.vq.qDesc i).desc).2
  /-- an index refused by `virtQueueGetDesc` leads to no decision on the fields left unset:
  whatever they hold, the step is the same -/
  refused : s.pc = .body → ¬ InTable s → ∀ junk,
    dev.prQueue { env with junk := junk } vdevId s = dev.prQueue env vdevId s

variable {dev : Vdev} {env : Env} {vdevId : U32} {reach : Reach} {c₀ : Ctx}

private theorem stepEvents_eq {s : Config} {es : List Event}
    (h : (dev.prQueue env vdevId s).ctx.log = s.ctx.log ++ es) :
    stepEvents dev env vdevId s = es := by
  rw [stepEvents, h, List.drop_left]

/-- The reach of the device specific part on a descriptor is no more than allowed. -/
def Fits (dev : Vdev) (reach : Reach) (desc : VirtDesc) : Prop :=
  (desc.dir = HOST_TO_VDEV → dev.readReach desc ≤ (reach desc).1) ∧
    (desc.dir ≠ HOST_TO_VDEV → dev.writeReach desc ≤ (reach desc).2)

/-- An access within the reach of a device is within any reach the buffer fits. -/
theorem Event.Through.mono {desc : VirtDesc} {e : Event}
    (h : e.Through desc (dev.readReach desc) (dev.writeReach desc)) (hfits : Fits dev reach desc) :
    e.Through desc (reach desc).1 (reach desc).2 := by
  rcases e with _ | _ | _ | _ | _ | _
  case desc | fetched | pushed => exact h.elim
  case load => exact ⟨h.1, h.2.trans (span_mono (hfits.1 h.1))⟩
  all_goals exact ⟨h.1, h.2.trans (span_mono (hfits.2 h.1))⟩

/-- A round of the inner loop at an entry of the table: the events it records are the load of
the entry, and what the device does through it. -/
theorem exists_body_events (dev : Vdev) (env : Env) (vdevId : U32) {vjob : VirtJob} {c : Ctx}
    (h : Tracks c₀ ⟨.body, vjob, c⟩) (hheld : Held c₀ ⟨.body, vjob, c⟩)
    (hin : InTable ⟨.body, vjob, c⟩) :
    ∃ es, stepEvents dev env vdevId ⟨.body, vjob, c⟩ = .desc vjob.currentDesc :: es ∧
      BodySpec dev (tableEntry c₀.mem c₀.vq.qDesc vjob.currentDesc).desc vjob (bodyCtx vjob c)
        (descStep dev.body env vjob c).1 (descStep dev.body env vjob c).2 es := by
  obtain ⟨es, hspec⟩ := descStep_spec dev env vjob c
  have hget : getEvents vjob c = [.desc vjob.currentDesc] := if_pos hin
  rw [h.jobDesc hheld hin] at hspec
  refine ⟨es, stepEvents_eq ?_, hspec⟩
  rw [prQueue_body, hspec.log, bodyCtx, hget, List.append_assoc]
  rfl

/-- In a safe round a buffer access goes through the entry that the round is at. -/
theorem StepSafe.through {vjob : VirtJob} {c : Ctx} (h : Tracks c₀ ⟨.body, vjob, c⟩)
    (hheld : Held c₀ ⟨.body, vjob, c⟩) (hin : InTable ⟨.body, vjob, c⟩)
    (hsafe : StepSafe reach dev env vdevId c₀ ⟨.body, vjob, c⟩) {e : Event}
    (he : e ∈ stepEvents dev env vdevId ⟨.body, vjob, c⟩) (hbuf : e.IsBuffer) :
    e.Through (tableEntry c₀.mem c₀.vq.qDesc vjob.currentDesc).desc
      (reach (tableEntry c₀.mem c₀.vq.qDesc vjob.currentDesc).desc).1
      (reach (tableEntry c₀.mem c₀.vq.qDesc vjob.currentDesc).desc).2 := by
  obtain ⟨es, hevents, hspec⟩ := exists_body_events dev env vdevId h hheld hin
  obtain ⟨head, i, -, -, hi, hthrough⟩ := hsafe.buffer e he hbuf
  rw [hevents, List.mem_cons] at hi
  rcases hi with hi | hi
  · rwa [Event.desc.inj hi] at hthrough
  · exact (hspec.through _ hi).elim

end Arm9LinuxFw
