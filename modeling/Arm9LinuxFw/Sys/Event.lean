import Arm9LinuxFw.Common

/-!
# Events

`sys/event.h`: a one-byte flag that a trigger sets and a test reads and clears in one swap. A
trigger that comes before a test is seen by that test and by no other; two of them are seen
as one.
-/

namespace Arm9LinuxFw

/-- `event_t`. -/
abbrev EventT := U8

/-- `eventInitialize`. -/
def eventInitialize : EventT := 0

/-- `eventTrigger`. -/
def eventTrigger : EventT := 1

/-- `eventTest`: the old flag, tested against zero, and the cleared flag. -/
def eventTest (ev : EventT) : Bool × EventT := (ev ≠ 0, 0)

end Arm9LinuxFw
