import Prysm.Primitives

/-!
# Slots and the clock

The functions of the `slots` package that relate slots to epochs and to points of time.
-/

namespace Prysm

/-- A point of time, as the number of nanoseconds since an instant before all those that occur. -/
abbrev Time := ℕ

/-- `time.Second`. -/
def second : ℕ := 10 ^ 9

variable (config : BeaconChainConfig)

/-- `slots.EpochStart`. -/
def epochStart (epoch : Epoch) : Except Fault Slot :=
  if config.slotsPerEpoch * epoch < 2 ^ 64 then
    .ok (config.slotsPerEpoch * epoch)
  else
    .error (.error (.errorf "start slot calculation overflows: %v"
      [.text "multiplication overflows"]))

/-- `slots.IsEpochStart`. -/
def isEpochStart (slot : Slot) : Bool :=
  slot % config.slotsPerEpoch == 0

/-- `slots.SinceEpochStarts`. -/
def sinceEpochStarts (slot : Slot) : Slot :=
  slot % config.slotsPerEpoch

/-- `slots.At`.  `time.Time.Sub` saturates at the greatest duration, `2 ^ 63 - 1` nanoseconds. -/
def slotAt (genesis tm : Time) : Slot :=
  if tm < genesis then 0
  else min (tm - genesis) (2 ^ 63 - 1) / second / config.secondsPerSlot

/-- `slots.SinceSlotStart`.  The product wraps around only for slots that `slotAt` never gives. -/
def sinceSlotStart (slot : Slot) (genesis timestamp : Time) : Except Fault ℕ :=
  let limit := genesis + slot * config.secondsPerSlot * second
  if timestamp < limit then
    .error (.error (.errorf ("could not compute seconds since slot %d start: invalid timestamp, " ++
      "got %s < want %s") [.number slot, .number timestamp, .number limit]))
  else
    .ok (timestamp - limit)

theorem sinceSlotStart_error {config : BeaconChainConfig} {slot : Slot} {genesis timestamp : Time}
    {fault : Fault} (hfault : sinceSlotStart config slot genesis timestamp = .error fault) :
    ∃ err, fault = .error err := by
  unfold sinceSlotStart at hfault
  by_cases hearly : timestamp < genesis + slot * config.secondsPerSlot * second
  · rw [if_pos hearly] at hfault
    exact ⟨_, (Except.error.inj hfault).symm⟩
  · rw [if_neg hearly] at hfault
    simp at hfault

end Prysm
