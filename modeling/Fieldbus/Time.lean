/-!
# Durations

Durations and instants are natural numbers of nanoseconds.  Limits are configured
in milliseconds and shown in whole milliseconds.
-/

namespace Fieldbus

/-- A duration, or an instant on a clock that starts at zero, in nanoseconds. -/
abbrev Nanos := Nat

/-- Milliseconds as a duration. -/
def millis (n : Nat) : Nanos := n * 1000000

def seconds (n : Nat) : Nanos := n * 1000000000

/-- The whole milliseconds of a duration. -/
def wholeMillis (d : Nanos) : Nat := d / 1000000

/-- Milliseconds survive the way through a duration. -/
@[simp] theorem wholeMillis_millis (n : Nat) : wholeMillis (millis n) = n := by
  simp [wholeMillis, millis]

end Fieldbus
