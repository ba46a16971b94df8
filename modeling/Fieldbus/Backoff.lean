import Fieldbus.Binary.Binary64
import Fieldbus.Time

/-!
# Backoff

Two machines stretch a pause while something keeps failing.  `Reconnect` spaces
the attempts to make a link, and `CycleBackoff` the poll cycles of a channel.
Both grow a base duration by a power of a multiplier, up to a cap.

The growth is written over a class of numbers, `DelayNumber`.  Doubles run, and
the rational numbers are the same machine with exact products.
-/

namespace Fieldbus

/-! ## Growth -/

/-- Numbers that durations are stretched with. -/
class DelayNumber (α : Type) where
  /-- A whole number. -/
  ofNat : Nat → α
  mul : α → α → α
  /-- The number, or one if it is smaller or no number. -/
  atLeastOne : α → α
  /-- The nearest whole number, halves up, if it is below a bound. -/
  nearestBelow? : α → Nat → Option Nat

/-- The greatest duration in nanoseconds. -/
def maxNanos : Nat := 1 <<< 64 - 1

instance : DelayNumber Binary64 where
  ofNat := Binary64.ofNat
  mul := Binary64.mul
  atLeastOne x := x.max .one
  nearestBelow? x bound :=
    let nearest := x.round
    if nearest.isFinite && nearest.lt (.ofNat bound) then some nearest.truncate.toNat else none

instance : DelayNumber Rat where
  ofNat n := n
  mul x y := x * y
  atLeastOne x := if x < 1 then 1 else x
  nearestBelow? x bound :=
    let nearest := (x + 1 / 2).floor.toNat
    if nearest < bound then some nearest else none

section Growth

variable {α : Type} [DelayNumber α]

/-- `acc · x ^ n` by repeated squaring, where `n` has at most `k` binary digits. -/
def powerAux (x acc : α) : (k n : Nat) → α
  | 0, _ => acc
  | k + 1, n =>
    let acc := if n % 2 = 1 then DelayNumber.mul acc x else acc
    if n / 2 = 0 then acc else powerAux (DelayNumber.mul x x) acc k (n / 2)

/-- The power with a natural exponent, by repeated squaring from the lowest binary digit. -/
def power (x : α) (n : Nat) : α := powerAux x (DelayNumber.ofNat 1) (n.log2 + 1) n

/-- A base duration grown by `multiplier ^ steps`, up to a cap.  Beyond 64 steps it no
longer grows. -/
def stretched (base : Nanos) (multiplier : α) (steps : Nat) (cap : Nanos) : Nanos :=
  let factor := power (DelayNumber.atLeastOne multiplier) (min steps 64)
  match DelayNumber.nearestBelow? (DelayNumber.mul (DelayNumber.ofNat base) factor) cap with
  | some nanos => min nanos maxNanos
  | none => cap

end Growth

/-- The greatest number of failures that is counted. -/
def maxFailures : Nat := 1 <<< 32 - 1

/-! ## Spacing of connects -/

/-- Attempts to make a link, each pause twice as long as the one before. -/
structure Reconnect where
  /-- The pause after the first failure. -/
  initial : Nanos
  /-- The greatest pause. -/
  max : Nanos
  /-- Failures since the last success. -/
  failures : Nat := 0
  /-- When the next attempt is allowed, after a failure. -/
  nextAttempt : Option Nanos := none
deriving DecidableEq, Repr

namespace Reconnect

/-- The time until an attempt is allowed, if it is not allowed now. -/
def remaining? (r : Reconnect) (now : Nanos) : Option Nanos :=
  (r.nextAttempt.filter fun at' => now < at').map fun at' => at' - now

/-- The pause after the next failure, with products taken in `α`. -/
def pause (α : Type) [DelayNumber α] (r : Reconnect) : Nanos :=
  stretched r.initial (DelayNumber.ofNat 2 : α) r.failures r.max

/-- After a failed attempt, with products taken in `α`. -/
def failedIn (α : Type) [DelayNumber α] (r : Reconnect) (now : Nanos) : Reconnect :=
  { r with
    failures := min (r.failures + 1) maxFailures
    nextAttempt := some (now + r.pause α) }

def failed (r : Reconnect) (now : Nanos) : Reconnect := r.failedIn Binary64 now

/-- After an attempt that made the link. -/
def succeeded (r : Reconnect) : Reconnect := { r with failures := 0, nextAttempt := none }

end Reconnect

/-! ## Spacing of cycles -/

/-- How a poll cycle went. -/
inductive CycleOutcome where
  /-- Every batch was read. -/
  | allSucceeded
  /-- Some batches failed. -/
  | partly
  /-- Every batch failed, or there was no link. -/
  | allFailed
deriving DecidableEq, Repr

/-- The interval of a poll cycle, stretched while cycles fail as a whole. -/
structure CycleBackoff (α : Type) where
  /-- The interval without failures. -/
  normal : Nanos
  /-- The growth with each failed cycle. -/
  multiplier : α
  /-- The greatest interval. -/
  cap : Nanos
  /-- Failed cycles since the last fully successful one. -/
  failedCycles : Nat := 0
deriving Repr

namespace CycleBackoff

variable {α : Type} [DelayNumber α]

/-- A machine without failures.  The cap is not below the normal interval. -/
def start (normal : Nanos) (multiplier : α) (cap : Nanos) : CycleBackoff α :=
  { normal, multiplier, cap := max cap normal }

/-- The time from one cycle's start to the next one's. -/
def interval (b : CycleBackoff α) : Nanos :=
  if b.failedCycles = 0 then b.normal
  else stretched b.normal b.multiplier b.failedCycles b.cap

/-- Whether the interval is stretched. -/
def isBackingOff (b : CycleBackoff α) : Bool := 0 < b.failedCycles

/-- After a cycle.  A partly successful cycle changes nothing. -/
def onCycle (b : CycleBackoff α) : CycleOutcome → CycleBackoff α
  | .allSucceeded => { b with failedCycles := 0 }
  | .allFailed => { b with failedCycles := min (b.failedCycles + 1) maxFailures }
  | .partly => b

end CycleBackoff

end Fieldbus
