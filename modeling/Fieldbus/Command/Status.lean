import Fieldbus.Calendar
import Fieldbus.Poll.State
import Fieldbus.Fault

/-!
# Commands and their outcomes

A command asks for one value to be written to one point.  It is queued, it may be
in flight, and it ends acknowledged, failed or timed out.  An ended command never
changes again.
-/

namespace Fieldbus

/-- A value to be written to a point. -/
structure Command where
  channel : UInt16
  point : UInt32
  /-- The value on the device, before the point's transform. -/
  value : Binary64
  /-- The id under which the submitter follows the command. -/
  id : String
deriving DecidableEq, Repr

/-- Why a command failed. -/
inductive CommandFault where
  | unknownChannel (channel : UInt16)
  | unknownPoint (point : UInt32) (channel : UInt16)
  | notWritable (point : UInt32)
  /-- The channel takes no commands now. -/
  | rejected (channel : UInt16) (state : ChannelState)
  /-- The value has no register form. -/
  | encoding (fault : Fault)
  | exchange (fault : Fault)
  /-- Nobody executes commands any more. -/
  | executorStopped
deriving DecidableEq, Repr

def CommandFault.message : CommandFault → String
  | unknownChannel channel => s!"unknown channel {channel}"
  | unknownPoint point channel => s!"unknown point {point} on channel {channel}"
  | notWritable point => s!"point {point} is not writable"
  | rejected channel state => s!"channel {channel} is in {state.name}"
  | encoding fault => fault.message
  | exchange fault => fault.message
  | executorStopped => "command executor stopped"

/-- How far a command has come. -/
inductive CommandStatus where
  /-- Waiting to be executed. -/
  | queued
  /-- On its way to the device. -/
  | inFlight
  /-- Confirmed by the device. -/
  | acknowledged
  /-- Ended without effect, or without knowledge of one. -/
  | failed (cause : CommandFault)
  | timedOut (fault : Fault)
deriving DecidableEq, Repr

namespace CommandStatus

def name : CommandStatus → String
  | queued => "queued"
  | inFlight => "in_flight"
  | acknowledged => "acknowledged"
  | failed _ => "failed"
  | timedOut _ => "timed_out"

def isTerminal : CommandStatus → Bool
  | acknowledged | failed _ | timedOut _ => true
  | queued | inFlight => false

/-- What the submitter is told besides the status. -/
def message? : CommandStatus → Option String
  | failed cause => some cause.message
  | timedOut fault => some fault.message
  | _ => none

end CommandStatus

/-- The outcome of a command as its submitter sees it. -/
structure Outcome where
  command : String
  status : CommandStatus
  completedAt : Option Instant := none
deriving DecidableEq, Repr

end Fieldbus
