import Fieldbus.Backoff

/-!
# What a poll loop shows

A poll loop publishes the state of its channel and a report after each cycle.
A channel that backs off or has stopped takes no commands.
-/

namespace Fieldbus

/-! ## States -/

inductive ChannelState where
  /-- Not polled yet. -/
  | idle
  /-- The link is being made. -/
  | connecting
  | polling
  /-- Polled at a stretched interval, since every batch of the last cycles failed. -/
  | backoff
  /-- No longer polled. -/
  | stopped
deriving DecidableEq, Repr, Inhabited

namespace ChannelState

def name : ChannelState → String
  | idle => "idle"
  | connecting => "connecting"
  | polling => "polling"
  | backoff => "backoff"
  | stopped => "stopped"

def all : List ChannelState := [idle, connecting, polling, backoff, stopped]

def ofName? (name : String) : Option ChannelState := all.find? fun state => state.name = name

def rejectsCommands : ChannelState → Bool
  | backoff | stopped => true
  | _ => false

end ChannelState

/-! ## Reports -/

/-- What a poll cycle did. -/
structure CycleReport where
  /-- The number of the cycle, from one. -/
  cycle : Nat
  succeeded : Nat
  failed : Nat
  points : Nat
  duration : Nanos
  /-- The time from the start of the cycle to the start of the next one. -/
  interval : Nanos
deriving DecidableEq, Repr

/-- How a cycle went, by its counts of batches. -/
def CycleOutcome.ofCounts (succeeded failed : Nat) : CycleOutcome :=
  if failed = 0 then .allSucceeded else if succeeded = 0 then .allFailed else .partly

def CycleReport.outcome (r : CycleReport) : CycleOutcome := .ofCounts r.succeeded r.failed

end Fieldbus
