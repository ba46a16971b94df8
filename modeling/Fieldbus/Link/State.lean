import Fieldbus.Backoff
import Fieldbus.Fault
import Fieldbus.Log.Record

/-!
# Link states

A link is up or down, spaces the attempts to make it, counts what goes over it,
and keeps the frames of the last exchange.  That is the same for links of every
kind, so their counters and their spacing are these.

An error is counted once, whether the exchange failed or its response was
refused.
-/

namespace Fieldbus

/-! ## Counters -/

/-- What went over a link.  The counters have 64 bits and grow by one, or by the bytes of a frame,
so no link lasts long enough to exhaust them. -/
structure LinkStats where
  requests : Nat := 0
  responses : Nat := 0
  /-- Errors, timeouts included. -/
  errors : Nat := 0
  timeouts : Nat := 0
  /-- Attempts that made the link. -/
  connects : Nat := 0
  /-- Attempts that did not. -/
  connectFailures : Nat := 0
  bytesSent : Nat := 0
  bytesReceived : Nat := 0
deriving DecidableEq, Repr

/-- The counters after an error. -/
def LinkStats.blame (s : LinkStats) (fault : Fault) : LinkStats :=
  { s with errors := s.errors + 1, timeouts := s.timeouts + if fault.isTimeout then 1 else 0 }

/-! ## States -/

/-- What every link keeps. -/
structure LinkState where
  isUp : Bool := false
  /-- The spacing of attempts to make it. -/
  reconnect : Reconnect
  stats : LinkStats := {}
  /-- The frames of the last exchange. -/
  frames : Log.Frames := {}
deriving DecidableEq, Repr

/-- Whether an attempt to make a link is to be made. -/
inductive Gate where
  | up
  /-- Attempts are held back for a while. -/
  | held (remaining : Nanos)
  /-- The link is down and an attempt is allowed. -/
  | free
deriving DecidableEq, Repr

namespace LinkState

/-- A link that is down, with a first and a greatest pause between attempts. -/
def down (initial max : Nanos) : LinkState := { reconnect := { initial, max } }

/-- Whether an attempt is to be made at a time. -/
def gate (s : LinkState) (now : Nanos) : Gate :=
  if s.isUp then .up
  else
    match s.reconnect.remaining? now with
    | some remaining => .held remaining
    | none => .free

def made (s : LinkState) : LinkState :=
  { s with
    isUp := true
    reconnect := s.reconnect.succeeded
    stats := { s.stats with connects := s.stats.connects + 1 } }

/-- After an attempt has failed. -/
def missed (s : LinkState) (now : Nanos) : LinkState :=
  { s with
    reconnect := s.reconnect.failed now
    stats := { s.stats with connectFailures := s.stats.connectFailures + 1 } }

def begun (s : LinkState) (frame : List UInt8) : LinkState :=
  { s with
    frames := ⟨frame, []⟩
    stats := { s.stats with
      requests := s.stats.requests + 1
      bytesSent := s.stats.bytesSent + frame.length } }

def answered (s : LinkState) (response : List UInt8) : LinkState :=
  { s with
    frames := { s.frames with response }
    stats := { s.stats with
      responses := s.stats.responses + 1
      bytesReceived := s.stats.bytesReceived + response.length } }

def blamed (s : LinkState) (fault : Fault) : LinkState := { s with stats := s.stats.blame fault }

/-- After the link is taken down. -/
def dropped (s : LinkState) : LinkState := { s with isUp := false }

end LinkState

/-- The fault of a call that is held back. -/
def Fault.held (remaining : Nanos) : Fault := .backoff (wholeMillis remaining)

end Fieldbus
