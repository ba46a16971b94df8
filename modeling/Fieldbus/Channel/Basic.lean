import Fieldbus.Channel.Limits
import Fieldbus.Channel.Point

/-!
# Channels

A channel is one path to devices: a network connection or a serial line, its
timing, its limits and policies, and its points.

Two channels that differ in their points only can share a running poll loop,
which then takes a new plan.  Any other difference needs a new one.
-/

namespace Fieldbus

/-! ## Links -/

/-- The parity bit of a serial character. -/
inductive Parity where
  | none
  /-- An odd number of ones. -/
  | odd
  /-- An even number of ones. -/
  | even
deriving DecidableEq, Repr, Inhabited

namespace Parity

def name : Parity → String
  | none => "none"
  | odd => "odd"
  | even => "even"

def all : List Parity := [none, odd, even]

def ofName? (name : String) : Option Parity := all.find? fun parity => parity.name = name

end Parity

/-- Where a channel's devices are reached. -/
inductive Medium where
  /-- A host and a port on a network. -/
  | tcp (host : String) (port : UInt16)
  /-- A serial device and its character format. -/
  | rtu (device : String) (baud : UInt32) (dataBits stopBits : UInt8) (parity : Parity)
deriving DecidableEq, Repr

namespace Medium

def kind : Medium → String
  | tcp .. => "tcp"
  | rtu .. => "rtu"

def url : Medium → String
  | tcp host port => s!"tcp://{host}:{port}"
  | rtu device baud _ _ _ => s!"rtu://{device}@{baud}"

end Medium

/-! ## Policies -/

/-- How much of an exchange is logged. -/
inductive LogLevel where
  /-- Outcome, latency and payloads. -/
  | debug
  | info
deriving DecidableEq, Repr, Inhabited

namespace LogLevel

def name : LogLevel → String
  | debug => "debug"
  | info => "info"

def all : List LogLevel := [debug, info]

def ofName? (name : String) : Option LogLevel := all.find? fun level => level.name = name

end LogLevel

/-- How the message log of a channel is kept. -/
structure LogPolicy where
  level : LogLevel := .info
  /-- Segments of older days are deleted. -/
  retentionDays : Nat := 30
  /-- The size above which a segment is closed. -/
  maxSegmentBytes : Nat := 52428800
  /-- Segments of this age and older are compressed, or none are. -/
  compressAfterDays : Option Nat := some 1
deriving DecidableEq, Repr

/-- How failures are met: retries of a batch, backoff of the cycle, and backoff of the
link. -/
structure RetryPolicy where
  /-- Tries of one batch, the first included. -/
  attempts : Nat := 3
  /-- The pause between two tries. -/
  delay : Nanos := millis 100
  /-- The growth of the cycle's interval with each failed cycle. -/
  multiplier : Binary64 := Binary64.ofNat 2
  /-- The greatest interval of a cycle. -/
  cap : Nanos := millis 60000
  /-- The pause after the first failed connect. -/
  reconnectInitial : Nanos := millis 500
  /-- The greatest pause between connects. -/
  reconnectMax : Nanos := millis 30000
deriving DecidableEq, Repr

/-- Equality of policies, with the numbers compared as numbers. -/
def RetryPolicy.agrees (p q : RetryPolicy) : Bool :=
  decide ({ p with multiplier := q.multiplier } = q) && p.multiplier.eq q.multiplier

/-! ## Channels -/

/-- One path to devices with its points. -/
structure Channel where
  /-- The id, unique in an engine. -/
  id : UInt16
  /-- A name for people. -/
  name : String
  medium : Medium
  interval : Nanos := millis 1000
  /-- The time a response may take. -/
  timeout : Nanos := millis 1000
  /-- The time a connect may take. -/
  connectTimeout : Nanos := millis 3000
  limits : Limits := {}
  retry : RetryPolicy := {}
  log : LogPolicy := {}
  /-- The points, in configured order. -/
  points : List Point := []
deriving Repr

namespace Channel

/-- The point with an id.  Of several the last one counts. -/
def point? (c : Channel) (id : UInt32) : Option Point := c.points.findRev? fun p => p.id = id

/-- Whether two channels differ in nothing but their points. -/
def sameRuntime (c d : Channel) : Bool :=
  c.id == d.id && c.name == d.name && c.medium == d.medium && c.interval == d.interval &&
    c.timeout == d.timeout && c.connectTimeout == d.connectTimeout && c.limits == d.limits &&
    c.retry.agrees d.retry && c.log == d.log

/-- Whether two lists of points agree one by one. -/
def samePoints : List Point → List Point → Bool
  | [], [] => true
  | p :: ps, q :: qs => p.agrees q && samePoints ps qs
  | _, _ => false

/-- Whether two channels are equal, with numbers compared as numbers. -/
def agrees (c d : Channel) : Bool := c.sameRuntime d && samePoints c.points d.points

end Channel

end Fieldbus
