import Fieldbus.Calendar
import Fieldbus.Channel.Basic
import Fieldbus.Plan.Batch

/-!
# Log records

A record says what happened in one exchange with a device.  It is written as one
line of fields, each a key and a value, after the time.  The fields of a record
are a list, and the line is the list joined, so what the line says can be read
off the fields.

Payloads are shown at the level of debugging only.  The text of a fault stands
between double quotes, and double quotes inside it become single ones.
-/

namespace Fieldbus.Log

/-! ## Records -/

/-- The registers an exchange is about. -/
structure Span where
  slave : UInt8
  function : UInt8
  /-- The first unit. -/
  address : UInt16
  /-- The number of units. -/
  quantity : Nat
deriving DecidableEq, Repr

/-- What an exchange was for. -/
inductive Purpose where
  | read (batch : Nat) (span : Span)
  /-- Writing a point for a command. -/
  | write (point : UInt32) (command : String) (span : Span)
  /-- Making the link. -/
  | connect
deriving DecidableEq, Repr

/-- What was sent and what was received. -/
structure Frames where
  request : List UInt8 := []
  response : List UInt8 := []
deriving DecidableEq, Repr

/-- One exchange. -/
structure Record where
  channel : UInt16
  time : Instant
  purpose : Purpose
  /-- What went wrong, if anything did. -/
  fault : Option Fault := none
  /-- The number of tries. -/
  attempts : Nat := 1
  /-- The time from the first try to the last answer. -/
  latency : Nanos := 0
  /-- The frames of the last try, if they were kept. -/
  frames : Option Frames := none
deriving DecidableEq, Repr

def Purpose.ofBatch (b : Batch) : Purpose :=
  .read b.index ⟨b.slave, b.function, b.start, b.quantity.toNat⟩

/-- The purpose of writing a point.  A point that takes no commands shows its read function. -/
def Purpose.ofPoint (p : Point) (command : String) : Purpose :=
  .write p.id command ⟨p.slave, p.writeFunction?.getD p.function, p.address, p.width⟩

def Purpose.name : Purpose → String
  | read .. => "read"
  | write .. => "write"
  | connect => "connect"

namespace Record

def isOk (r : Record) : Bool := r.fault.isNone

/-- The outcome in one word. -/
def outcome (r : Record) : String :=
  match r.fault with
  | none => "ok"
  | some fault => fault.kind

/-! ## Lines -/

/-- Text between double quotes.  Double quotes inside become single ones. -/
def quoted (text : String) : String :=
  let inner := text.toList.map fun c => if c = '"' then '\'' else c
  String.ofList ('"' :: inner ++ ['"'])

def spanFields (s : Span) : List (String × String) :=
  [("slave", toString s.slave.toNat), ("fc", "0x" ++ Text.hexByte s.function),
    ("addr", toString s.address.toNat), ("qty", toString s.quantity)]

def purposeFields : Purpose → List (String × String)
  | .read batch span => ("batch", toString batch) :: spanFields span
  | .write point command span =>
    ("point", toString point.toNat) :: ("corr", command) :: spanFields span
  | .connect => []

def fields (r : Record) (level : LogLevel) : List (String × String) :=
  [("ch", toString r.channel.toNat), ("op", r.purpose.name)] ++ purposeFields r.purpose ++
    [("outcome", r.outcome), ("attempts", toString r.attempts),
      ("latency_ms", toString (wholeMillis r.latency))] ++
    (match r.fault with
      | none => []
      | some fault => [("error", quoted fault.message)]) ++
    (match level, r.frames with
      | .debug, some frames =>
        [("req", Text.hexBytes frames.request), ("resp", Text.hexBytes frames.response)]
      | _, _ => [])

/-- A field behind a space. -/
def fieldText (field : String × String) : String := " " ++ field.1 ++ "=" ++ field.2

def line (r : Record) (level : LogLevel) : String :=
  r.time.text ++ String.join ((r.fields level).map fieldText) ++ "\n"

end Record

end Fieldbus.Log
