import Fieldbus.Channel.Defect
import Fieldbus.Log.Queue
import Fieldbus.Time
import Fieldbus.Yaml.Value

/-!
# Engine settings

A configuration document sets a few values for the engine as a whole and lists
the channel entries.  Every setting has a default, and an empty document sets
nothing.

A document fails as a whole if it is no YAML, if a setting has the wrong type, or
if a setting is given twice.  The entries are kept as values until they are read
one by one.
-/

namespace Fieldbus.Config

open Yaml (Node Value)

/-- The settings of an engine, and the entries of its channels. -/
structure Settings where
  /-- The root directory of the message logs. -/
  logDir : String := "logs/modbus"
  /-- Records that wait for the log writer before they are dropped. -/
  logQueueCapacity : Nat := 10000
  /-- Seconds between two sweeps of the logs. -/
  retentionSweepSecs : Nat := 3600
  /-- Commands that wait before submitters do. -/
  commandQueueCapacity : Nat := 1024
  /-- Seconds for which outcomes of commands are kept. -/
  commandStatusTtlSecs : Nat := 3600
  entries : List Value := []
deriving Repr

namespace Settings

/-- The time between two sweeps of the logs. -/
def sweepInterval (s : Settings) : Nanos := seconds (max 1 s.retentionSweepSecs)

/-- The time for which outcomes of commands are kept. -/
def statusTtl (s : Settings) : Nanos := seconds s.commandStatusTtlSecs

/-- Whether queues can be as large as they are to be. -/
def hasRoom (s : Settings) : Bool :=
  s.logQueueCapacity ≤ Log.maxCapacity && s.commandQueueCapacity ≤ Log.maxCapacity

end Settings

/-! ## Reading -/

/-- Collections may be this deep. -/
def maxDepth : Nat := 128

/-- The text of a scalar, as it is written. -/
def scalarText? : Node → Option String
  | .scalar text _ => some text
  | _ => none

/-- A natural number of 64 bits, without a minus sign. -/
def plainCount? : Node → Option Nat
  | .scalar text true =>
    match Yaml.plainValue text with
    | .ok value => if text.startsWith "-" then none else value.nat? 0xffffffffffffffff
    | .error _ => none
  | _ => none

/-- The channel entries, none for a missing value.  A null that is written is no list. -/
def entriesOf (node : Node) : Except Yaml.Error (Option (List Value)) := do
  if maxDepth < node.depth + 1 then throw .depth
  match node with
  | .scalar "" true => return some []
  | .sequence items => return some (← Node.values items)
  | _ => return none

/-- The only value of a known key, if there is one. -/
def setting? (entries : List (Node × Node)) (key : String) : Except String (Option Node) :=
  match entries.filter fun entry => scalarText? entry.1 == some key with
  | [] => .ok none
  | [entry] => .ok (some entry.2)
  | _ => .error s!"duplicate field {key}"

/-- A setting with a default. -/
def setting {α : Type} (entries : List (Node × Node)) (key : String) (default : α)
    (read : Node → Option α) : Except String α := do
  match ← setting? entries key with
  | none => return default
  | some node =>
    match read node with
    | some value => return value
    | none => throw s!"invalid value for {key}"

/-- The settings of a document's root. -/
def settingsOf (entries : List (Node × Node)) : Except String Settings := do
  if entries.any fun entry => (scalarText? entry.1).isNone then throw "invalid key"
  let d : Settings := {}
  let channels ← match ← setting? entries "channels" with
    | none => pure []
    | some node =>
      match entriesOf node with
      | .ok (some values) => pure values
      | .ok none => throw "invalid value for channels"
      | .error error => throw error.text
  return {
    logDir := ← setting entries "log_dir" d.logDir scalarText?
    logQueueCapacity := ← setting entries "log_queue_capacity" d.logQueueCapacity plainCount?
    retentionSweepSecs := ← setting entries "retention_sweep_secs" d.retentionSweepSecs plainCount?
    commandQueueCapacity :=
      ← setting entries "command_queue_capacity" d.commandQueueCapacity plainCount?
    commandStatusTtlSecs :=
      ← setting entries "command_status_ttl_secs" d.commandStatusTtlSecs plainCount?
    entries := channels }

def readSettings (text : String) : Except Defect Settings :=
  match Yaml.parse text with
  | .error error => .error (.document error.text)
  | .ok none => .ok {}
  | .ok (some (.scalar "" true)) => .ok {}
  | .ok (some (.mapping entries)) => (settingsOf entries).mapError .document
  | .ok (some _) => .error (.document "invalid type")

end Fieldbus.Config
