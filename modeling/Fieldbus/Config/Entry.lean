import Fieldbus.Channel.Basic
import Fieldbus.Yaml.Value

/-!
# Channel entries

A channel entry is what a configuration says about one channel, before it is
checked: every field has its type and range, and fields left out have their
defaults.  Fields that are not known are ignored.

Reading an entry either gives all of it or nothing.  No value is read as an empty
record or list where one is expected, and as no value where one is optional; for
any other field it is an error.

`Reader` is a way to read entries, whatever they are read from.  `Reader.yaml` is the
way of configuration documents.
-/

namespace Fieldbus.Config

open Yaml (Value)

/-! ## Fields -/

/-- A reader of fields. -/
abbrev Fields := List (Value × Value)

/-- A field that has to be there. -/
def required {α : Type} (fields : Fields) (key : String) (read : Value → Option α) : Option α :=
  (Value.field? fields key).bind read

/-- A field with a default. -/
def optional {α : Type} (fields : Fields) (key : String) (default : α)
    (read : Value → Option α) : Option α :=
  match Value.field? fields key with
  | some value => read value
  | none => some default

/-- A value that may be none. -/
def nullable {α : Type} (read : Value → Option α) : Value → Option (Option α)
  | .null => some none
  | value => (read value).map some

def byte (value : Value) : Option UInt8 := (value.nat? 0xff).map UInt8.ofNat

/-- A 16-bit number. -/
def word (value : Value) : Option UInt16 := (value.nat? 0xffff).map UInt16.ofNat

/-- A 32-bit number. -/
def word32 (value : Value) : Option UInt32 := (value.nat? 0xffffffff).map UInt32.ofNat

/-- A natural number of 32 bits. -/
def count32 : Value → Option Nat := Value.nat? 0xffffffff

/-- A natural number of 64 bits. -/
def count64 : Value → Option Nat := Value.nat? 0xffffffffffffffff

/-! ## Points -/

def readPoint (value : Value) : Option Point := do
  let f ← value.record?
  return {
    id := ← required f "id" word32
    slave := ← optional f "slave_id" 1 byte
    function := ← optional f "function_code" FunctionCode.readHoldingRegisters byte
    address := ← required f "address" word
    category := ← required f "category" fun v => v.string?.bind Category.ofSpelling?
    type := ← required f "data_type" fun v => v.string?.bind DataType.ofSpelling?
    order := ← optional f "byte_order" .abcd fun v => v.string?.bind ByteOrder.ofSpelling?
    bit := ← optional f "bit_position" none (nullable byte)
    transform := {
      scale := ← optional f "scale" .one Value.double?
      offset := ← optional f "offset" .zero Value.double?
      reverse := ← optional f "reverse" false Value.bool? } }

/-! ## Media -/

/-- The fields of a medium by position, under their names. -/
def positional (names : List String) (values : List Value) : Option Fields :=
  if values.length ≤ names.length then some ((names.map Value.string).zip values) else none

/-- The fields of a medium under their names.  A number as key is a position, counted from
zero, and no other key may be anything but a text.  A field is given once. -/
def named (names : List String) (f : Fields) : Option Fields := do
  let f ← f.mapM fun (key, value) =>
    match key with
    | .string _ => some (key, value)
    | .int n => if 0 ≤ n then some (.string (names.getD n.toNat ""), value) else none
    | _ => none
  if names.all fun name => (f.filter fun entry => entry.1.string? == some name).length ≤ 1 then
    some f
  else none

/-- A parity: its name, or a record whose only key is its name or position and whose value
is nothing. -/
def readParity : Value → Option Parity
  | .string name => Parity.ofName? name
  | .table [(key, .null)] | .table [(key, .table [])] =>
    match key with
    | .string name => Parity.ofName? name
    | .int n => if 0 ≤ n then Parity.all[n.toNat]? else none
    | _ => none
  | _ => none

/-- The medium of a kind with given fields. -/
def mediumOf (kind : String) (f : Fields) : Option Medium :=
  match kind with
  | "tcp" => do
    return .tcp (← required f "host" Value.string?) (← optional f "port" 502 word)
  | "rtu" => do
    return .rtu (← required f "device" Value.string?) (← optional f "baud_rate" 9600 word32)
      (← optional f "data_bits" 8 byte) (← optional f "stop_bits" 1 byte)
      (← optional f "parity" .none readParity)
  | _ => none

/-- The names of a medium's fields, in their order. -/
def mediumFields : String → List String
  | "tcp" => ["host", "port"]
  | _ => ["device", "baud_rate", "data_bits", "stop_bits", "parity"]

/-- The medium of an entry: a record with its kind, or a list with the kind first. -/
def readMedium : Value → Option Medium
  | .table f => do
    let kind ← required f "kind" Value.string?
    mediumOf kind (← named (mediumFields kind) f)
  | .list (kind :: values) => do
    let kind ← kind.string?
    mediumOf kind (← positional (mediumFields kind) values)
  | _ => none

/-! ## Policies -/

/-- The retry part of an entry. -/
structure RetryEntry where
  /-- Tries of one batch. -/
  attempts : Nat := 3
  /-- The pause between two tries. -/
  delayMs : Nat := 100
  /-- The growth of the interval. -/
  multiplier : Binary64 := Binary64.ofNat 2
  /-- The greatest interval. -/
  capMs : Nat := 60000
  /-- The pause after the first failed connect. -/
  reconnectInitialMs : Nat := 500
  /-- The greatest pause between connects. -/
  reconnectMaxMs : Nat := 30000
deriving Repr

def readRetry (value : Value) : Option RetryEntry := do
  let f ← value.record?
  let d : RetryEntry := {}
  return {
    attempts := ← optional f "attempts" d.attempts count32
    delayMs := ← optional f "delay_ms" d.delayMs count64
    multiplier := ← optional f "backoff_multiplier" d.multiplier Value.double?
    capMs := ← optional f "backoff_cap_ms" d.capMs count64
    reconnectInitialMs := ← optional f "reconnect_initial_ms" d.reconnectInitialMs count64
    reconnectMaxMs := ← optional f "reconnect_max_ms" d.reconnectMaxMs count64 }

/-- The logging part of an entry. -/
structure LoggingEntry where
  level : LogLevel := .info
  retentionDays : Nat := 30
  /-- The size of a segment, in mebibytes. -/
  maxSegmentMb : Nat := 50
  /-- Days before compression. -/
  compressAfterDays : Option Nat := some 1
deriving Repr

def readLogging (value : Value) : Option LoggingEntry := do
  let f ← value.record?
  let d : LoggingEntry := {}
  return {
    level := ← optional f "level" d.level fun v => v.string?.bind LogLevel.ofName?
    retentionDays := ← optional f "retention_days" d.retentionDays count32
    maxSegmentMb := ← optional f "max_segment_mb" d.maxSegmentMb count64
    compressAfterDays :=
      ← optional f "compress_after_days" d.compressAfterDays (nullable count32) }

/-! ## Channels -/

/-- What a configuration says about one channel. -/
structure Entry where
  id : UInt16
  name : String
  medium : Medium
  intervalMs : Nat := 1000
  /-- The time a response may take. -/
  timeoutMs : Nat := 1000
  /-- The time a connect may take. -/
  connectTimeoutMs : Nat := 3000
  /-- Registers one read may ask for. -/
  maxBatchSize : UInt16 := 125
  /-- Bits one read may ask for. -/
  maxBatchCoils : UInt16 := 2000
  /-- Unused units one read may bridge. -/
  maxGap : UInt16 := 5
  /-- The pause between two requests. -/
  delayMs : Nat := 0
  retry : RetryEntry := {}
  /-- How the message log is kept. -/
  logging : LoggingEntry := {}
  points : List Point := []
deriving Repr

def readEntry (value : Value) : Option Entry := do
  let f ← value.record?
  return {
    id := ← required f "id" word
    name := ← required f "name" Value.string?
    medium := ← required f "transport" readMedium
    intervalMs := ← optional f "polling_interval_ms" 1000 count64
    timeoutMs := ← optional f "request_timeout_ms" 1000 count64
    connectTimeoutMs := ← optional f "connect_timeout_ms" 3000 count64
    maxBatchSize := ← optional f "max_batch_size" 125 word
    maxBatchCoils := ← optional f "max_batch_coils" 2000 word
    maxGap := ← optional f "max_gap" 5 word
    delayMs := ← optional f "inter_request_delay_ms" 0 count64
    retry := ← optional f "retry" {} readRetry
    logging := ← optional f "logging" {} readLogging
    points := ← optional f "points" [] fun v => v.list?.bind fun items => items.mapM readPoint }

/-- The id of an entry that cannot be read as a whole. -/
def readableId? : Value → Option UInt16
  | .table f => required f "id" word
  | _ => none

/-! ## Readers -/

/-- A way to read the entries of a document. -/
structure Reader (α : Type) where
  /-- The entry that a value is, or why it is none. -/
  entry : α → Except String Entry
  /-- The id that a value shows, even if it is no entry. -/
  id? : α → Option UInt16

/-- The way to read the entries of a configuration document. -/
def Reader.yaml : Reader Value where
  entry value :=
    match readEntry value with
    | some e => .ok e
    | none => .error "not a channel entry"
  id? := readableId?

end Fieldbus.Config
