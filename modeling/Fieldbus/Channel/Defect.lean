import Fieldbus.Binary.Decimal
import Fieldbus.Channel.Point

/-!
# Configuration defects

A defect is why a channel, or a whole document, is refused.  A defect excludes
its channel and leaves the others usable.
-/

namespace Fieldbus

/-- What is wrong with a channel as a whole. -/
inductive ChannelDefect where
  | emptyName
  | zeroInterval
  | zeroTimeout
  | zeroBatchSize
  /-- The backoff multiplier does not grow, or is not finite. -/
  | multiplier (value : Binary64)
  | emptyHost
  /-- The serial device is blank, or its rate is zero. -/
  | serialParameters
  /-- The entry does not have the shape of a channel, for a reason in words. -/
  | shape (reason : String)
  /-- The link cannot be set up. -/
  | link (fault : Fault)
  /-- A cause reported from outside, in words. -/
  | reported (text : String)
deriving DecidableEq, Repr

/-- What is wrong with a point. -/
inductive PointDefect where
  /-- The function reads no table. -/
  | function (fc : UInt8)
  /-- A bit table holds truth values only. -/
  | bitTable (fc : UInt8) (type : DataType)
  /-- The bit lies outside a register. -/
  | bitRange (bit : UInt8)
  /-- Only a truth value in a register has a bit position. -/
  | bitPlacement
  /-- The scale or the offset is not finite. -/
  | transform
  /-- The value ends past the last address. -/
  | overflow
  /-- A cause reported from outside, in words. -/
  | reported (text : String)
deriving DecidableEq, Repr

/-- Why a channel or a document is refused. -/
inductive Defect where
  /-- The document cannot be read as a configuration. -/
  | document (text : String)
  /-- An entry without a readable id does not have the shape of a channel, for a reason in
  words. -/
  | entry (index : Nat) (reason : String)
  /-- The file cannot be read. -/
  | unreadable (path text : String)
  | channel (id : UInt16) (cause : ChannelDefect)
  | duplicateChannel (id : UInt16)
  /-- An earlier point of the channel has the id. -/
  | duplicatePoint (channel : UInt16) (point : UInt32)
  /-- A point does not fit into one request. -/
  | tooWide (channel : UInt16) (point : UInt32) (width limit : Nat)
  | point (channel : UInt16) (point : UInt32) (cause : PointDefect)
deriving DecidableEq, Repr

/-! ## Wording -/

def ChannelDefect.text : ChannelDefect → String
  | emptyName => "name must not be empty"
  | zeroInterval => "polling_interval_ms must be greater than 0"
  | zeroTimeout => "request_timeout_ms must be greater than 0"
  | zeroBatchSize => "batch size limits must be greater than 0"
  | multiplier value => s!"backoff_multiplier must be >= 1.0, got {value.toText}"
  | emptyHost => "tcp host must not be empty"
  | serialParameters => "rtu device and baud_rate are required"
  | shape reason => reason
  | link fault => fault.message
  | reported text => text

def PointDefect.text : PointDefect → String
  | function fc => s!"unsupported function code {fc}"
  | bitTable fc type => s!"function code {fc} only carries bool points, got {type.name}"
  | bitRange bit => s!"bit position {bit} out of range 0-15"
  | bitPlacement => "bit_position only applies to bool points in a register table"
  | transform => "scale and offset must be finite"
  | overflow => "address range overflows 0xFFFF"
  | reported text => text

namespace Defect

def message : Defect → String
  | .document text => s!"Failed to parse configuration: {text}"
  | .entry index reason => s!"Failed to parse configuration: channel entry #{index}: {reason}"
  | .unreadable path text => s!"Failed to read configuration {path}: {text}"
  | .channel id cause => s!"Channel {id}: {cause.text}"
  | .duplicateChannel id => s!"Duplicate channel id {id}"
  | .duplicatePoint owner id => s!"Channel {owner}: duplicate point id {id}"
  | .tooWide owner id width limit =>
    s!"Channel {owner}: point {id} spans {width} units, exceeding batch limit {limit}"
  | .point owner id cause => s!"Channel {owner}: point {id}: {cause.text}"

def kind : Defect → String
  | .document _ | .entry .. => "parse"
  | .unreadable .. => "io"
  | .channel .. => "invalid_channel"
  | .duplicateChannel _ => "duplicate_channel"
  | .duplicatePoint .. => "duplicate_point"
  | .tooWide .. => "point_too_wide"
  | .point .. => "invalid_point"

end Defect

end Fieldbus
