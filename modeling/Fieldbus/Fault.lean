import Fieldbus.FunctionCode
import Fieldbus.Text.Hex

/-!
# Faults of an exchange

A fault is anything that goes wrong while a request is made, sent, answered or
decoded.  Each constructor is one cause with its data.  The families of causes
share a tag, `Fault.kind`, which is what the message log records, and a heading
in `Fault.message`, the only place where wording lives.

A fault never leaves its channel: the poll loop retries or backs off, and a
command fails.
-/

namespace Fieldbus

open Text (hexByte hexWord)

/-! ## Causes -/

/-- A response breaks the application protocol. -/
inductive ProtocolFault where
  /-- A data unit has no room for another byte. -/
  | full
  /-- The response is for another function. -/
  | otherFunction (expected actual : UInt8)
  /-- The device confirmed another write than the one sent. -/
  | otherEcho (address value echoedAddress echoedValue : UInt16)
  /-- Another device on the bus answered. -/
  | otherSlave (expected actual : UInt8)
  /-- A cause reported from outside, in words. -/
  | reported (text : String)
deriving DecidableEq, Repr

/-- A frame is malformed. -/
inductive FrameFault where
  /-- A data unit without bytes. -/
  | emptyPdu
  /-- A data unit above the size limit. -/
  | oversizedPdu (size : Nat)
  /-- A refusal that does not say why. -/
  | exceptionWithoutCode
  /-- A read response that ends before its byte count. -/
  | missingByteCount
  /-- The header's protocol identifier is not zero. -/
  | protocolId (id : UInt16)
  /-- The header's length cannot be that of a data unit. -/
  | lengthField (length : UInt16)
  /-- A serial frame below the least size. -/
  | short (size : Nat)
  /-- A serial frame above the greatest size. -/
  | long (size : Nat)
  /-- A serial response whose announced size is above the greatest. -/
  | announced (size : Nat)
  /-- A cause reported from outside, in words. -/
  | reported (text : String)
deriving DecidableEq, Repr

/-- Register data cannot be read or written. -/
inductive DataFault where
  /-- A value needs more words than there are. -/
  | tooFewWords (type : String) (needed actual : Nat)
  /-- A bit position outside a register. -/
  | bitPosition (position : UInt8)
  /-- What is not a number has no register form. -/
  | notANumber
  /-- A read response whose size does not match the quantity asked for. -/
  | byteCount (fc : UInt8) (quantity : UInt16) (header payload expected : Nat)
  /-- A write confirmation of the wrong size. -/
  | echoSize (size : Nat)
  /-- A read of no units, or of more than the protocol allows. -/
  | readQuantity (fc : UInt8) (quantity : UInt16)
  /-- A write of no registers, or of more than the protocol allows. -/
  | writeQuantity (quantity : Nat)
  /-- A batch answered with a wrong number of words. -/
  | batchSize (index : Nat) (expected actual : Nat)
  /-- A point that lies outside the batch it is listed in. -/
  | outsideBatch (address start : UInt16)
  /-- A write without words. -/
  | nothingToWrite
  /-- A cause reported from outside, in words. -/
  | reported (text : String)
deriving DecidableEq, Repr

/-- The parameters of a link or a request are unusable. -/
inductive SetupFault where
  /-- The point takes no commands. -/
  | notWritable (point : UInt32)
  /-- The channel is not on a serial line. -/
  | notSerial (channel : UInt16)
  /-- A character size that serial lines do not have. -/
  | dataBits (bits : UInt8)
  /-- A number of stop bits that serial lines do not have. -/
  | stopBits (bits : UInt8)
  /-- A cause reported from outside, in words. -/
  | reported (text : String)
deriving DecidableEq, Repr

/-- What went wrong in an exchange. -/
inductive Fault where
  /-- The link could not be made or was lost. -/
  | connection (text : String)
  /-- Connecting is held back for a while. -/
  | backoff (retryMs : Nat)
  /-- No matching response in time. -/
  | timeout (limitMs : Nat) (operation : String)
  /-- The response breaks the protocol. -/
  | protocol (cause : ProtocolFault)
  | frame (cause : FrameFault)
  /-- The checksum of a serial frame is wrong. -/
  | checksum (expected actual : UInt16)
  /-- The device refused, with the function asked for and its reason. -/
  | exception (function code : UInt8)
  /-- A function code outside the supported ones. -/
  | invalidFunction (code : UInt8)
  /-- Register data cannot be read or written. -/
  | data (cause : DataFault)
  /-- The socket or the serial line failed. -/
  | io (text : String)
  | configuration (cause : SetupFault)
deriving DecidableEq, Repr

/-! ## Wording -/

def ProtocolFault.text : ProtocolFault → String
  | full => "PDU buffer full"
  | otherFunction expected actual =>
    s!"Function code mismatch: expected 0x{hexByte expected}, got 0x{hexByte actual}"
  | otherEcho address value echoedAddress echoedValue =>
    s!"Write echo mismatch: sent {address}/{value}, got {echoedAddress}/{echoedValue}"
  | otherSlave expected actual => s!"Response from slave {actual}, expected {expected}"
  | reported text => text

def FrameFault.text : FrameFault → String
  | emptyPdu => "Empty PDU"
  | oversizedPdu size => s!"PDU too large: {size} bytes (max {maxPduSize})"
  | exceptionWithoutCode => "Exception response without exception code"
  | missingByteCount => "Read response missing byte count"
  | protocolId id => s!"Invalid protocol ID: expected 0, got {id}"
  | lengthField length => s!"Invalid MBAP length field: {length}"
  | short size => s!"RTU frame too short: {size} bytes"
  | long size => s!"RTU frame too long: {size} bytes"
  | announced size => s!"RTU response length {size} exceeds 256"
  | reported text => text

def DataFault.text : DataFault → String
  | tooFewWords type needed actual =>
    s!"Not enough registers for {type}: need {needed}, got {actual}"
  | bitPosition position => s!"Invalid bit position: {position} (must be 0-15)"
  | notANumber => "Cannot encode NaN"
  | byteCount fc quantity header payload expected =>
    s!"Unexpected byte count for FC{hexByte fc} qty {quantity}: header {header}, " ++
      s!"payload {payload}, expected {expected}"
  | echoSize size => s!"Write response must be 5 bytes, got {size}"
  | readQuantity fc quantity => s!"Read quantity {quantity} out of range for FC{hexByte fc}"
  | writeQuantity quantity =>
    s!"Write quantity {quantity} out of range (1-{FunctionCode.maxWriteRegisters})"
  | batchSize index expected actual => s!"Batch {index} expected {expected} words, got {actual}"
  | outsideBatch address start => s!"Point at {address} lies outside the batch from {start}"
  | nothingToWrite => "No data to write"
  | reported text => text

def SetupFault.text : SetupFault → String
  | notWritable point => s!"Point {point} is not writable"
  | notSerial channel => s!"Channel {channel} is not an RTU channel"
  | dataBits bits => s!"Unsupported data bits: {bits}"
  | stopBits bits => s!"Unsupported stop bits: {bits}"
  | reported text => text

namespace Fault

def message : Fault → String
  | connection text => s!"Connection error: {text}"
  | backoff retryMs => s!"Reconnect suppressed, next attempt in {retryMs}ms"
  | timeout limitMs operation => s!"Timeout after {limitMs}ms: {operation}"
  | protocol cause => s!"Protocol error: {cause.text}"
  | frame cause => s!"Frame error: {cause.text}"
  | checksum expected actual =>
    s!"CRC mismatch: expected 0x{hexWord expected}, got 0x{hexWord actual}"
  | exception function code =>
    s!"Modbus exception: function 0x{hexByte function}, code 0x{hexByte code} " ++
      s!"({FunctionCode.describeException code} on {FunctionCode.describe function})"
  | invalidFunction code => s!"Invalid function code: 0x{hexByte code}"
  | data cause => s!"Invalid data: {cause.text}"
  | io text => s!"I/O error: {text}"
  | configuration cause => s!"Configuration error: {cause.text}"

/-- The tag under which a fault is logged. -/
def kind : Fault → String
  | connection _ => "connection"
  | backoff _ => "backoff"
  | timeout .. => "timeout"
  | protocol _ => "protocol"
  | frame _ => "frame"
  | checksum .. => "crc"
  | exception .. => "exception"
  | invalidFunction _ => "invalid_function"
  | data _ => "decode"
  | io _ => "io"
  | configuration _ => "configuration"

/-! ## Classes -/

/-- The refusal of a device.  The function is named without the exception bit. -/
def refusal (function code : UInt8) : Fault := exception (function &&& 0x7F) code

/-- Whether no answer came in time. -/
def isTimeout : Fault → Bool
  | timeout .. => true
  | _ => false

/-- Whether the link itself is gone and has to be made again. -/
def isConnection : Fault → Bool
  | connection _ | io _ | backoff _ => true
  | _ => false

def isFrame : Fault → Bool
  | frame _ => true
  | _ => false

end Fault

/-! ## Faults of the operating system -/

/-- The conditions an operating system reports on a socket or a serial line. -/
inductive SystemCondition where
  /-- Nobody listens at the address. -/
  | refused
  /-- The peer cut the link. -/
  | reset
  /-- The link was cut on this side. -/
  | aborted
  | notConnected
  /-- The peer no longer reads. -/
  | brokenPipe
  /-- The stream ended too early. -/
  | unexpectedEnd
  /-- Any other condition. -/
  | other
deriving DecidableEq, Repr

def SystemCondition.ofName : String → SystemCondition
  | "connection_refused" => .refused
  | "connection_reset" => .reset
  | "connection_aborted" => .aborted
  | "not_connected" => .notConnected
  | "broken_pipe" => .brokenPipe
  | "unexpected_eof" => .unexpectedEnd
  | _ => .other

/-- The fault for a condition.  Those that mean the link is gone are faults of the
connection, and any other is a fault of input and output. -/
def Fault.ofSystem (condition : SystemCondition) (text : String) : Fault :=
  match condition with
  | .other => .io text
  | _ => .connection text

end Fieldbus
