/-!
# Function codes and protocol limits

A request names one of four register tables by its read function, or one of
three ways to write.  A protocol data unit has at most 253 bytes, a 256-byte
serial frame less the slave address and the checksum, and that fixes how much
one request may carry.

A device refuses a request by answering with the function code and the top bit.
-/

namespace Fieldbus

/-- The largest protocol data unit, in bytes. -/
def maxPduSize : Nat := 253

namespace FunctionCode

/-! ## Codes -/

/-- Reads output bits. -/
def readCoils : UInt8 := 0x01

/-- Reads input bits. -/
def readDiscreteInputs : UInt8 := 0x02

/-- Reads output registers. -/
def readHoldingRegisters : UInt8 := 0x03

/-- Reads input registers. -/
def readInputRegisters : UInt8 := 0x04

/-- Sets one output bit. -/
def writeSingleCoil : UInt8 := 0x05

/-- Sets one output register. -/
def writeSingleRegister : UInt8 := 0x06

/-- Sets consecutive output registers. -/
def writeMultipleRegisters : UInt8 := 0x10

/-- The bit that marks a refusal. -/
def exceptionBit : UInt8 := 0x80

/-- Whether the code reads one of the four tables. -/
def isRead (fc : UInt8) : Bool := readCoils ≤ fc && fc ≤ readInputRegisters

def isBit (fc : UInt8) : Bool := fc = readCoils || fc = readDiscreteInputs

/-! ## Limits of one request -/

/-- Registers one read may ask for: two bytes each, after the code and the byte count. -/
def maxReadRegisters : UInt16 := 125

/-- Bits one read may ask for. -/
def maxReadCoils : UInt16 := 2000

/-- Registers one write may carry. -/
def maxWriteRegisters : Nat := 123

/-- Units one read with a code may ask for. -/
def readCeiling (fc : UInt8) : UInt16 := if isBit fc then maxReadCoils else maxReadRegisters

/-! ## Descriptions -/

/-- What a code does, the exception bit aside. -/
def describe (fc : UInt8) : String :=
  match (fc &&& 0x7F).toNat with
  | 0x01 => "Read Coils"
  | 0x02 => "Read Discrete Inputs"
  | 0x03 => "Read Holding Registers"
  | 0x04 => "Read Input Registers"
  | 0x05 => "Write Single Coil"
  | 0x06 => "Write Single Register"
  | 0x10 => "Write Multiple Registers"
  | _ => "Unknown Function"

/-- Why a device refused, by its exception code. -/
def describeException (code : UInt8) : String :=
  match code.toNat with
  | 0x01 => "Illegal Function"
  | 0x02 => "Illegal Data Address"
  | 0x03 => "Illegal Data Value"
  | 0x04 => "Server Device Failure"
  | 0x05 => "Acknowledge"
  | 0x06 => "Server Device Busy"
  | 0x08 => "Memory Parity Error"
  | 0x0A => "Gateway Path Unavailable"
  | 0x0B => "Gateway Target Device Failed to Respond"
  | _ => "Unknown Exception"

end FunctionCode

end Fieldbus
