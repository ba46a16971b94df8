import Fieldbus.Frame.Crc
import Fieldbus.Pdu.Basic

/-!
# Frames on a serial line

A frame on a serial line is the slave address, a data unit, and the checksum of
both with its low byte first.  Frames carry no length.  The size of a response
follows from its first three bytes: a refusal has five, a read response says how
many data bytes follow, and a write confirmation has eight.

Frames are kept apart by a silence of three and a half characters of eleven bits,
which above 19200 baud no longer shrinks.
-/

namespace Fieldbus.Rtu

/-- The least size of a frame: an address, a refusal and a checksum. -/
def minFrameSize : Nat := 5

/-- The greatest size of a frame. -/
def maxFrameSize : Nat := maxPduSize + 3

/-- A checksum as bytes, low byte first. -/
def checksumBytes (crc : UInt16) : List UInt8 := [lowByte crc, highByte crc]

/-- The frame of a data unit. -/
def encode (slave : UInt8) (pdu : Pdu) : List UInt8 :=
  let body := slave :: pdu.bytes
  body ++ checksumBytes (Crc.checksum body)

/-- The slave address and data unit of a frame. -/
def decode (frame : List UInt8) : Except Fault (UInt8 × Pdu) :=
  if frame.length < minFrameSize then .error (.frame (.short frame.length))
  else if maxFrameSize < frame.length then .error (.frame (.long frame.length))
  else
    let body := frame.take (frame.length - 2)
    let calculated := Crc.checksum body
    match frame.drop (frame.length - 2), body with
    | [low, high], slave :: data =>
      if wordOf high low ≠ calculated then .error (.checksum calculated (wordOf high low))
      else (Pdu.ofBytes data).map fun pdu => (slave, pdu)
    | _, _ => .error (.frame (.short frame.length))

/-- The size of a response frame, from its second and third byte. -/
def responseSize (fc third : UInt8) : Except Fault Nat :=
  if fc &&& FunctionCode.exceptionBit ≠ 0 then .ok minFrameSize
  else if FunctionCode.isRead fc then .ok (3 + third.toNat + 2)
  else if fc = FunctionCode.writeSingleCoil ∨ fc = FunctionCode.writeSingleRegister ∨
      fc = FunctionCode.writeMultipleRegisters then .ok 8
  else .error (.invalidFunction fc)

/-- The silence between frames at a baud rate, in nanoseconds. -/
def silence (baud : Nat) : Nat :=
  if baud = 0 ∨ 19200 < baud then 1750000 else (38500000 + baud - 1) / baud * 1000

/-- A request for one holding register, with its well-known checksum. -/
example : checksumBytes (Crc.checksum [0x01, 0x03, 0x00, 0x00, 0x00, 0x01]) = [0x84, 0x0A] := by
  decide +kernel

end Fieldbus.Rtu
