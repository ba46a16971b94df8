/-!
# The checksum of serial frames

CRC-16 with the reflected polynomial `0xA001`, the initial value `0xFFFF` and no
final exclusive or.  The checksum is a fold over the bytes.  A byte is folded in
by one exclusive or and eight bit steps.

The bit step is linear over exclusive or, so two frames of one size have
checksums that differ by the fold of their difference from zero.
-/

namespace Fieldbus.Crc

/-- The reflected polynomial. -/
def polynomial : UInt16 := 0xA001

/-- The value before the first byte. -/
def initial : UInt16 := 0xFFFF

def bitStep (crc : UInt16) : UInt16 :=
  if crc &&& 1 = 1 then (crc >>> 1) ^^^ polynomial else crc >>> 1

def bitSteps (crc : UInt16) : (count : Nat) → UInt16
  | 0 => crc
  | count + 1 => bitSteps (bitStep crc) count

def byteStep (crc : UInt16) (byte : UInt8) : UInt16 := bitSteps (crc ^^^ byte.toUInt16) 8

def checksum (bytes : List UInt8) : UInt16 := bytes.foldl byteStep initial

/-- The check value of the algorithm: the checksum of the digits one to nine. -/
example : checksum [0x31, 0x32, 0x33, 0x34, 0x35, 0x36, 0x37, 0x38, 0x39] = 0x4B37 := by
  decide +kernel

end Fieldbus.Crc
