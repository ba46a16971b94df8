import Fieldbus.Channel.Point
import Fieldbus.Pdu.Response

/-!
# Write requests

A write request is the data unit that writes words to a point, with what the
device has to confirm: the address, and the value written or the number of
registers.
-/

namespace Fieldbus

/-- A write and its confirmation. -/
structure WriteRequest where
  function : UInt8
  address : UInt16
  /-- The value, or the number of registers, that the device confirms. -/
  echo : UInt16
  /-- The data unit. -/
  pdu : Pdu
deriving DecidableEq

namespace WriteRequest

def forPoint (p : Point) (words : List UInt16) : Except Fault WriteRequest :=
  match p.writeFunction?, words with
  | none, _ => .error (.configuration (.notWritable p.id))
  | some _, [] => .error (.data .nothingToWrite)
  | some fc, first :: _ =>
    if fc = FunctionCode.writeSingleCoil then
      let on : Bool := first ≠ 0
      .ok ⟨fc, p.address, Pdu.coilWord on, Pdu.writeCoil p.address on⟩
    else if fc = FunctionCode.writeSingleRegister then
      .ok ⟨fc, p.address, first, Pdu.writeRegister p.address first⟩
    else
      (Pdu.writeRegisters p.address words).map fun pdu =>
        ⟨fc, p.address, UInt16.ofNat words.length, pdu⟩

def check (r : WriteRequest) (response : Pdu) : Except Fault Unit :=
  response.parseWrite r.function r.address r.echo

end WriteRequest

/-- The engineering value of a point after words were written to it.  The words are read
without a bit position, and `value` stands in where they cannot be read. -/
def Point.acknowledged (p : Point) (words : List UInt16) (value : Binary64) : Binary64 :=
  let raw := match p.type.decode words p.order none with
    | .ok raw => raw
    | .error _ => value
  p.transform.apply raw p.type

end Fieldbus
