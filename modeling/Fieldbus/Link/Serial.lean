import Fieldbus.Channel.Basic

/-!
# Serial settings

A serial line sends characters of five to eight bits with one or two stop bits.
A channel that asks for anything else has no link.
-/

namespace Fieldbus

/-- The settings of a serial line. -/
structure SerialSettings where
  device : String
  baud : UInt32
  dataBits : UInt8
  stopBits : UInt8
  parity : Parity
deriving DecidableEq, Repr

def SerialSettings.forChannel (c : Channel) : Except Fault SerialSettings :=
  match c.medium with
  | .tcp .. => .error (.configuration (.notSerial c.id))
  | .rtu device baud dataBits stopBits parity =>
    if dataBits < 5 ∨ 8 < dataBits then .error (.configuration (.dataBits dataBits))
    else if stopBits < 1 ∨ 2 < stopBits then .error (.configuration (.stopBits stopBits))
    else .ok ⟨device, baud, dataBits, stopBits, parity⟩

end Fieldbus
