import Fieldbus.FunctionCode
import Fieldbus.Time

/-!
# Request limits of a channel

Devices differ in how many units one request may ask for.  A channel's limits
are held below the protocol's ceiling when they are used, not when they are set.
-/

namespace Fieldbus

/-- The request limits of a channel. -/
structure Limits where
  /-- Registers one read may ask for. -/
  registers : UInt16 := 125
  /-- Bits one read may ask for. -/
  coils : UInt16 := 2000
  /-- Unused units one read may bridge between two points. -/
  gap : UInt16 := 5
  /-- The pause between two requests of a cycle, in milliseconds. -/
  delayMs : Nat := 0
deriving DecidableEq, Repr

namespace Limits

/-- Limits for slow devices. -/
def conservative : Limits := ⟨50, 500, 0, 10⟩

/-- The units one read with a function may ask for. -/
def read (l : Limits) (fc : UInt8) : UInt16 :=
  min (if FunctionCode.isBit fc then l.coils else l.registers) (FunctionCode.readCeiling fc)

/-- The pause between two requests of a cycle. -/
def delay (l : Limits) : Nanos := millis l.delayMs

end Limits

end Fieldbus
