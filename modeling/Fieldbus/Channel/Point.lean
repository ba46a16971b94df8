import Fieldbus.Register.Transform

/-!
# Points

A point is one value on a device: where it lies, how it is laid out, and what it
is for.  The four categories are measurements, states, remote controls and
set values; the last two take commands.

A point on a bit table takes one bit whatever its type.  On a register table it
takes the registers of its type.  A truth value that shares a register with
others takes no commands, since a write would change its neighbours too.
-/

namespace Fieldbus

/-! ## Categories -/

/-- What a point is for. -/
inductive Category where
  /-- A measurement. -/
  | telemetry
  /-- A state. -/
  | signal
  /-- A remote control. -/
  | control
  /-- A set value. -/
  | adjustment
deriving DecidableEq, Repr, Inhabited

namespace Category

/-- The categories, in the order in which a cycle publishes them. -/
def all : List Category := [telemetry, signal, control, adjustment]

def letter : Category → String
  | telemetry => "T"
  | signal => "S"
  | control => "C"
  | adjustment => "A"

def spellings : Category → List String
  | telemetry => ["telemetry", "T", "measurement"]
  | signal => ["signal", "S", "status"]
  | control => ["control", "C"]
  | adjustment => ["adjustment", "A", "setpoint"]

def ofSpelling? (spelling : String) : Option Category :=
  all.find? fun category => category.spellings.contains spelling

def isCommand : Category → Bool
  | control | adjustment => true
  | telemetry | signal => false

end Category

/-! ## Points -/

/-- One value on a device. -/
structure Point where
  /-- The id, unique on its channel. -/
  id : UInt32
  slave : UInt8 := 1
  function : UInt8 := FunctionCode.readHoldingRegisters
  /-- The first unit of the value. -/
  address : UInt16
  category : Category := .telemetry
  type : DataType
  order : ByteOrder := .abcd
  /-- The bit of the register that holds a truth value. -/
  bit : Option UInt8 := none
  /-- The change to engineering units. -/
  transform : Transform := {}
deriving DecidableEq, Repr

namespace Point

/-- The units the value takes. -/
def width (p : Point) : Nat := if FunctionCode.isBit p.function then 1 else p.type.width

/-- One past the last unit of the value. -/
def finish (p : Point) : Nat := p.address.toNat + p.width

/-- The function that writes the point, if it takes commands. -/
def writeFunction? (p : Point) : Option UInt8 :=
  if !p.category.isCommand then none
  else if p.function = FunctionCode.readCoils then
    if p.type = .bool then some FunctionCode.writeSingleCoil else none
  else if p.function = FunctionCode.readHoldingRegisters then
    if p.bit.isSome then none
    else if p.width = 1 then some FunctionCode.writeSingleRegister
    else some FunctionCode.writeMultipleRegisters
  else none

def isWritable (p : Point) : Bool := p.writeFunction?.isSome

/-- The engineering value of device words from the point's address on. -/
def valueOf (p : Point) (words : List UInt16) : Except Fault Binary64 :=
  (p.type.decode words p.order p.bit).map fun raw => p.transform.apply raw p.type

/-- Equality of points, with the numbers compared as numbers. -/
def agrees (p q : Point) : Bool :=
  decide ({ p with transform := q.transform } = q) && p.transform.agrees q.transform

end Point

end Fieldbus
