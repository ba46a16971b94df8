import Fieldbus.Pdu.Basic

/-!
# Requests

The requests that a poll cycle and a command send.  A read names a start and a
quantity, and a write carries the state of a coil, the value of one register, or
the values of consecutive registers.

The meaning of a write is stated apart from its bytes: `Effect` is what a device
does to its tables, and `Effect.ofRequest?` reads it from the bytes of a request.
-/

namespace Fieldbus

namespace Pdu

/-- A function code and two words: the shape of every request but one, and of every
write confirmation. -/
def ofWords (fc : UInt8) (first second : UInt16) : Pdu :=
  ⟨fc :: (wordBytes first ++ wordBytes second), by simp [maxPduSize]⟩

/-- The request for `quantity` units from `start`. -/
def readRequest (fc : UInt8) (start quantity : UInt16) : Except Fault Pdu :=
  if !FunctionCode.isRead fc then .error (.invalidFunction fc)
  else if quantity = 0 ∨ FunctionCode.readCeiling fc < quantity then
    .error (.data (.readQuantity fc quantity))
  else .ok (ofWords fc start quantity)

/-- The word that stands for the state of a coil. -/
def coilWord (on : Bool) : UInt16 := if on then 0xFF00 else 0

def writeCoil (address : UInt16) (on : Bool) : Pdu :=
  ofWords FunctionCode.writeSingleCoil address (coilWord on)

def writeRegister (address value : UInt16) : Pdu :=
  ofWords FunctionCode.writeSingleRegister address value

theorem length_flatMap_wordBytes (values : List UInt16) :
    (values.flatMap wordBytes).length = 2 * values.length := by
  induction values with
  | nil => rfl
  | cons v rest ih => simp [ih]; omega

/-- The request to set consecutive registers. -/
def writeRegisters (address : UInt16) (values : List UInt16) : Except Fault Pdu :=
  if h : values ≠ [] ∧ values.length ≤ FunctionCode.maxWriteRegisters then
    .ok ⟨FunctionCode.writeMultipleRegisters ::
        (wordBytes address ++ wordBytes (UInt16.ofNat values.length) ++
          UInt8.ofNat (2 * values.length) :: values.flatMap wordBytes), by
      have bound : values.length ≤ 123 := h.2
      have payload := length_flatMap_wordBytes values
      simp only [List.length_cons, List.length_append, length_wordBytes, payload, maxPduSize]
      omega⟩
  else .error (.data (.writeQuantity values.length))

end Pdu

/-! ## What a write does -/

/-- What a device does when it carries out a write. -/
inductive Effect where
  | coil (address : UInt16) (on : Bool)
  | register (address value : UInt16)
  | registers (address : UInt16) (values : List UInt16)
deriving DecidableEq, Repr

/-- Bytes as words, most significant byte first.  A byte without partner is dropped. -/
def wordsOf : List UInt8 → List UInt16
  | high :: low :: rest => wordOf high low :: wordsOf rest
  | _ => []

/-- What a device does on a request, by the protocol's rules for its function code. -/
def Effect.ofRequest? : List UInt8 → Option Effect
  | [fc, a, b, c, d] =>
    let address := wordOf a b
    let value := wordOf c d
    if fc = FunctionCode.writeSingleCoil then
      if value = 0xFF00 then some (.coil address true)
      else if value = 0 then some (.coil address false)
      else none
    else if fc = FunctionCode.writeSingleRegister then some (.register address value)
    else none
  | fc :: a :: b :: c :: d :: count :: payload =>
    let quantity := (wordOf c d).toNat
    if fc = FunctionCode.writeMultipleRegisters ∧ quantity ≠ 0 ∧
        count.toNat = 2 * quantity ∧ payload.length = 2 * quantity then
      some (.registers (wordOf a b) (wordsOf payload))
    else none
  | _ => none

example : Effect.ofRequest? (Pdu.writeCoil 7 true).bytes = some (.coil 7 true) := by decide
example : Effect.ofRequest? (Pdu.writeRegister 7 500).bytes = some (.register 7 500) := by decide

end Fieldbus
