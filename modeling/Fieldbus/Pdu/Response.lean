import Fieldbus.Pdu.Request

/-!
# Responses

A response is accepted only if it is exactly what a conforming device sends for
the request: the same function code, the byte count that the quantity asks for,
and as many bytes.  Anything else is a fault of the whole response; there is no
partial result.

Registers travel as two bytes each, most significant first, and bits eight to a
byte, least significant first, the last byte filled up with zeros.  `packBits`
and `response` are the device's side of this, and `unpackBits` and `parseRead`
the reader's.
-/

namespace Fieldbus

/-! ## Bits -/

/-- The eight bits of a byte as words, least significant first. -/
def byteBits (b : UInt8) : List UInt16 :=
  (List.range 8).map fun i => if b.toNat.testBit i then 1 else 0

/-- The first `quantity` bits of bytes. -/
def unpackBits (payload : List UInt8) (quantity : Nat) : List UInt16 :=
  (payload.flatMap byteBits).take quantity

/-- The byte whose lowest bits are given and whose other bits are zero. -/
def byteOfBits (bits : List UInt16) : UInt8 :=
  UInt8.ofNat (bits.foldr (fun bit acc => 2 * acc + (if bit = 0 then 0 else 1)) 0)

/-- Bits in bytes, eight to a byte. -/
def packBits : List UInt16 → List UInt8
  | a :: b :: c :: d :: e :: f :: g :: h :: rest =>
    byteOfBits [a, b, c, d, e, f, g, h] :: packBits rest
  | [] => []
  | bits => [byteOfBits bits]

/-! ## The device's side -/

/-- The payload that carries the words of a table. -/
def payload (fc : UInt8) (words : List UInt16) : List UInt8 :=
  if FunctionCode.isBit fc then packBits words else words.flatMap wordBytes

/-- The bytes of a conforming response to a read. -/
def readResponse (fc : UInt8) (words : List UInt16) : List UInt8 :=
  let data := payload fc words
  fc :: UInt8.ofNat data.length :: data

/-- The bytes of a refusal. -/
def refusalResponse (fc code : UInt8) : List UInt8 := [fc ||| FunctionCode.exceptionBit, code]

namespace Pdu

/-! ## The reader's side -/

/-- Accepts a response to a function.  A refusal of that function is a fault with the
device's reason. -/
def expectFunction (p : Pdu) (fc : UInt8) : Except Fault Unit :=
  match p.bytes with
  | [] => .error (.frame .emptyPdu)
  | actual :: rest =>
    if actual = fc ||| FunctionCode.exceptionBit then
      match rest with
      | [] => .error (.frame .exceptionWithoutCode)
      | code :: _ => .error (.refusal actual code)
    else if actual ≠ fc then .error (.protocol (.otherFunction fc actual))
    else .ok ()

/-- The bytes that carry `quantity` units of a table. -/
def payloadSize (fc : UInt8) (quantity : UInt16) : Nat :=
  if FunctionCode.isBit fc then (quantity.toNat + 7) / 8 else quantity.toNat * 2

/-- The words of a read response: one for each register, or a zero or one for each bit. -/
def parseRead (p : Pdu) (fc : UInt8) (quantity : UInt16) : Except Fault (List UInt16) := do
  p.expectFunction fc
  match p.bytes with
  | _ :: count :: data =>
    if count.toNat ≠ payloadSize fc quantity ∨ data.length ≠ count.toNat then
      .error (.data (.byteCount fc quantity count.toNat data.length (payloadSize fc quantity)))
    else if FunctionCode.isBit fc then .ok (unpackBits data quantity.toNat)
    else .ok (wordsOf data)
  | _ => .error (.frame .missingByteCount)

/-- Accepts the confirmation of a write: the address and the value or quantity sent. -/
def parseWrite (p : Pdu) (fc : UInt8) (address value : UInt16) : Except Fault Unit := do
  p.expectFunction fc
  match p.bytes with
  | [_, a, b, c, d] =>
    let echoedAddress := wordOf a b
    let echoedValue := wordOf c d
    if echoedAddress ≠ address ∨ echoedValue ≠ value then
      .error (.protocol (.otherEcho address value echoedAddress echoedValue))
    else .ok ()
  | bytes => .error (.data (.echoSize bytes.length))

end Pdu

/-! ## Closed instances -/

example : unpackBits (packBits [1, 0, 1, 1, 0, 0, 0, 0, 1]) 9 = [1, 0, 1, 1, 0, 0, 0, 0, 1] := by
  decide
example : wordsOf (payload FunctionCode.readHoldingRegisters [0x1234, 5]) = [0x1234, 5] := by decide

end Fieldbus
