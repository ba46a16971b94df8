/-!
# Hexadecimal text

Capital digits, padded on the left with zeros.
-/

namespace Fieldbus.Text

/-- The digit of a number below sixteen. -/
def hexDigit (n : Nat) : Char :=
  if n < 10 then Char.ofNat (48 + n) else Char.ofNat (55 + n)

/-- The last `width` digits of a number. -/
def hexDigits (n : Nat) : (width : Nat) → List Char
  | 0 => []
  | width + 1 => hexDigits (n / 16) width ++ [hexDigit (n % 16)]

/-- A byte as two digits. -/
def hexByte (b : UInt8) : String := String.ofList (hexDigits b.toNat 2)

/-- A word as four digits. -/
def hexWord (w : UInt16) : String := String.ofList (hexDigits w.toNat 4)

/-- Bytes as two digits each. -/
def hexBytes (bytes : List UInt8) : String :=
  String.ofList (bytes.flatMap fun b => hexDigits b.toNat 2)

example : hexBytes [0x0A, 0xFF] = "0AFF" := by decide

end Fieldbus.Text
