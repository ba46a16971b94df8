import Fieldbus.Binary.Binary64
import Fieldbus.Fault
import Fieldbus.Register.ByteOrder

/-!
# Register data types

A data type says how many registers a value takes and which numbers it can hold.
`decode` reads device words as a number and `encode` writes a number as device
words.

Encoding never refuses a number.  It is first held between the ends of the
type's range and then, for the integer types, cut toward zero.  The ends of the
64-bit ranges are not doubles, so the cut is held in the range once more.
-/

namespace Fieldbus

/-- The type of a value in a device. -/
inductive DataType where
  /-- A truth value, in a bit or in a register. -/
  | bool
  /-- An unsigned 16-bit integer. -/
  | uint16
  /-- A signed 16-bit integer. -/
  | int16
  /-- An unsigned 32-bit integer. -/
  | uint32
  /-- A signed 32-bit integer. -/
  | int32
  /-- A single precision number. -/
  | float32
  /-- An unsigned 64-bit integer. -/
  | uint64
  /-- A signed 64-bit integer. -/
  | int64
  /-- A double precision number. -/
  | float64
deriving DecidableEq, Repr, Inhabited

namespace DataType

/-! ## Names -/

def name : DataType → String
  | bool => "bool"
  | uint16 => "uint16"
  | int16 => "int16"
  | uint32 => "uint32"
  | int32 => "int32"
  | float32 => "float32"
  | uint64 => "uint64"
  | int64 => "int64"
  | float64 => "float64"

/-- The accepted spellings of each type, in small letters. -/
def spellings : DataType → List String
  | bool => ["bool", "boolean", "coil", "bit"]
  | uint16 => ["uint16", "u16", "word"]
  | int16 => ["int16", "i16", "short"]
  | uint32 => ["uint32", "u32", "dword"]
  | int32 => ["int32", "i32", "long"]
  | float32 => ["float32", "f32", "float", "real"]
  | uint64 => ["uint64", "u64", "qword"]
  | int64 => ["int64", "i64", "longlong"]
  | float64 => ["float64", "f64", "double", "lreal"]

def all : List DataType :=
  [bool, uint16, int16, uint32, int32, float32, uint64, int64, float64]

/-- The type with a spelling, in any case.  The one character outside ASCII with a
small letter in ASCII is the Kelvin sign, and no spelling has a `k`, so only ASCII
letters have to be lowered. -/
def ofSpelling? (spelling : String) : Option DataType :=
  let small := String.ofList (spelling.toList.map Char.toLower)
  all.find? fun type => type.spellings.contains small

/-! ## Shape -/

/-- The registers a value takes. -/
def width : DataType → Nat
  | bool | uint16 | int16 => 1
  | uint32 | int32 | float32 => 2
  | uint64 | int64 | float64 => 4

/-- The least and greatest integer of an integer type. -/
def bounds? : DataType → Option (Int × Int)
  | bool | float32 | float64 => none
  | uint16 => some (0, 0xffff)
  | int16 => some (-0x8000, 0x7fff)
  | uint32 => some (0, 0xffffffff)
  | int32 => some (-0x80000000, 0x7fffffff)
  | uint64 => some (0, 0xffffffffffffffff)
  | int64 => some (-0x8000000000000000, 0x7fffffffffffffff)

/-- The least and greatest number of a type. -/
def range : DataType → Binary64 × Binary64
  | bool => (.zero, .one)
  | float32 =>
    let top := UInt32.ofNat Binary.Format.single.maxFinite
    ((Binary64.ofSingle top).neg, .ofSingle top)
  | float64 =>
    (.ofWord true Binary.Format.double.maxFinite, .ofWord false Binary.Format.double.maxFinite)
  | type =>
    let (lo, hi) := type.bounds?.getD (0, 0)
    (.ofInt lo, .ofInt hi)

/-! ## Decoding -/

/-- A number as truth value: one or zero. -/
def ofBool (on : Bool) : Binary64 := if on then .one else .zero

/-- The integer of a type with given words, by two's complement where the type is signed. -/
def interpret (lo : Int) (width raw : Nat) : Int :=
  if lo < 0 ∧ 1 <<< (16 * width - 1) ≤ raw then (raw : Int) - (1 <<< (16 * width) : Nat) else raw

/-- The number that words in `abcd` order hold. -/
def ofPacked (type : DataType) (raw : Nat) : Binary64 :=
  match type, type.bounds? with
  | _, some (lo, _) => .ofInt (interpret lo type.width raw)
  | bool, none => ofBool (raw ≠ 0)
  | float32, none => .ofSingle (UInt32.ofNat raw)
  | _, none => ⟨UInt64.ofNat raw⟩

/-- The truth value of a register, or of one of its bits. -/
def decodeBool (word : UInt16) : (bit : Option UInt8) → Except Fault Binary64
  | none => .ok (ofBool (word ≠ 0))
  | some bit =>
    if 15 < bit then .error (.data (.bitPosition bit))
    else .ok (ofBool (word.toNat.testBit bit.toNat))

/-- The number that device words hold.  Words past the type's width are ignored.  A bit
position counts for truth values only. -/
def decode (type : DataType) (words : List UInt16) (order : ByteOrder) (bit : Option UInt8) :
    Except Fault Binary64 :=
  if words.length < type.width then
    .error (.data (.tooFewWords type.name type.width words.length))
  else if type = bool then decodeBool (words.headD 0) bit
  else .ok (type.ofPacked (packNat (order.arrange (words.take type.width))))

/-! ## Encoding -/

/-- The bits of a number held in the type's range. -/
def toPacked (type : DataType) (value : Binary64) : Nat :=
  match type, type.bounds? with
  | _, some (lo, hi) => (value.saturate lo hi % (1 <<< (16 * type.width) : Nat)).toNat
  | bool, none => if value.eq .zero then 0 else 1
  | float32, none => value.toSingle.toNat
  | _, none => value.bits.toNat

/-- A number as device words. -/
def encode (type : DataType) (value : Binary64) (order : ByteOrder) :
    Except Fault (List UInt16) :=
  if value.isNaN then .error (.data .notANumber)
  else
    let (lo, hi) := type.range
    let raw := type.toPacked (value.clamp lo hi)
    if type = bool then .ok [UInt16.ofNat raw]
    else .ok (order.arrange (unpackNat raw type.width))

end DataType

end Fieldbus
