import Fieldbus.Binary.Format

/-!
# Double precision values

A `Binary64` is its 64 bits.  Its operations are exact on the numbers the bits
denote and round once, to nearest with ties to even.  There are two readings of
the bits: `parts`, the value as sign, significand and exponent, and `rank`, an
integer that orders the numbers.

Every result that is not a number has the same bits, `nan`.
-/

namespace Fieldbus

open Binary (Format)

/-- A double precision value, as its bits. -/
structure Binary64 where
  /-- The bits: sign, biased exponent, fraction. -/
  bits : UInt64
deriving DecidableEq, Repr, Inhabited

namespace Binary64

/-! ## Fields -/

/-- Whether the sign bit is set. -/
def negative (x : Binary64) : Bool := 1 <<< 63 ≤ x.bits.toNat

/-- The bits without the sign. -/
def word (x : Binary64) : Nat := x.bits.toNat % 1 <<< 63

/-- The value with a sign and a word. -/
def ofWord (negative : Bool) (word : Nat) : Binary64 :=
  ⟨UInt64.ofNat (if negative then 1 <<< 63 + word else word)⟩

/-- Positive zero. -/
def zero : Binary64 := ofWord false 0

def one : Binary64 := ofWord false 0x3ff0000000000000

/-- The infinity of a sign. -/
def infinity (negative : Bool) : Binary64 := ofWord negative Format.double.infinity

/-- The value that is not a number. -/
def nan : Binary64 := ofWord false (Format.double.infinity + 1 <<< 51)

/-- Whether the value is not a number. -/
def isNaN (x : Binary64) : Bool := Format.double.infinity < x.word

def isInfinite (x : Binary64) : Bool := x.word = Format.double.infinity

/-- Whether the value is a finite number. -/
def isFinite (x : Binary64) : Bool := x.word < Format.double.infinity

/-- The value with its sign flipped. -/
def neg (x : Binary64) : Binary64 := ofWord (!x.negative) x.word

/-! ## From exact numbers -/

/-- The value nearest to `± m · 2 ^ e`. -/
def ofDyadic (negative : Bool) (m : Nat) (e : Int) : Binary64 :=
  ofWord negative (Format.double.pack m e)

/-- The value nearest to a natural number. -/
def ofNat (n : Nat) : Binary64 := ofDyadic false n 0

/-- The value nearest to an integer. -/
def ofInt (n : Int) : Binary64 := ofDyadic (n < 0) n.natAbs 0

/-- The value of a single precision word with its sign. -/
def ofSingle (bits : UInt32) : Binary64 :=
  ofWord (1 <<< 31 ≤ bits.toNat) (Format.single.convert .double (bits.toNat % 1 <<< 31))

/-- The nearest single precision value, as its bits. -/
def toSingle (x : Binary64) : UInt32 :=
  UInt32.ofNat ((if x.negative then 1 <<< 31 else 0) + Format.double.convert .single x.word)

/-! ## To exact numbers -/

/-- The significand and exponent of a finite value; its sign is `negative`. -/
def parts (x : Binary64) : Nat × Int := Format.double.unpack x.word

/-- The integer part of a finite value, toward zero. -/
def truncate (x : Binary64) : Int :=
  let (m, e) := x.parts
  let whole : Nat := if 0 ≤ e then m <<< e.toNat else m >>> (-e).toNat
  if x.negative then -(whole : Int) else whole

/-- The integer part, held between two bounds.  What is not a number gives zero,
and an infinity the bound on its side. -/
def saturate (x : Binary64) (lo hi : Int) : Int :=
  if x.isNaN then 0
  else if x.isInfinite then (if x.negative then lo else hi)
  else max lo (min hi x.truncate)

/-- The nearest integer of a finite value, halves away from zero. -/
def round (x : Binary64) : Binary64 :=
  if x.isFinite then
    let (m, e) := x.parts
    if 0 ≤ e then x
    else
      let k := (-e).toNat
      ofDyadic x.negative ((2 * m + 1 <<< k) >>> (k + 1)) 0
  else x

/-! ## Order -/

/-- An integer that grows with the number; both zeros have rank zero. -/
def rank (x : Binary64) : Int := if x.negative then -(x.word : Int) else x.word

/-- The order of numbers.  Nothing is below or above what is not a number. -/
def lt (x y : Binary64) : Bool := !x.isNaN && !y.isNaN && x.rank < y.rank

/-- Equality of numbers: the zeros are equal, and what is not a number equals nothing. -/
def eq (x y : Binary64) : Bool := !x.isNaN && !y.isNaN && x.rank == y.rank

/-- The greater of two numbers, or the one that is a number. -/
def max (x y : Binary64) : Binary64 :=
  if x.isNaN then y else if x.lt y then y else x

/-- The value held between two bounds. -/
def clamp (x lo hi : Binary64) : Binary64 :=
  if x.lt lo then lo else if hi.lt x then hi else x

/-! ## Arithmetic -/

/-- The product, rounded once. -/
def mul (x y : Binary64) : Binary64 :=
  let sign := x.negative != y.negative
  if x.isNaN || y.isNaN then nan
  else if x.isInfinite || y.isInfinite then
    if x.word = 0 ∨ y.word = 0 then nan else infinity sign
  else
    let (m, e) := x.parts
    let (n, d) := y.parts
    ofDyadic sign (m * n) (e + d)

/-- A finite value as an integer multiple of `2 ^ e`, for an `e` not above its own exponent. -/
def scaledTo (x : Binary64) (e : Int) : Int :=
  let (m, d) := x.parts
  let whole : Nat := m <<< (d - e).toNat
  if x.negative then -(whole : Int) else whole

/-- The sum, rounded once.  A sum of zero is positive unless both terms are negative. -/
def add (x y : Binary64) : Binary64 :=
  if x.isNaN || y.isNaN then nan
  else if x.isInfinite then
    if y.isInfinite && x.negative != y.negative then nan else x
  else if y.isInfinite then y
  else
    let e := min x.parts.2 y.parts.2
    let sum := x.scaledTo e + y.scaledTo e
    if sum = 0 then ofWord (x.negative && y.negative) 0
    else ofDyadic (sum < 0) sum.natAbs e

end Binary64

/-! ## Closed instances -/

example : (Binary64.ofNat 3).mul (Binary64.ofInt (-2)) = Binary64.ofInt (-6) := by decide +kernel
example : (Binary64.ofInt 5).add (Binary64.ofInt (-5)) = Binary64.zero := by decide +kernel
example : (Binary64.ofInt (-7)).truncate = -7 := by decide +kernel

end Fieldbus
