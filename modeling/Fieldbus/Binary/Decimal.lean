import Fieldbus.Binary.Binary64

/-!
# Doubles as decimal numerals

Writing a double takes the fewest digits that read back.  The reals that round
to a value form an interval around it, which holds its ends exactly when the
significand is even.  For each count of digits the two neighbours of the value
on that decimal grid are tested against the interval.  The first grid with a hit
wins, of two hits the nearer, and of two equally near ones the greater.  If a
point of a grid lies in the interval, so does one of the two neighbours, so no
shorter numeral reads back.

The layout is positional whatever the exponent, and whole numbers have no point.

Reading a numeral rounds the fraction it denotes once.
-/

namespace Fieldbus

open Binary (Format)

namespace Binary64

/-! ## Digits -/

/-- The number of decimal digits of a natural number. -/
def digitCount (n : Nat) : Nat := (Nat.toDigits 10 n).length

/-- The power of ten at or below a positive fraction. -/
def decimalExponent (num den : Nat) : Int :=
  if den ≤ num then (digitCount (num / den) : Int) - 1 else -(digitCount ((den - 1) / num) : Int)

/-- The reals that round to `m · 2 ^ e`, with the value, as multiples of a quarter of
the last place: the least, the value, and the greatest.  Below a power of two the
neighbour is half as far. -/
def quarters (m : Nat) (e : Int) : Nat × Nat × Nat :=
  let below := if m = 1 <<< Format.double.fraction ∧ Format.double.minExp < e then 1 else 2
  (4 * m - below, 4 * m, 4 * m + 2)

/-- The numeral of `n` digits that reads back as `m · 2 ^ e`, if there is one, as
digits and a power of ten. -/
def numeral? (m : Nat) (e : Int) (n : Nat) : Option (Nat × Int) :=
  let (lo, value, hi) := quarters m e
  let up := 1 <<< (e - 2).toNat
  let down := 1 <<< (2 - e).toNat
  let k := decimalExponent (value * up) down - n + 1
  let num := up * Nat.pow 10 (-k).toNat
  let den := down * Nat.pow 10 k.toNat
  let inside (d : Nat) : Bool :=
    if m % 2 = 0 then lo * num ≤ d * den && d * den ≤ hi * num
    else lo * num < d * den && d * den < hi * num
  let floor := value * num / den
  match inside floor, inside (floor + 1) with
  | true, true =>
    if 2 * (value * num) < (2 * floor + 1) * den then some (floor, k) else some (floor + 1, k)
  | true, false => some (floor, k)
  | false, true => some (floor + 1, k)
  | false, false => none

/-- The shortest numeral that reads back as `m · 2 ^ e`.  Seventeen digits always do. -/
def shortest (m : Nat) (e : Int) : Nat × Int :=
  ((List.range 17).findSome? fun n => numeral? m e (n + 1)).getD (0, 0)

/-! ## Layout -/

/-- `digits · 10 ^ k` in positional notation, without a zero at the end of the fraction. -/
def positional (digits : Nat) (k : Int) : String :=
  if 0 ≤ k then toString (digits * Nat.pow 10 k.toNat)
  else
    let scale := Nat.pow 10 (-k).toNat
    let fraction := Nat.toDigits 10 (scale + digits % scale)
    let kept := (fraction.tail.reverse.dropWhile (· = '0')).reverse
    if kept.isEmpty then toString (digits / scale)
    else toString (digits / scale) ++ "." ++ String.ofList kept

/-- The text of a value: the shortest numeral that reads back, written out. -/
def toText (x : Binary64) : String :=
  if x.isNaN then "NaN"
  else
    let sign := if x.negative then "-" else ""
    if x.isInfinite then sign ++ "inf"
    else
      let (m, e) := x.parts
      if m = 0 then sign ++ "0"
      else
        let (digits, k) := shortest m e
        sign ++ positional digits k

/-! ## Reading -/

/-- The value nearest to `± digits · 10 ^ k`.  A numeral far outside the range of
the format needs no power of ten to be an infinity or a zero. -/
def ofDecimal (negative : Bool) (digits : Nat) (k : Int) : Binary64 :=
  let top := (digitCount digits : Int) + k
  if digits = 0 ∨ top < -400 then ofWord negative 0
  else if 400 < top then infinity negative
  else ofWord negative
    (Format.double.packRatio (digits * Nat.pow 10 k.toNat) (Nat.pow 10 (-k).toNat))

end Binary64

/-! ## Closed instances -/

example : (Binary64.ofDecimal false 1 (-7)).toText = "0.0000001" := by decide +kernel
example : (Binary64.ofDecimal true 1 21).toText = "-1000000000000000000000" := by decide +kernel
example : (Binary64.ofDecimal false 15 (-1)).toText = "1.5" := by decide +kernel
example : (Binary64.ofWord true 0).toText = "-0" := by decide +kernel
example : (Binary64.ofDecimal false 58566989575806325 (-2)).toText = "585669895758063.3" := by
  decide +kernel
example : (Binary64.ofDecimal false 5 (-324)).word = 1 := by decide +kernel

end Fieldbus
