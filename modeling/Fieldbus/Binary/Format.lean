/-!
# Binary interchange formats

A format is fixed by the number of fraction bits and of exponent bits.  The
magnitude of a finite value is `m · 2 ^ e`, and its *word* is the stored
pattern without the sign.  `unpack` reads a word as such a pair and `pack`
rounds any pair to a word, to nearest with ties to even.

The words of a format are ordered as their values are, and the word after the
largest finite one is the infinity.  So `pack` needs no case for a carry into
the exponent, and overflow is a minimum.

All arithmetic is on `Nat` and `Int`; no machine number is involved.
-/

namespace Fieldbus.Binary

/-- A binary interchange format. -/
structure Format where
  /-- Stored bits of the significand. -/
  fraction : Nat
  /-- Bits of the biased exponent. -/
  exponent : Nat
deriving DecidableEq, Repr

namespace Format

/-- The 64-bit format. -/
def double : Format := ⟨52, 11⟩

/-- The 32-bit format. -/
def single : Format := ⟨23, 8⟩

/-- The exponent of the last place of a subnormal value. -/
def minExp (f : Format) : Int := 2 - (1 <<< (f.exponent - 1) : Nat) - f.fraction

/-- The word of the infinity.  Greater words are not numbers. -/
def infinity (f : Format) : Nat := (1 <<< f.exponent - 1) <<< f.fraction

/-- The word of the largest finite value. -/
def maxFinite (f : Format) : Nat := f.infinity - 1

/-- The significand and exponent of a finite word. -/
def unpack (f : Format) (word : Nat) : Nat × Int :=
  let biased := word >>> f.fraction
  let stored := word % 1 <<< f.fraction
  if biased = 0 then (stored, f.minExp)
  else (1 <<< f.fraction + stored, f.minExp + (biased - 1 : Nat))

/-- `m / 2 ^ k` to nearest, ties to even. -/
def halfEven (m k : Nat) : Nat :=
  let quotient := m >>> k
  let rest := 2 * (m % 1 <<< k)
  if rest > 1 <<< k ∨ rest = 1 <<< k ∧ quotient % 2 = 1 then quotient + 1 else quotient

/-- The word nearest to `m · 2 ^ e`. -/
def pack (f : Format) (m : Nat) (e : Int) : Nat :=
  if m = 0 then 0
  else
    let place := max (e + (m.log2 : Int) - f.fraction) f.minExp
    let significand :=
      if place ≤ e then m <<< (e - place).toNat else halfEven m (place - e).toNat
    min ((place - f.minExp).toNat <<< f.fraction + significand) f.infinity

/-- The word nearest to the fraction `num / den`.  The quotient is taken to more
bits than the format holds, and a bit below them tells whether it is exact. -/
def packRatio (f : Format) (num den : Nat) : Nat :=
  let shift := f.fraction + 3 + den.log2 + 1 - num.log2
  let quotient := num <<< shift / den
  let sticky := if num <<< shift % den = 0 then 0 else 1
  f.pack (2 * quotient + sticky) (-(shift : Int) - 1)

/-- The value of a word of one format as a word of another. -/
def convert (source target : Format) (word : Nat) : Nat :=
  if word > source.infinity then target.infinity + 1 <<< (target.fraction - 1)
  else if word = source.infinity then target.infinity
  else
    let (m, e) := source.unpack word
    target.pack m e

end Format

/-! ## Closed instances -/

example : Format.double.pack 1 0 = 0x3ff0000000000000 := by decide
example : Format.double.pack (1 <<< 53 + 1) 0 = Format.double.pack (1 <<< 53) 0 := by decide
example : Format.double.pack 1 1024 = Format.double.infinity := by decide +kernel
example : Format.double.pack 1 (-1075) = 0 := by decide +kernel
example : Format.double.packRatio 1 10 = 0x3fb999999999999a := by decide +kernel
example : Format.double.convert .single 0x3fb999999999999a = 0x3dcccccd := by decide +kernel

end Fieldbus.Binary
