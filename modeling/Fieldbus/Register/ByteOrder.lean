/-!
# Byte order of multi-register values

A value wider than a register arrives as several 16-bit words.  A byte order
says how a device lays out the bytes, written as the order in which it sends
them, with `A` the most significant byte of the value.

| order  | words of `0x12345678` |
|--------|-----------------------|
| `abcd` | `0x1234 0x5678`       |
| `dcba` | `0x7856 0x3412`       |
| `cdab` | `0x5678 0x1234`       |
| `badc` | `0x3412 0x7856`       |

An order either reverses the words or not, and either swaps the two bytes of
every word or not.  The two choices commute and each undoes itself, so the
orders form the Klein four-group with `abcd` as unit, and `arrange` serves both
directions.
-/

namespace Fieldbus

/-- The order in which a device sends the bytes of a value. -/
inductive ByteOrder where
  /-- Most significant byte first. -/
  | abcd
  /-- Least significant byte first. -/
  | dcba
  /-- Words swapped. -/
  | cdab
  /-- Bytes swapped within each word. -/
  | badc
deriving DecidableEq, Repr, Inhabited

namespace ByteOrder

/-! ## Names -/

def name : ByteOrder → String
  | abcd => "ABCD"
  | dcba => "DCBA"
  | cdab => "CDAB"
  | badc => "BADC"

/-- The accepted spellings of each order, in capitals and without separators. -/
def spellings : ByteOrder → List String
  | abcd => ["ABCD", "AB", "BE", "BIGENDIAN", "ABCDEFGH"]
  | dcba => ["DCBA", "BA", "LE", "LITTLEENDIAN", "HGFEDCBA"]
  | cdab => ["CDAB", "BIGENDIANSWAP", "GHEFCDAB"]
  | badc => ["BADC", "LITTLEENDIANSWAP", "BADCFEHG"]

def all : List ByteOrder := [abcd, dcba, cdab, badc]

/-- The order with a spelling.  Hyphens and underscores do not count, nor does the
case of ASCII letters. -/
def ofSpelling? (spelling : String) : Option ByteOrder :=
  let plain := spelling.toList.filter fun c => c ≠ '-' ∧ c ≠ '_'
  let capital := String.ofList (plain.map Char.toUpper)
  all.find? fun order => order.spellings.contains capital

/-! ## Rearrangement -/

/-- Whether the order sends the last word first. -/
def reversesWords : ByteOrder → Bool
  | abcd | badc => false
  | dcba | cdab => true

/-- Whether the order sends the low byte of a word first. -/
def swapsBytes : ByteOrder → Bool
  | abcd | cdab => false
  | dcba | badc => true

/-- A word with its two bytes exchanged. -/
def swapBytes (w : UInt16) : UInt16 := (w <<< 8) ||| (w >>> 8)

/-- Device words in `abcd` order, or `abcd` words in device order. -/
def arrange (order : ByteOrder) (words : List UInt16) : List UInt16 :=
  let placed := if order.reversesWords then words.reverse else words
  if order.swapsBytes then placed.map swapBytes else placed

@[simp] theorem length_arrange (order : ByteOrder) (words : List UInt16) :
    (order.arrange words).length = words.length := by
  cases order with
  | abcd => rfl
  | dcba => simp [arrange, reversesWords, swapsBytes]
  | cdab => simp [arrange, reversesWords, swapsBytes]
  | badc => simp [arrange, reversesWords, swapsBytes]

/-- The order with given choices. -/
def ofChoices (reverses swaps : Bool) : ByteOrder :=
  match reverses, swaps with
  | false, false => abcd
  | true, true => dcba
  | true, false => cdab
  | false, true => badc

/-- One rearrangement after another, as an order. -/
def compose (first second : ByteOrder) : ByteOrder :=
  ofChoices (first.reversesWords != second.reversesWords) (first.swapsBytes != second.swapsBytes)

end ByteOrder

/-! ## Packing -/

/-- Words as one number, most significant word first. -/
def packNat (words : List UInt16) : Nat := words.foldl (fun acc w => acc <<< 16 + w.toNat) 0

/-- Words as a 64-bit number, most significant word first.  Beyond four words the
first ones are lost. -/
def packWords (words : List UInt16) : UInt64 := UInt64.ofNat (packNat words)

/-- The low `count` words of a number, most significant first. -/
def unpackNat (value : Nat) : (count : Nat) → List UInt16
  | 0 => []
  | count + 1 => UInt16.ofNat (value >>> (16 * count)) :: unpackNat value count

/-- The low `count` words of a 64-bit number, most significant first.  It has four, and no type
takes more. -/
def unpackWords (value : UInt64) (count : Nat) : List UInt16 := unpackNat value.toNat count

@[simp] theorem length_unpackNat (value count : Nat) : (unpackNat value count).length = count := by
  induction count with
  | zero => rfl
  | succ count ih => rw [unpackNat, List.length_cons, ih]

/-! ## Closed instances -/

example : ByteOrder.dcba.arrange [0x1234, 0x5678] = [0x7856, 0x3412] := by decide
example : ByteOrder.cdab.arrange [0x1234, 0x5678] = [0x5678, 0x1234] := by decide
example : ByteOrder.badc.arrange [0x1234, 0x5678] = [0x3412, 0x7856] := by decide
example : unpackWords (packWords [1, 2, 3]) 3 = [1, 2, 3] := by decide

end Fieldbus
