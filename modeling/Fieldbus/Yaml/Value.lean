import Fieldbus.Binary.Decimal
import Fieldbus.Yaml.Node

/-!
# Values of YAML nodes

A quoted scalar is a string.  A plain scalar is a null, a truth value or a number
if it is spelled as one, and a string otherwise.

Integers are decimal, or hexadecimal, octal or binary behind `0x`, `0o`, `0b`.
Digits behind a leading zero are a string.  Integers reach from `-2 ^ 63` to
`2 ^ 64 - 1`.  A greater one is an error as long as it fits 128 bits, and is read
as a floating point number beyond that.  A floating point number is finite or
spelled as an infinity or as no number.

A key may occur once in a mapping.
-/

namespace Fieldbus.Yaml

/-- What a node denotes.  A document with tags is refused before, so no value has one. -/
inductive Value where
  | null
  | bool (on : Bool)
  | int (n : Int)
  | float (x : Binary64)
  | string (text : String)
  | list (items : List Value)
  | table (entries : List (Value × Value))
deriving Repr, Inhabited

/-! ## Numbers -/

/-- The value of a digit in a base. -/
def digitIn (base : Nat) (c : Char) : Option Nat := (hexValue c).filter (· < base)

def numeralIn (base : Nat) : List Char → Option Nat
  | [] => none
  | digits => digits.foldlM (fun acc c => (digitIn base c).map (acc * base + ·)) 0

/-- Digits behind a leading zero. -/
def isPadded : List Char → Bool
  | '0' :: c :: rest => (c :: rest).all Char.isDigit
  | _ => false

/-- An unsigned integer: a numeral behind a base mark, or decimal. -/
def unsigned? : List Char → Option Nat
  | '0' :: 'x' :: digits => numeralIn 16 digits
  | '0' :: 'o' :: digits => numeralIn 8 digits
  | '0' :: 'b' :: digits => numeralIn 2 digits
  | digits => if isPadded digits then none else numeralIn 10 digits

/-- An integer with an optional sign. -/
def integer? : List Char → Option Int
  | '+' :: rest => (unsigned? rest).map fun n => n
  | '-' :: rest => (unsigned? rest).map fun n => -n
  | chars => (unsigned? chars).map fun n => n

/-- The digits of an exponent with an optional sign, to the end. -/
def exponent? : List Char → Option Int
  | '+' :: digits => (numeralIn 10 digits).map fun n => n
  | '-' :: digits => (numeralIn 10 digits).map fun n => -n
  | digits => (numeralIn 10 digits).map fun n => n

/-- An unsigned decimal number: digits with an optional point, at least one of them, and an
optional exponent. -/
def decimal? (negative : Bool) (chars : List Char) : Option Binary64 := do
  let whole := chars.takeWhile Char.isDigit
  let rest := chars.dropWhile Char.isDigit
  let (fraction, rest) := match rest with
    | '.' :: after => (after.takeWhile Char.isDigit, after.dropWhile Char.isDigit)
    | _ => ([], rest)
  let digits ← numeralIn 10 (whole ++ fraction)
  let exponent ← match rest with
    | [] => some 0
    | c :: after => if c = 'e' ∨ c = 'E' then exponent? after else none
  return .ofDecimal negative digits (exponent - fraction.length)

def float? (text : String) : Option Binary64 :=
  let signed (negative : Bool) (rest : List Char) : Option Binary64 :=
    if [".inf", ".Inf", ".INF"].contains (String.ofList rest) then some (.infinity negative)
    else (decimal? negative rest).filter Binary64.isFinite
  if [".nan", ".NaN", ".NAN"].contains text then some .nan
  else match text.toList with
    | '+' :: rest => signed false rest
    | '-' :: rest => signed true rest
    | chars => signed false chars

/-! ## Scalars -/

/-- The value of a plain scalar. -/
def plainValue (text : String) : Except Error Value :=
  if ["", "null", "Null", "NULL", "~"].contains text then .ok .null
  else if ["true", "True", "TRUE"].contains text then .ok (.bool true)
  else if ["false", "False", "FALSE"].contains text then .ok (.bool false)
  else
    let other : Value :=
      let unsignedPart := match text.toList with
        | '+' :: rest | '-' :: rest => rest
        | chars => chars
      if isPadded unsignedPart then .string text
      else match float? text with
        | some x => .float x
        | none => .string text
    match integer? text.toList with
    | some n =>
      if -(1 <<< 63 : Nat) ≤ n ∧ n < (1 <<< 64 : Nat) then .ok (.int n)
      else if -(1 <<< 127 : Nat) ≤ n ∧ n < (1 <<< 128 : Nat) then .error .number
      else .ok other
    | none => .ok other

/-! ## Equality of keys -/

mutual

/-- Equality of values.  The two zeros are equal, and every number that is none equals itself.
The order of the entries of a table does not count. -/
def Value.same : Value → Value → Bool
  | .null, .null => true
  | .bool a, .bool b => a == b
  | .int a, .int b => a == b
  | .float a, .float b => a.eq b || (a.isNaN && b.isNaN)
  | .string a, .string b => a == b
  | .list a, .list b => Value.sameItems a b
  | .table a, .table b => a.length == b.length && Value.sameEntries a b
  | _, _ => false

/-- Equality of lists of values. -/
def Value.sameItems : List Value → List Value → Bool
  | [], [] => true
  | a :: as, b :: bs => Value.same a b && Value.sameItems as bs
  | _, _ => false

/-- Whether every entry of one list is in another. -/
def Value.sameEntries : List (Value × Value) → List (Value × Value) → Bool
  | [], _ => true
  | (k, v) :: as, bs =>
    (bs.any fun entry => Value.same k entry.1 && Value.same v entry.2) && Value.sameEntries as bs

end

/-! ## Nodes -/

mutual

def Node.value : Node → Except Error Value
  | .scalar text plain => if plain then plainValue text else .ok (.string text)
  | .sequence items => (Node.values items).map .list
  | .mapping entries => (Node.entryValues entries).map .table

def Node.values : List Node → Except Error (List Value)
  | [] => .ok []
  | node :: rest => do return (← node.value) :: (← Node.values rest)

/-- The values of entries with distinct keys. -/
def Node.entryValues : List (Node × Node) → Except Error (List (Value × Value))
  | [] => .ok []
  | (key, value) :: rest => do
    let k ← key.value
    let v ← value.value
    let later ← Node.entryValues rest
    if later.any fun entry => k.same entry.1 then .error .duplicateKey
    else return (k, v) :: later

end

mutual

/-- The depth of collections in a node. -/
def Node.depth : Node → Nat
  | .scalar .. => 0
  | .sequence items => Node.depths items + 1
  | .mapping entries => Node.entryDepths entries + 1

/-- The greatest depth of nodes. -/
def Node.depths : List Node → Nat
  | [] => 0
  | node :: rest => max node.depth (Node.depths rest)

/-- The greatest depth of entries. -/
def Node.entryDepths : List (Node × Node) → Nat
  | [] => 0
  | (key, value) :: rest => max (max key.depth value.depth) (Node.entryDepths rest)

end

/-! ## Reading values -/

namespace Value

def field? (entries : List (Value × Value)) (key : String) : Option Value :=
  (entries.find? fun entry => entry.1.same (.string key)).map Prod.snd

/-- A natural number up to a bound. -/
def nat? (bound : Nat) : Value → Option Nat
  | .int n => if 0 ≤ n ∧ n ≤ bound then some n.toNat else none
  | _ => none

def double? : Value → Option Binary64
  | .int n => some (.ofInt n)
  | .float x => some x
  | _ => none

def string? : Value → Option String
  | .string text => some text
  | _ => none

def bool? : Value → Option Bool
  | .bool on => some on
  | _ => none

/-- A list; no value is read as no items. -/
def list? : Value → Option (List Value)
  | .null => some []
  | .list items => some items
  | _ => none

/-- Entries under texts as keys; no value is read as no entries. -/
def record? : Value → Option (List (Value × Value))
  | .null => some []
  | .table entries => if entries.all fun entry => entry.1.string?.isSome then some entries else none
  | _ => none

end Value

end Fieldbus.Yaml
