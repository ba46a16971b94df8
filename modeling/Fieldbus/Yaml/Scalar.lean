import Fieldbus.Yaml.Character
import Fieldbus.Yaml.Error

/-!
# Scalars

A scalar is plain, single quoted or double quoted.  It may go on over several
lines.  What stands between two of its words is a gap, and a gap is read as text
of its own:

* blanks on one line stand for themselves;
* one line feed is a space, and more of them are all but the first;
* a line separator or paragraph separator in front is kept, with what follows it;
* after a backslash at the end of a line only further line ends count.

The blanks around a line end never count.  A gap at the end of a plain scalar is
none of its text.
-/

namespace Fieldbus.Yaml

/-! ## Gaps -/

/-- What was passed since the last word. -/
inductive Gap where
  | blanks (chars : List Char)
  /-- Line ends, at least one. -/
  | lines (chars : List Char)
  /-- Line ends after one that is escaped. -/
  | joined (chars : List Char)
deriving DecidableEq, Repr

namespace Gap

def empty : Gap := .blanks []

/-- The gap with one more blank or line end. -/
def add (c : Char) : Gap → Gap
  | blanks cs => if isBreak c then lines [c] else blanks (cs ++ [c])
  | lines cs => lines (if isBreak c then cs ++ [c] else cs)
  | joined cs => joined (if isBreak c then cs ++ [c] else cs)

/-- Whether a gap reaches into another line. -/
def isBroken : Gap → Bool
  | blanks _ => false
  | lines _ | joined _ => true

/-- The text of a gap between two words. -/
def text : Gap → List Char
  | blanks cs => cs
  | lines ['\n'] => [' ']
  | lines ('\n' :: cs) => cs
  | lines cs => cs
  | joined cs => cs

end Gap

/-- A scalar that was read. -/
structure Run where
  text : List Char
  rest : List Char
  place : Place
  /-- Whether it ends on a line after its last word. -/
  isBroken : Bool := false
deriving Repr

def Run.behind (text : List Char) (r : Run) : Run := { r with text := text ++ r.text }

/-! ## Plain scalars -/

/-- Whether a colon with something after it is refused in brackets. -/
def isColonBeforeMark : List Char → Bool
  | ':' :: c :: _ => isFlowMark c || c = '?'
  | _ => false

/-- Whether a plain scalar ends in front of a character that separates nothing. -/
def endsPlain (inFlow : Bool) (indent : Nat) (gap : Gap) (p : Place) (chars : List Char) : Bool :=
  (gap ≠ .empty && ((!inFlow && p.column < indent) || isMarker p chars || chars.head? = some '#')) ||
    match chars with
    | ':' :: rest => endsWord rest
    | c :: _ => inFlow && isFlowMark c
    | [] => true

/-- A plain scalar.  Outside brackets its lines are indented, and a tab does not indent. -/
def plainRun (inFlow : Bool) (indent : Nat) : Gap → Place → List Char → Except Error Run
  | gap, p, [] => .ok ⟨[], [], p, gap.isBroken⟩
  | gap, p, c :: rest =>
    if isBlank c || isBreak c then
      if gap.isBroken && c = '\t' && p.column < indent then .error (.tab p.line)
      else plainRun inFlow indent (gap.add c) (p.after c) rest
    else if endsPlain inFlow indent gap p (c :: rest) then .ok ⟨[], c :: rest, p, gap.isBroken⟩
    else if inFlow && isColonBeforeMark (c :: rest) then .error (.colon p.line)
    else (plainRun inFlow indent .empty p.next rest).map (.behind (gap.text ++ [c]))

/-! ## Quoted scalars -/

/-- A single quoted scalar after its first quote.  A quote in it is written twice. -/
def singleQuoted : Gap → Place → List Char → Option Run
  | gap, p, '\'' :: '\'' :: rest =>
    (singleQuoted .empty p.next.next rest).map (.behind (gap.text ++ ['\'']))
  | gap, p, '\'' :: rest => some ⟨gap.text, rest, p.next, false⟩
  | gap, p, c :: rest =>
    if isBlank c || isBreak c then singleQuoted (gap.add c) (p.after c) rest
    else if isMarker p (c :: rest) then none
    else (singleQuoted .empty p.next rest).map (.behind (gap.text ++ [c]))
  | _, _, [] => none

def hexValue (c : Char) : Option Nat :=
  if '0' ≤ c ∧ c ≤ '9' then some (c.toNat - 48)
  else if 'a' ≤ c ∧ c ≤ 'f' then some (c.toNat - 87)
  else if 'A' ≤ c ∧ c ≤ 'F' then some (c.toNat - 55)
  else none

/-- The character with a hexadecimal code. -/
def hexChar (digits : List Char) : Option Char := do
  let code ← digits.foldlM (fun acc c => (hexValue c).map (acc * 16 + ·)) 0
  if code < 0xD800 ∨ 0xDFFF < code ∧ code ≤ 0x10FFFF then some (Char.ofNat code) else none

/-- The character that an escape of one letter stands for. -/
def escaped : Char → Option Char
  | '0' => some (Char.ofNat 0)
  | 'a' => some (Char.ofNat 7)
  | 'b' => some (Char.ofNat 8)
  | 't' | '\t' => some '\t'
  | 'n' => some '\n'
  | 'v' => some (Char.ofNat 11)
  | 'f' => some (Char.ofNat 12)
  | 'r' => some '\r'
  | 'e' => some (Char.ofNat 27)
  | ' ' => some ' '
  | '"' => some '"'
  | '/' => some '/'
  | '\\' => some '\\'
  | 'N' => some nextLine
  | '_' => some (Char.ofNat 0xA0)
  | 'L' => some (Char.ofNat 0x2028)
  | 'P' => some (Char.ofNat 0x2029)
  | _ => none

/-- A double quoted scalar after its first quote. -/
def doubleQuoted : Gap → Place → List Char → Option Run
  | gap, p, '"' :: rest => some ⟨gap.text, rest, p.next, false⟩
  | gap, p, '\\' :: 'x' :: a :: b :: rest => afterCode gap (p.skip 4) [a, b] rest
  | gap, p, '\\' :: 'u' :: a :: b :: c :: d :: rest =>
    afterCode gap (p.skip 6) [a, b, c, d] rest
  | gap, p, '\\' :: 'U' :: a :: b :: c :: d :: e :: f :: g :: h :: rest =>
    afterCode gap (p.skip 10) [a, b, c, d, e, f, g, h] rest
  | gap, p, '\\' :: letter :: rest =>
    if isBreak letter then (doubleQuoted (.joined []) p.newLine rest).map (.behind gap.text)
    else do
      let c ← escaped letter
      (doubleQuoted .empty (p.skip 2) rest).map (.behind (gap.text ++ [c]))
  | gap, p, c :: rest =>
    if isBlank c || isBreak c then doubleQuoted (gap.add c) (p.after c) rest
    else if c = '\\' || isMarker p (c :: rest) then none
    else (doubleQuoted .empty p.next rest).map (.behind (gap.text ++ [c]))
  | _, _, [] => none
where
  /-- The scalar after an escape with a code. -/
  afterCode (gap : Gap) (p : Place) (digits rest : List Char) : Option Run := do
    let c ← hexChar digits
    (doubleQuoted .empty p rest).map (.behind (gap.text ++ [c]))

end Fieldbus.Yaml
