/-!
# Characters of YAML documents

A document is printable text.  Five characters end a line, and a carriage return
with a line feed ends one line and not two.  Three of the five, and the pair, are
written in several ways and mean the same, so a text is brought to one of them
before it is read: `unifyBreaks` leaves line feeds, line separators and paragraph
separators.

A byte order mark is a character like any other, except at the start of a line.
-/

namespace Fieldbus.Yaml

/-- Whether a character may occur in a document. -/
def isPrintable (c : Char) : Bool :=
  let n := c.toNat
  n = 0x09 || n = 0x0A || n = 0x0D || (0x20 ≤ n && n ≤ 0x7E) || n = 0x85 ||
    (0xA0 ≤ n && n ≤ 0xFFFD) || 0x10000 ≤ n

def nextLine : Char := Char.ofNat 0x85

/-- The byte order mark. -/
def byteOrderMark : Char := Char.ofNat 0xFEFF

/-- A text with one kind of line feed. -/
def unifyBreaks : List Char → List Char
  | '\r' :: '\n' :: rest => '\n' :: unifyBreaks rest
  | c :: rest => (if c = '\r' || c = nextLine then '\n' else c) :: unifyBreaks rest
  | [] => []

/-- Whether a character ends a line, once there is one kind of line feed. -/
def isBreak (c : Char) : Bool := c = '\n' || c.toNat = 0x2028 || c.toNat = 0x2029

/-- Whether a character separates words. -/
def isBlank (c : Char) : Bool := c = ' ' || c = '\t'

/-- Whether a character has a meaning in brackets. -/
def isFlowMark (c : Char) : Bool := c = ',' || c = '[' || c = ']' || c = '{' || c = '}'

/-- Whether what follows separates: a blank, the end of the line or of the text. -/
def endsWord : List Char → Bool
  | [] => true
  | c :: _ => isBlank c || isBreak c

/-- A place in a text. -/
structure Place where
  /-- The line, from zero. -/
  line : Nat := 0
  /-- The column, from zero. -/
  column : Nat := 0
deriving DecidableEq, Repr

/-- The place after a character of the same line. -/
def Place.next (p : Place) : Place := { p with column := p.column + 1 }

/-- The place after so many characters of the same line. -/
def Place.skip (p : Place) (n : Nat) : Place := { p with column := p.column + n }

def Place.newLine (p : Place) : Place := ⟨p.line + 1, 0⟩

def Place.after (p : Place) (c : Char) : Place := if isBreak c then p.newLine else p.next

/-- Whether a marker of a document, three times a character, stands at the start of a line. -/
def startsMarker (mark : Char) (p : Place) : List Char → Bool
  | a :: b :: c :: rest => p.column = 0 && a = mark && b = mark && c = mark && endsWord rest
  | _ => false

/-- Whether a document starts or ends at a place. -/
def isMarker (p : Place) (chars : List Char) : Bool :=
  startsMarker '-' p chars || startsMarker '.' p chars

end Fieldbus.Yaml
