import Fieldbus.Calendar

/-!
# Names of log segments

A segment is named by its day, its channel and its number.  The first segment of
a day has no number, and the later ones count from one.  An archive has the name
of its segment and one more extension.

`Segment.parseName?` reads a name for one channel.  It accepts the names that
`Segment.nameChars` makes for that channel and refuses those of any other.
-/

namespace Fieldbus.Log.Segment

def extension : List Char := ".log".toList

/-- The extension that an archive has behind that of its segment. -/
def archiveExtension : List Char := ".gz".toList

/-- What stands between the day and the number. -/
def channelMark (channel : UInt16) : List Char := "_ch".toList ++ Nat.toDigits 10 channel.toNat

def nameChars (day : Date) (channel : UInt16) (number : Nat) : List Char :=
  day.compact ++ channelMark channel ++
    (if number = 0 then [] else '.' :: Nat.toDigits 10 number) ++ extension

def name (day : Date) (channel : UInt16) (number : Nat) : String :=
  String.ofList (nameChars day channel number)

def archiveName (name : String) : String := name ++ ".gz"

/-- The first characters that take a number of bytes, and the rest, if a character ends
there. -/
def splitAtBytes? : (bytes : Nat) → List Char → Option (List Char × List Char)
  | bytes, [] => if bytes = 0 then some ([], []) else none
  | bytes, c :: cs =>
    if bytes = 0 then some ([], c :: cs)
    else if c.utf8Size ≤ bytes then
      (splitAtBytes? (bytes - c.utf8Size) cs).map fun (first, rest) => (c :: first, rest)
    else none

/-- Whether the rest of a name is empty or a dot and digits. -/
def isNumberPart : List Char → Bool
  | [] => true
  | '.' :: ds => !ds.isEmpty && ds.all Char.isDigit
  | _ => false

/-- The day of a segment's name without extensions, if it belongs to the channel. -/
def parseStem? (channel : UInt16) (stem : List Char) : Option Date := do
  let (date, rest) ← splitAtBytes? 8 stem
  let day ← Date.ofCompact? date
  let rest ← (channelMark channel).isPrefixOf? rest
  if isNumberPart rest then some day else none

/-- The day of a segment or an archive of the channel, and whether it is an archive. -/
def parseChars? (channel : UInt16) (name : List Char) : Option (Date × Bool) :=
  let (plain, archived) := match archiveExtension.isSuffixOf? name with
    | some plain => (plain, true)
    | none => (name, false)
  (extension.isSuffixOf? plain).bind fun stem =>
    (parseStem? channel stem).map fun day => (day, archived)

/-- The day of a segment or an archive of the channel, and whether it is an archive. -/
def parseName? (channel : UInt16) (name : String) : Option (Date × Bool) :=
  parseChars? channel name.toList

example : parseChars? 7 (nameChars ⟨2026, 10, 15⟩ 7 3) = some (⟨2026, 10, 15⟩, false) := by
  decide +kernel
example : parseChars? 7 (nameChars ⟨2026, 10, 15⟩ 77 0) = none := by decide +kernel

end Fieldbus.Log.Segment
