import Fieldbus.Text.Blank

/-!
# Calendar days and instants

A day of the proleptic Gregorian calendar is a year, a month and a day of the
month.  Instants count microseconds from the start of 1970, in either direction.

Days are counted along the calendar in two ways.  `Date.ordinal` adds up the
days before a date, and `Date.ofOrdinal` takes a count apart into cycles of 400
years, centuries, four years and years.

A date is written as digits without separators, year, month, day.  Reading
allows blanks before each number and a signed year, and refuses a day that the
calendar does not have.
-/

namespace Fieldbus

/-! ## Days -/

/-- A day of the calendar. -/
structure Date where
  /-- The year, which may be zero or below. -/
  year : Int
  /-- The month, from one. -/
  month : Nat
  /-- The day of the month, from one. -/
  day : Nat
deriving DecidableEq, Repr

namespace Date

def isLeap (year : Int) : Bool := year % 4 = 0 && (year % 100 ≠ 0 || year % 400 = 0)

def daysInMonth (year : Int) (month : Nat) : Nat :=
  match month with
  | 2 => if isLeap year then 29 else 28
  | 4 | 6 | 9 | 11 => 30
  | _ => 31

def isValid (d : Date) : Bool :=
  1 ≤ d.month && d.month ≤ 12 && 1 ≤ d.day && d.day ≤ daysInMonth d.year d.month

def daysBeforeMonth (year : Int) (month : Nat) : Nat :=
  (List.range (month - 1)).foldl (fun n m => n + daysInMonth year (m + 1)) 0

/-- The days from the start of year one to the start of a year. -/
def daysBeforeYear (year : Int) : Int :=
  let y := year - 1
  365 * y + y / 4 - y / 100 + y / 400

/-- The days from the start of year one to the start of 1970. -/
def epochOrdinal : Int := 719162

/-- The days from the start of 1970 to the date. -/
def ordinal (d : Date) : Int :=
  daysBeforeYear d.year + daysBeforeMonth d.year d.month + d.day - 1 - epochOrdinal

/-- The month and the day of the month, of a day of a year that counts from zero. -/
def monthAndDay (year : Int) : (months month rest : Nat) → Nat × Nat
  | 0, month, rest => (month, rest + 1)
  | months + 1, month, rest =>
    let days := daysInMonth year month
    if rest < days then (month, rest + 1) else monthAndDay year months (month + 1) (rest - days)

/-- The date with a number of days from the start of 1970. -/
def ofOrdinal (ordinal : Int) : Date :=
  let n := ordinal + epochOrdinal
  let cycle := n / 146097
  let inCycle := (n % 146097).toNat
  let century := min 3 (inCycle / 36524)
  let inCentury := inCycle - century * 36524
  let four := min 24 (inCentury / 1461)
  let inFour := inCentury - four * 1461
  let single := min 3 (inFour / 365)
  let year := 400 * cycle + 100 * (century : Int) + 4 * four + single + 1
  let (month, day) := monthAndDay year 11 1 (inFour - single * 365)
  ⟨year, month, day⟩

example : (ofOrdinal 0, ofOrdinal (-1)) = (⟨1970, 1, 1⟩, ⟨1969, 12, 31⟩) := by decide
example : ofOrdinal (ordinal ⟨2000, 2, 29⟩) = ⟨2000, 2, 29⟩ := by decide
example : ofOrdinal (ordinal ⟨9999, 12, 31⟩) = ⟨9999, 12, 31⟩ := by decide
example : ofOrdinal (ordinal ⟨-1, 3, 1⟩) = ⟨-1, 3, 1⟩ := by decide

/-! ## Digits -/

/-- The last `width` decimal digits of a number. -/
def digits : (width n : Nat) → List Char
  | 0, _ => []
  | width + 1, n => digits width (n / 10) ++ [Nat.digitChar (n % 10)]

/-- A year as digits, at least four.  A year outside zero to 9999 has a sign. -/
def yearDigits (year : Int) : List Char :=
  let n := year.natAbs
  let body := digits (max 4 (Nat.toDigits 10 n).length) n
  if year < 0 then '-' :: body else if 9999 < year then '+' :: body else body

def compact (d : Date) : List Char := yearDigits d.year ++ digits 2 d.month ++ digits 2 d.day

/-- The value of decimal digits. -/
def digitsValue (cs : List Char) : Nat := cs.foldl (fun n c => 10 * n + (c.toNat - 48)) 0

/-- Between one and `width` digits, after blanks, and what follows them. -/
def readNumber (width : Nat) (cs : List Char) : Option (Nat × List Char) :=
  let body := cs.dropWhile Text.isBlankChar
  let run := (body.take width).takeWhile Char.isDigit
  if run.isEmpty then none else some (digitsValue run, body.drop run.length)

/-- A year, after blanks.  Without a sign it has at most four digits. -/
def readYear (cs : List Char) : Option (Int × List Char) :=
  match cs.dropWhile Text.isBlankChar with
  | '-' :: rest =>
    if rest.head?.any Char.isDigit then
      (readNumber rest.length rest).map fun (n, rest) => (-(n : Int), rest)
    else none
  | '+' :: rest =>
    if rest.head?.any Char.isDigit then
      (readNumber rest.length rest).map fun (n, rest) => ((n : Int), rest)
    else none
  | body => (readNumber 4 body).map fun (n, rest) => ((n : Int), rest)

/-- The date that is written without separators. -/
def ofCompact? (cs : List Char) : Option Date := do
  let (year, rest) ← readYear cs
  let (month, rest) ← readNumber 2 rest
  let (day, rest) ← readNumber 2 rest
  let date : Date := ⟨year, month, day⟩
  if rest.isEmpty && date.isValid then some date else none

/-- What follows a dash. -/
def afterDash : List Char → Option (List Char)
  | '-' :: rest => some rest
  | _ => none

/-- The date that is written with dashes between its numbers. -/
def ofDashed? (cs : List Char) : Option Date := do
  let (year, rest) ← readYear cs
  let (month, rest) ← readNumber 2 (← afterDash rest)
  let (day, rest) ← readNumber 2 (← afterDash rest)
  let date : Date := ⟨year, month, day⟩
  if rest.isEmpty && date.isValid then some date else none

example : ofCompact? (compact ⟨2026, 10, 5⟩) = some ⟨2026, 10, 5⟩ := by decide
example : ofCompact? "20260230".toList = none := by decide +kernel
example : ofDashed? "-0001-02-03".toList = some ⟨-1, 2, 3⟩ := by decide +kernel

end Date

/-! ## Instants -/

/-- Microseconds since the start of 1970. -/
abbrev Instant := Int

namespace Instant

def microsPerDay : Int := 86400000000

def date (t : Instant) : Date := .ofOrdinal (Int.fdiv t microsPerDay)

/-- The date and the time of day, cut to milliseconds. -/
def text (t : Instant) : String :=
  let d := date t
  let ms := (Int.fmod t microsPerDay / 1000).toNat
  String.ofList <| Date.yearDigits d.year ++ '-' :: Date.digits 2 d.month ++
    '-' :: Date.digits 2 d.day ++ 'T' :: Date.digits 2 (ms / 3600000) ++
    ':' :: Date.digits 2 (ms / 60000 % 60) ++ ':' :: Date.digits 2 (ms / 1000 % 60) ++
    '.' :: Date.digits 3 (ms % 1000) ++ ['Z']

end Instant

end Fieldbus
