import Fieldbus.Log.Disk
import Fieldbus.Log.Record
import Fieldbus.Log.SegmentName

/-!
# The log writer

The writer keeps one segment open for each channel.  A record goes to the
segment of its channel and its own day.  If that day is not the day of the open
segment, the newest segment of the day is opened, and if the line does not fit
below the size ceiling, the next one.  An empty segment takes any line.

The path of the open segment is published before the line is written, so that
retention can leave the segment alone.

An append has three steps, `Writer.target`, `Writer.publish` and
`Writer.writeLine`, and each may fail.  `Trouble` says where the disk fails
besides where its tree makes it fail.  A failure costs the record.
-/

namespace Fieldbus.Log

/-- A segment that is open for appending. -/
structure Segment.Open where
  day : Date
  /-- Numbers have 32 bits.  Each is opened behind a segment with the number before, so a disk
  would have to hold 2³² segments of one day to run out of them. -/
  number : Nat
  path : Path
  file : Nat
  /-- The size of the file as the writer counts it.  A disk has no room for 2⁶⁴ bytes. -/
  size : Nat
deriving DecidableEq, Repr

/-- Where the disk fails an append. -/
inductive Trouble where
  | folder
  /-- When the newest segment of the day is opened. -/
  | opening
  /-- When the next segment is opened. -/
  | rotating
  /-- After a number of characters of the line.  A write that ends inside a character of more
  than one byte is not covered. -/
  | writing (written : Nat)
deriving DecidableEq, Repr

/-- A log writer. -/
structure Writer where
  policies : Table UInt16 LogPolicy := {}
  segments : Table UInt16 Segment.Open := {}
  /-- The published path of each channel's open segment. -/
  active : Table UInt16 Path := {}
deriving Repr

namespace Writer

def policy (w : Writer) (channel : UInt16) : LogPolicy := (w.policies.get? channel).getD {}

def segmentPath (channel : UInt16) (day : Date) (number : Nat) : Path :=
  channelFolder channel ++ [Segment.name day channel number]

/-! ## Opening segments -/

/-- Opens a segment with the size that its file has.  The size of an open file can always be had
here.  A segment whose size cannot be had would count as empty. -/
def openNumber (disk : Disk) (channel : UInt16) (day : Date) (number : Nat) :
    Option (Disk × Segment.Open) :=
  let path := segmentPath channel day number
  (disk.openAppend? path).map fun (disk, file) =>
    (disk, ⟨day, number, path, file, (disk.content file).size⟩)

/-- The greatest number up to which every segment of the day exists, counted from a number on
in at most `fuel` steps. -/
def newestFrom (disk : Disk) (channel : UInt16) (day : Date) : (fuel number : Nat) → Nat
  | 0, number => number
  | fuel + 1, number =>
    if disk.exists? (segmentPath channel day (number + 1)) then
      newestFrom disk channel day fuel (number + 1)
    else number

/-- The number of the newest segment of a day.  There are no more segments than items. -/
def newest (disk : Disk) (channel : UInt16) (day : Date) : Nat :=
  newestFrom disk channel day disk.items.size 0

/-- Opens the newest segment of a day, the first one if there is none. -/
def openNewest (disk : Disk) (channel : UInt16) (day : Date) (trouble : Option Trouble) :
    Disk × Option Segment.Open :=
  if trouble = some .folder then (disk, none)
  else
    let (disk, made) := disk.makeFolders (channelFolder channel)
    if !made || trouble = some .opening then (disk, none)
    else
      match openNumber disk channel day (newest disk channel day) with
      | some (disk, segment) => (disk, some segment)
      | none => (disk, none)

/-! ## The steps of an append -/

/-- Whether a line has to go to the next segment. -/
def overflows (policy : LogPolicy) (segment : Segment.Open) (size : Nat) : Bool :=
  0 < segment.size && policy.maxSegmentBytes < segment.size + size

/-- Finds the segment for a line of a day, and keeps it open. -/
def target (w : Writer) (disk : Disk) (channel : UInt16) (day : Date) (size : Nat)
    (trouble : Option Trouble) : Writer × Disk × Option Segment.Open :=
  let keep (w : Writer) (s : Segment.Open) : Writer :=
    { w with segments := w.segments.insert channel s }
  let (w, disk, current) := match (w.segments.get? channel).filter fun s => s.day = day with
    | some s => (w, disk, some s)
    | none =>
      match openNewest disk channel day trouble with
      | (disk, some s) => (keep w s, disk, some s)
      | (disk, none) => (w, disk, none)
  match current with
  | none => (w, disk, none)
  | some s =>
    if overflows (w.policy channel) s size then
      if trouble = some .rotating then (w, disk, none)
      else
        match openNumber disk channel day (s.number + 1) with
        | some (disk, s) => (keep w s, disk, some s)
        | none => (w, disk, none)
    else (w, disk, some s)

def publish (w : Writer) (channel : UInt16) (s : Segment.Open) : Writer :=
  { w with active := w.active.insert channel s.path }

def writeLine (w : Writer) (disk : Disk) (channel : UInt16) (s : Segment.Open) (line : String)
    (trouble : Option Trouble) : Writer × Disk × Bool :=
  match trouble with
  | some (.writing written) =>
    (w, disk.append s.file (.text (String.ofList (line.toList.take written))), false)
  | _ =>
    let grown := { s with size := s.size + line.utf8ByteSize }
    ({ w with segments := w.segments.insert channel grown },
      disk.append s.file (.text line), true)

/-- Appends a record.  The last component says whether it succeeded. -/
def append (w : Writer) (disk : Disk) (record : Record) (trouble : Option Trouble := none) :
    Writer × Disk × Bool :=
  let channel := record.channel
  let line := record.line (w.policy channel).level
  match w.target disk channel record.time.date line.utf8ByteSize trouble with
  | (w, disk, none) => (w, disk, false)
  | (w, disk, some s) => (w.publish channel s).writeLine disk channel s line trouble

/-! ## Draining a queue -/

/-- The writer after it has dropped what it knows of a channel's segment. -/
def forget (w : Writer) (channel : UInt16) : Writer :=
  { w with segments := w.segments.erase channel, active := w.active.erase channel }

/-- Appends a record and drops the segment if that fails. -/
def handle (w : Writer) (disk : Disk) (record : Record) (trouble : Option Trouble := none) :
    Writer × Disk :=
  match w.append disk record trouble with
  | (w, disk, true) => (w, disk)
  | (w, disk, false) => (w.forget record.channel, disk)

/-- Handles records in order, each with where the disk fails it. -/
def runWith (w : Writer) (disk : Disk) : List (Record × Option Trouble) → Writer × Disk
  | [] => (w, disk)
  | (record, trouble) :: rest =>
    let (w, disk) := w.handle disk record trouble
    w.runWith disk rest

/-- Handles records in order on a disk that fails where its tree makes it fail only. -/
def run (w : Writer) (disk : Disk) (records : List Record) : Writer × Disk :=
  w.runWith disk (records.map fun r => (r, none))

def reopen (w : Writer) : Writer := { policies := w.policies }

end Writer

end Fieldbus.Log
