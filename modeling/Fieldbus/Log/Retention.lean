import Fieldbus.Channel.Basic
import Fieldbus.Log.Disk
import Fieldbus.Log.SegmentName

/-!
# Log retention

A sweep goes over the names in a channel's folder.  Segments and archives that
are older than the retention window are deleted, and closed segments past the
compression age are moved to their archives.  The age is counted from the day in
the name.  The segment that the writer holds open is left alone, and so is every
name that is not one of the channel's.

A segment that grows again after it was compressed becomes one more member of its
archive.
-/

namespace Fieldbus.Log

/-! ## Compression -/

/-- Where the disk fails a compression. -/
inductive PackTrouble where
  /-- When the segment is read, after a number of characters.  The member is finished with
  what was read.  Reading that ends inside a character of more than one byte is not covered. -/
  | reading (read : Nat)
  | opening
  /-- When the member is written, before anything of it. -/
  | full
  /-- When the member is written, after a part of it. -/
  | writing
  /-- When the segment is taken away. -/
  | removing
deriving DecidableEq, Repr

def archivePath (path : Path) : Path :=
  path.dropLast ++ (path.getLast?.map Segment.archiveName).toList

/-- Appends a segment's text to its archive.  Reading a folder fails at its first
character. -/
def pack (disk : Disk) (path : Path) (trouble : Option PackTrouble := none) : Disk × Bool :=
  let source := disk.contentAt? path
  if !disk.exists? path || trouble = some .opening then (disk, false)
  else
    match disk.openAppend? (archivePath path), source, trouble with
    | none, _, _ => (disk, false)
    | some (disk, archive), none, _ => (disk.append archive (.packed ""), false)
    | some (disk, archive), some content, some (.reading read) =>
      let text := String.ofList (content.plain.toList.take read)
      (disk.append archive (.packed text), false)
    | some (disk, _), some _, some .full => (disk, false)
    | some (disk, archive), some content, some .writing =>
      (disk.append archive (.torn content.plain), false)
    | some (disk, archive), some content, _ => (disk.append archive (.packed content.plain), true)

/-- Moves a segment to its archive. -/
def compress (disk : Disk) (path : Path) (trouble : Option PackTrouble := none) : Disk × Bool :=
  match pack disk path trouble with
  | (disk, false) => (disk, false)
  | (disk, true) =>
    if trouble = some .removing then (disk, false)
    else
      match disk.removeFile? path with
      | some disk => (disk, true)
      | none => (disk, false)

/-! ## What to do with a name -/

/-- What a sweep does with a name. -/
inductive Sweeping where
  /-- Leaves it alone. -/
  | keep
  | delete
  /-- Moves it to its archive. -/
  | compress
deriving DecidableEq, Repr

/-- What a policy asks for a segment or an archive of a day. -/
def LogPolicy.sweeping (policy : LogPolicy) (today day : Date) (archived : Bool) : Sweeping :=
  let age := today.ordinal - day.ordinal
  if policy.retentionDays < age then .delete
  else if !archived && 0 < age && policy.compressAfterDays.any fun after => after ≤ age then
    .compress
  else .keep

/-- What a sweep does with a name in a channel's folder, where one path is left alone. -/
def sweepingOf (channel : UInt16) (policy : LogPolicy) (today : Date) (active : Option Path)
    (path : Path) (name : String) : Sweeping :=
  match Segment.parseName? channel name with
  | none => .keep
  | some (day, archived) =>
    if active = some path then .keep else LogPolicy.sweeping policy today day archived

/-! ## Sweeps -/

/-- What a sweep did. -/
structure SweepReport where
  deleted : Nat := 0
  compressed : Nat := 0
deriving DecidableEq, Repr

/-- Sweeps names of a folder in order.  The first failure ends the sweep. -/
def sweepNames (channel : UInt16) (policy : LogPolicy) (today : Date) (active : Option Path)
    (folder : Path) (disk : Disk) (report : SweepReport) :
    List String → Disk × Option SweepReport
  | [] => (disk, some report)
  | name :: rest =>
    let path := folder ++ [name]
    match sweepingOf channel policy today active path name with
    | .keep => sweepNames channel policy today active folder disk report rest
    | .delete =>
      match disk.removeFile? path with
      | none => (disk, none)
      | some disk =>
        sweepNames channel policy today active folder disk
          { report with deleted := report.deleted + 1 } rest
    | .compress =>
      match compress disk path with
      | (disk, false) => (disk, none)
      | (disk, true) =>
        sweepNames channel policy today active folder disk
          { report with compressed := report.compressed + 1 } rest

/-- Sweeps the folder of a channel.  A missing folder has nothing to sweep. -/
def sweep (disk : Disk) (channel : UInt16) (policy : LogPolicy) (today : Date)
    (active : Option Path) : Disk × Option SweepReport :=
  let folder := channelFolder channel
  match disk.item? folder with
  | none => (disk, some {})
  | some (.file _) => (disk, none)
  | some .folder =>
    sweepNames channel policy today active folder disk {} (disk.namesIn folder)

/-- Sweeps every channel that has a policy.  A failure ends the sweep of its channel only. -/
def sweepAll (disk : Disk) (policies : Table UInt16 LogPolicy) (active : Table UInt16 Path)
    (today : Date) : Disk :=
  policies.entries.foldl (fun disk (channel, policy) =>
    (sweep disk channel policy today (active.get? channel)).1) disk

end Fieldbus.Log
