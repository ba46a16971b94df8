import Fieldbus.Table

/-!
# The log's disk

The log lives in a tree of folders and files below one root.  A path names an
item, and a file is a number under which its content is kept.  So a file that is
open can be written after its path is gone: what is written then is in no path.

An archive is a file of members, each the compressed form of a text.  Unpacking
concatenates the members and fails if anything else is in the file, such as a
member that was cut short.
-/

namespace Fieldbus.Log

/-! ## Contents -/

/-- A stretch of a file. -/
inductive Piece where
  | text (s : String)
  /-- A text in compressed form. -/
  | packed (s : String)
  /-- The compressed form of a text, cut short. -/
  | torn (s : String)
deriving DecidableEq, Repr

/-- What is in a file. -/
abbrev Content := List Piece

namespace Content

/-- The plain text of a file. -/
def plain (c : Content) : String :=
  String.join (c.map fun
    | .text s => s
    | _ => "")

/-- The size of a file of plain text, in bytes. -/
def size (c : Content) : Nat := (plain c).utf8ByteSize

/-- The text of a piece of an archive, unless it is no whole member. -/
def member? : Piece → Option String
  | .packed s => some s
  | .text "" => some ""
  | _ => none

/-- The text of an archive.  A file without members is no archive. -/
def unpack? (c : Content) : Option String :=
  if c.any fun piece => piece matches .packed _ then (c.mapM member?).map String.join else none

end Content

/-! ## The tree -/

/-- Names from the root down. -/
abbrev Path := List String

def channelFolder (channel : UInt16) : Path := [toString channel.toNat]

/-- What a path names. -/
inductive Item where
  | folder
  | file (number : Nat)
deriving DecidableEq, Repr

/-- Folders and files below a root. -/
structure Disk where
  items : Table Path Item := {}
  /-- The contents of files, those without a path included. -/
  contents : Table Nat Content := {}
  next : Nat := 0
deriving Repr

namespace Disk

/-- The item at a path.  The root is a folder. -/
def item? (d : Disk) (path : Path) : Option Item :=
  if path = [] then some .folder else d.items.get? path

def exists? (d : Disk) (path : Path) : Bool := (d.item? path).isSome

def content (d : Disk) (file : Nat) : Content := (d.contents.get? file).getD []

/-- The content at a path, if it names a file. -/
def contentAt? (d : Disk) (path : Path) : Option Content :=
  match d.item? path with
  | some (.file n) => some (d.content n)
  | _ => none

/-- Makes a folder and those above it, from one that exists on.  A file in the way makes
it fail, with the folders made so far. -/
def makeFoldersFrom (d : Disk) (above : Path) : List String → Disk × Bool
  | [] => (d, true)
  | name :: rest =>
    let path := above ++ [name]
    match d.item? path with
    | some .folder => d.makeFoldersFrom path rest
    | some (.file _) => (d, false)
    | none => { d with items := d.items.insert path .folder }.makeFoldersFrom path rest

/-- Makes a folder and those above it. -/
def makeFolders (d : Disk) (path : Path) : Disk × Bool := d.makeFoldersFrom [] path

/-- Opens a file for appending, a new one if the path names nothing.  A folder at the path,
or none above it, makes it fail. -/
def openAppend? (d : Disk) (path : Path) : Option (Disk × Nat) :=
  match d.item? path with
  | some (.file n) => some (d, n)
  | some .folder => none
  | none =>
    if d.item? path.dropLast = some .folder then
      some ({ d with items := d.items.insert path (.file d.next), next := d.next + 1 }, d.next)
    else none

/-- The disk after a piece is appended to a file. -/
def append (d : Disk) (file : Nat) (piece : Piece) : Disk :=
  { d with contents := d.contents.insert file (d.content file ++ [piece]) }

/-- The disk after a file's content is replaced. -/
def setContent (d : Disk) (file : Nat) (content : Content) : Disk :=
  { d with contents := d.contents.insert file content }

/-- Takes the path of a file away.  A folder stays. -/
def removeFile? (d : Disk) (path : Path) : Option Disk :=
  match d.item? path with
  | some (.file _) => some { d with items := d.items.erase path }
  | _ => none

def namesIn (d : Disk) (folder : Path) : List String :=
  d.items.keys.filterMap fun path =>
    if path.dropLast = folder then path.getLast? else none

/-- Puts a text at a path, with the folders above it. -/
def put (d : Disk) (path : Path) (text : String) : Disk :=
  let (d, _) := d.makeFolders path.dropLast
  match d.openAppend? path with
  | some (d, file) => d.setContent file [.text text]
  | none => d

/-- The items as text, folders with a slash behind, in the order of the texts. -/
def listing (d : Disk) : List (String × Option Content) :=
  let entries := d.items.entries.map fun (path, item) =>
    match item with
    | .folder => (String.intercalate "/" path ++ "/", none)
    | .file n => (String.intercalate "/" path, some (d.content n))
  entries.mergeSort fun a b => a.1 ≤ b.1

end Disk

end Fieldbus.Log
