import Fieldbus.Calendar
import Fieldbus.Log.Disk

/-!
# Walks over the log's disk

A text names a place on the disk by the strides of a walk from the root, with
slashes between them.  An empty stride and a dot stay, two dots go up, and every
other stride goes down to the name that it is.  A stride starts from a folder, so
a walk ends early at a file or at nothing.  A walk that starts with a slash or
goes above the root leaves the disk.

`Disk.follow` makes the folders that a walk lacks.  It makes them stride by
stride, so a folder that the walk leaves again is made as well.
-/

namespace Fieldbus.Log

/-! ## Strides -/

/-- One stride of a walk. -/
inductive Stride where
  /-- Stays in the folder. -/
  | stay
  /-- Goes to the folder above. -/
  | up
  | down (name : String)
deriving DecidableEq, Repr

/-- The stride that a text between slashes means. -/
def Stride.ofText (text : String) : Stride :=
  if text = "" ∨ text = "." then .stay else if text = ".." then .up else .down text

/-- Whether a text can be the name of an item. -/
def isName (text : String) : Bool := text.utf8ByteSize ≤ 255

/-- The strides of a text.  A text that starts with a slash or holds the character zero is no
walk over the disk. -/
def strides? (text : String) : Option (List Stride) :=
  if text.startsWith "/" || text.any (· = '\x00') then none
  else some ((text.splitOn "/").map Stride.ofText)

/-- The path that a text spells.  Two texts spell the same path if they differ in strides that
stay.  A slash in front is spelled as an empty name, so such a path names nothing here. -/
def Path.spelled (text : String) : Path :=
  (if text.startsWith "/" then [""] else []) ++
    (text.splitOn "/").filter fun name => Stride.ofText name ≠ .stay

namespace Disk

/-! ## Walking -/

/-- Why a walk leads to nothing. -/
inductive Astray where
  /-- Something on the way does not exist. -/
  | missing
  /-- Something on the way is a file. -/
  | notFolder
deriving DecidableEq, Repr

/-- Where a walk leads that starts at a path. -/
def walk (d : Disk) (here : Path) : List Stride → Except Astray Path
  | [] => .ok here
  | stride :: rest =>
    match d.item? here, stride with
    | none, _ => .error .missing
    | some (.file _), _ => .error .notFolder
    | some .folder, .stay => d.walk here rest
    | some .folder, .up => if here = [] then .error .missing else d.walk here.dropLast rest
    | some .folder, .down name => d.walk (here ++ [name]) rest

/-- Takes a walk from a folder on and makes the folders that are missing.  The last component
is the folder where it ends, if it can be taken. -/
def follow (d : Disk) (here : Path) : List Stride → Disk × Option Path
  | [] => (d, some here)
  | .stay :: rest => d.follow here rest
  | .up :: rest => if here = [] then (d, none) else d.follow here.dropLast rest
  | .down name :: rest =>
    if isName name then
      match d.makeFoldersFrom here [name] with
      | (d, true) => d.follow (here ++ [name]) rest
      | (d, false) => (d, none)
    else (d, none)

/-! ## Places that texts name -/

/-- The path of an item that a text names. -/
def locate (d : Disk) (text : String) : Except Astray Path :=
  match strides? text with
  | none => .error .missing
  | some strides => if text = "" then .error .missing else d.walk [] strides

/-- The text of the file that a text names, or why there is none.  The null device is an empty
file on every machine. -/
def read (d : Disk) (name : String) : Except String String :=
  if name = "/dev/null" then .ok ""
  else
    match d.locate name with
    | .error .notFolder => .error "Not a directory (os error 20)"
    | .error .missing => .error "No such file or directory (os error 2)"
    | .ok path =>
      match d.item? path with
      | none => .error "No such file or directory (os error 2)"
      | some .folder => .error "Is a directory (os error 21)"
      | some (.file n) => .ok (d.content n).plain

/-- The disk with the folder that a text names. -/
def withFolder (d : Disk) (name : String) : Disk :=
  match strides? name with
  | some strides => (d.follow [] strides).1
  | none => d

/-- The disk with a text in the file that another text names, with the folders on the way to
it.  The walk has to end with the name of the file. -/
def withFile (d : Disk) (name text : String) : Disk :=
  match strides? name with
  | none => d
  | some strides =>
    let onward := (strides.reverse.dropWhile fun stride => stride = .stay).reverse
    let (d, folder) := d.follow [] onward.dropLast
    match folder, strides.getLast? with
    | some folder, some (.down file) => if isName file then d.put (folder ++ [file]) text else d
    | _, _ => d

/-- The disk without the file that a text names. -/
def without (d : Disk) (name : String) : Disk :=
  match d.locate name with
  | .ok path => (d.removeFile? path).getD d
  | .error _ => d

/-- Whether a text has the form of the name of a channel's folder. -/
def isChannelName (text : String) : Bool :=
  !text.isEmpty && text.all Char.isDigit && Date.digitsValue text.toList < 65536

/-- The folders, by name, but for those of channels. -/
def folders (d : Disk) : List String :=
  let isShown (path : Path) : Bool := !path.getLast?.any isChannelName
  let shown := d.items.entries.filter fun entry => entry.2 = .folder && isShown entry.1
  (shown.map fun entry => String.intercalate "/" entry.1 ++ "/").mergeSort

end Disk

end Fieldbus.Log
