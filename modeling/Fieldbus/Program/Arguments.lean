/-!
# Arguments

The program takes options with a value, a flag, and two requests for text.  An
option is given by its long name, with its value behind an equals sign or as the
next argument, or by its letter, with its value right behind it or as the next
argument.  Nothing may be given twice, and there are no other arguments.

Arguments are read from left to right, so the first that is wrong, or that asks
for text, decides.
-/

namespace Fieldbus.Program

/-! ## Options -/

/-- What the program is told. -/
structure Options where
  /-- The configuration file. -/
  config : String := "config/channels.yaml"
  /-- The directory of the message logs, if it is not the configured one. -/
  logDir : Option String := none
  /-- Whether to check the configuration only. -/
  validate : Bool := false
  /-- Seconds between summaries, none for zero. -/
  summarySecs : Nat := 60
deriving DecidableEq, Repr

/-- What the arguments ask for. -/
inductive Request where
  | run (options : Options)
  | help
  | version
deriving DecidableEq, Repr

/-- The names of options. -/
inductive Key where
  /-- The configuration file. -/
  | config
  /-- The directory of the message logs. -/
  | logDir
  /-- Checking only. -/
  | validate
  /-- Seconds between summaries. -/
  | summarySecs
deriving DecidableEq, Repr

namespace Key

def name : Key → String
  | config => "config"
  | logDir => "log-dir"
  | validate => "validate"
  | summarySecs => "summary-secs"

def all : List Key := [config, logDir, validate, summarySecs]

def ofName? (name : String) : Option Key := all.find? fun key => key.name = name

def hasValue (key : Key) : Bool := key ≠ validate

end Key

/-- Why arguments are refused. -/
inductive ArgumentFault where
  | unexpected (argument : String)
  | missingValue (key : Key)
  | needlessValue (key : Key)
  /-- An option is given twice. -/
  | repeated (key : Key)
  /-- The value of an option is not of its kind. -/
  | invalidValue (key : Key) (value : String)
deriving DecidableEq, Repr

def ArgumentFault.message : ArgumentFault → String
  | unexpected argument => s!"error: unexpected argument '{argument}' found"
  | missingValue key => s!"error: a value is required for '--{key.name}' but none was supplied"
  | needlessValue key => s!"error: unexpected value for '--{key.name}' found"
  | repeated key => s!"error: the argument '--{key.name}' cannot be used multiple times"
  | invalidValue key value => s!"error: invalid value '{value}' for '--{key.name}'"

/-! ## Reading -/

/-- A number of 64 bits, after an optional plus sign. -/
def count? (text : String) : Option Nat :=
  let digits := match text.toList with
    | '+' :: rest => rest
    | chars => chars
  if digits.isEmpty || !digits.all Char.isDigit then none
  else
    let n := digits.foldl (fun n c => 10 * n + (c.toNat - '0'.toNat)) 0
    if n < 1 <<< 64 then some n else none

/-- Arguments as far as they are read. -/
structure Reading where
  options : Options := {}
  given : List Key := []
  pending : Option Key := none
deriving DecidableEq, Repr

namespace Reading

/-- Marks an option as given. -/
def give (r : Reading) (key : Key) : Except ArgumentFault Reading :=
  if r.given.contains key then .error (.repeated key)
  else .ok { r with given := key :: r.given, pending := none }

def assign (r : Reading) (key : Key) (value : String) : Except ArgumentFault Reading := do
  let r ← r.give key
  match key with
  | .config =>
    if value.isEmpty then throw (.invalidValue key value)
    return { r with options := { r.options with config := value } }
  | .logDir =>
    if value.isEmpty then throw (.invalidValue key value)
    return { r with options := { r.options with logDir := some value } }
  | .summarySecs =>
    match count? value with
    | some n => return { r with options := { r.options with summarySecs := n } }
    | none => throw (.invalidValue key value)
  | .validate => throw (.needlessValue key)

/-- Reads an option with the value that comes with it, if one does. -/
def option (r : Reading) (key : Key) (value : Option String) : Except ArgumentFault Reading :=
  match key.hasValue, value with
  | true, some value => r.assign key value
  | true, none => .ok { r with pending := some key }
  | false, some _ => .error (.needlessValue key)
  | false, none =>
    (r.give key).map fun r => { r with options := { r.options with validate := true } }

/-- What a single argument does: it is read, or it asks for text. -/
abbrev Step := Except ArgumentFault (Reading ⊕ Request)

/-- Reads a long name with what follows an equals sign. -/
def long (r : Reading) (argument : String) (text : List Char) : Step :=
  let name := String.ofList (text.takeWhile (· ≠ '='))
  let value := match text.dropWhile (· ≠ '=') with
    | _ :: value => some (String.ofList value)
    | [] => none
  match Key.ofName? name, value with
  | some key, value => (r.option key value).map .inl
  | none, some _ => .error (.unexpected argument)
  | none, none =>
    if name = "help" then .ok (.inr .help)
    else if name = "version" then .ok (.inr .version)
    else .error (.unexpected argument)

/-- Reads letters.  The one that takes a value takes the rest. -/
def short (r : Reading) (argument : String) : List Char → Step
  | 'h' :: _ => .ok (.inr .help)
  | 'V' :: _ => .ok (.inr .version)
  | ['c'] => (r.option .config none).map .inl
  | 'c' :: '=' :: value => (r.option .config (some (String.ofList value))).map .inl
  | 'c' :: value => (r.option .config (some (String.ofList value))).map .inl
  | _ => .error (.unexpected argument)

/-- Whether an argument cannot be the value of the option before it. -/
def isOption (argument : String) : Bool := argument.startsWith "-" && argument ≠ "-"

def next (r : Reading) (argument : String) : Step :=
  match r.pending with
  | some key =>
    if isOption argument then .error (.missingValue key) else (r.assign key argument).map .inl
  | none =>
    match argument.toList with
    | '-' :: '-' :: text => r.long argument text
    | '-' :: c :: text => r.short argument (c :: text)
    | _ => .error (.unexpected argument)

/-- Reads the remaining arguments.  Nothing follows two dashes. -/
def all (r : Reading) : List String → Except ArgumentFault Request
  | [] =>
    match r.pending with
    | none => .ok (.run r.options)
    | some key => .error (.missingValue key)
  | "--" :: rest =>
    match r.pending, rest with
    | some key, _ => .error (.missingValue key)
    | none, [] => .ok (.run r.options)
    | none, argument :: _ => .error (.unexpected argument)
  | argument :: rest =>
    match r.next argument with
    | .error fault => .error fault
    | .ok (.inr request) => .ok request
    | .ok (.inl r) => r.all rest

end Reading

def Request.ofArguments (arguments : List String) : Except ArgumentFault Request :=
  ({} : Reading).all arguments

/-- A value may come with its option in four ways. -/
example : [["-c", "a"], ["-ca"], ["--config", "a"], ["--config=a"]].all
    (fun arguments => Request.ofArguments arguments matches .ok (.run ⟨"a", none, false, 60⟩)) := by
  decide +kernel

end Fieldbus.Program
