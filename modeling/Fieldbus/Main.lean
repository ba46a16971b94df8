import Fieldbus.Rehearsal.Service

/-!
# The program

Reads its arguments and does what they ask for.  A check reads the configuration
and says what it holds.

Without a check the service runs as a rehearsal, on a network where nothing can
be reached.  A line on standard input is a hangup, and the end of the input an
interrupt.
-/

namespace Fieldbus.Program

/-- The text of a file, or the reason why it cannot be read. -/
def readText (name : String) : IO (Except String String) := do
  try return .ok (← IO.FS.readFile name)
  catch e => return .error (toString e)

/-- Prints the messages of a service that are new since the one before. -/
def printNew (before after : Service) : IO Unit :=
  (after.messages.drop before.messages.length).forM fun line => IO.println line

/-- Prints what a program that has ended says, but for so many messages, and gives its code. -/
def leave (left : Rehearsed) (printed : Nat) : IO UInt32 := do
  (left.messages.drop printed).forM fun line => IO.println line
  IO.eprintln left.ended.complaint
  return UInt32.ofNat left.ended.code

/-- Takes hangups until an interrupt, or until the service breaks down. -/
partial def listen (input : IO.FS.Stream) (s : Service) : IO UInt32 := do
  let line ← input.getLine
  if line.isEmpty then
    printNew s s.interrupt
    return 0
  else
    match s.hangup (← readText s.options.config) with
    | .error left => leave left s.messages.length
    | .ok after =>
      printNew s after
      listen input after

def serve (o : Options) : IO UInt32 := do
  match Service.start o .unreachable {} (← readText o.config) with
  | .error left => leave left 0
  | .ok s =>
    s.messages.forM fun line => IO.println line
    listen (← IO.getStdin) s

/-- Writes what a run has written. -/
def emit (e : Ended) : IO UInt32 := do
  IO.print e.output
  IO.eprint e.complaint
  return UInt32.ofNat e.code

def run (arguments : List String) : IO UInt32 := do
  match Task.ofArguments arguments with
  | .finish e => emit e
  | .check o => emit (o.check (← readText o.config))
  | .serve o => serve o

end Fieldbus.Program

def main (arguments : List String) : IO UInt32 := Fieldbus.Program.run arguments
