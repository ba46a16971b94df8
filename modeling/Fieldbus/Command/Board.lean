import Fieldbus.Command.Status
import Fieldbus.Table

/-!
# The status board

The board keeps the latest outcome of each command.  Outcomes of ended commands
are also announced, and a waiter hears the announcements from the moment it
subscribes.

Announcements are kept in a ring.  A waiter that falls behind by more than the
ring holds loses the oldest ones and is told so.
-/

namespace Fieldbus

def announcementRing : Nat := 256

/-- The outcomes of commands. -/
structure Board where
  /-- The latest outcome of each command. -/
  outcomes : Table String Outcome := {}
  /-- Every announcement so far, oldest first. -/
  announced : List Outcome := []
deriving Repr

namespace Board

/-- The latest outcome of a command. -/
def get? (b : Board) (command : String) : Option Outcome := b.outcomes.get? command

/-- The outcome that a status set at a time makes. -/
def outcomeOf (command : String) (status : CommandStatus) (now : Instant) : Outcome :=
  ⟨command, status, if status.isTerminal then some now else none⟩

/-- The board with an outcome put down, before it is announced. -/
def put (b : Board) (outcome : Outcome) : Board :=
  { b with outcomes := b.outcomes.insert outcome.command outcome }

def announce (b : Board) (outcome : Outcome) : Board :=
  { b with announced := b.announced ++ [outcome] }

def keeps (cutoff : Instant) (outcome : Outcome) : Bool :=
  match outcome.completedAt with
  | none => true
  | some time => cutoff ≤ time

def size (b : Board) : Nat := b.outcomes.size

/-- The board without the outcomes of commands that ended before a time. -/
def prune (b : Board) (cutoff : Instant) : Board :=
  { b with outcomes := ⟨b.outcomes.entries.filter fun entry => keeps cutoff entry.2⟩ }

/-! ## Waiting -/

/-- Somebody who waits for the end of a command. -/
structure Waiter where
  command : String
  /-- The number of announcements that it has seen or missed. -/
  position : Nat
deriving DecidableEq, Repr

/-- A waiter for a command, from now on. -/
def subscribe (b : Board) (command : String) : Waiter := ⟨command, b.announced.length⟩

/-- What a waiter hears next. -/
inductive Heard where
  | nothing
  | outcome (outcome : Outcome) (next : Waiter)
  /-- That announcements were lost. -/
  | lagged (next : Waiter)
deriving DecidableEq, Repr

def hear (b : Board) (w : Waiter) : Heard :=
  if w.position + announcementRing < b.announced.length then
    .lagged { w with position := b.announced.length - announcementRing }
  else
    match b.announced[w.position]? with
    | some outcome => .outcome outcome { w with position := w.position + 1 }
    | none => .nothing

end Board

end Fieldbus
