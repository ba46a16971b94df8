import Fieldbus.Command.Queue
import Fieldbus.Rehearsal.World

/-!
# Running a command queue

A submitter and an executor take turns.  The submitter runs until it has to wait
for room, and the executor until it has to wait for a command, or has waited for
a device.  Once everything is submitted, the executor runs to its end.  If it is
cancelled, it is so at that moment.
-/

namespace Fieldbus

/-- What a submitter got. -/
structure Submitted where
  command : Command
  accepted : Bool
  /-- The outcome right after, where it does not depend on when the executor runs. -/
  outcome : Option Outcome := none
deriving Repr

/-- What a submitter and an executor did. -/
structure Served (L σ : Type) where
  submitted : List Submitted
  /-- The world in which the last command was submitted. -/
  before : World L σ
  after : World L σ

namespace World

variable {L σ : Type} [Transport L σ]

def execute (w : World L σ) (c : Command) : World L σ := (w.run c.execute).2

def submitEach (w : World L σ) : List Command → List Submitted × World L σ
  | [] => ([], w)
  | c :: rest =>
    let (accepted, w) := w.run c.submit
    let (later, after) := w.submitEach rest
    (⟨c, accepted, w.board.get? c.id⟩ :: later, after)

/-- Runs an activity until it has to wait for somebody else or has waited for a device. -/
def proceedInstant (start : Nanos) (w : World L σ) (a : Activity Unit) :
    Activity Unit × World L σ :=
  a.proceed (fun s w => w.isReady s && w.now = start) perform w

/-- Lets an executor finish after the last command is submitted, or cancels it then. -/
def finish (w : World L σ) (isCancelled : Bool) (executor : Activity Unit) : World L σ :=
  ({ w with queue := { w.queue with isFed := false, isCancelled } }.run executor).2

/-- Lets a submitter and an executor take turns, at most `fuel` of them. -/
def takeTurns (commands : List Command) (isCancelled : Bool) : (fuel : Nat) → World L σ →
    Activity (List Bool) → Activity Unit → Served L σ
  | 0, w, _, _ => ⟨[], w, w⟩
  | fuel + 1, w, submitter, executor =>
    match w.proceed submitter with
    | (.done taken, w) =>
      ⟨(commands.zip taken).map fun (c, accepted) => ⟨c, accepted, none⟩, w,
        w.finish isCancelled executor⟩
    | (submitter, w) =>
      let (executor, w) := w.proceedInstant w.now executor
      takeTurns commands isCancelled fuel w submitter executor

/-- Submits commands and executes them, at the same time or one after the other.  Nobody
executes them if the queue is closed.  A cancelled executor is cancelled when everything is
submitted. -/
def serve (w : World L σ) (commands : List Command) (isConcurrent isCancelled : Bool) :
    Served L σ :=
  let executor := Command.serve (commands.length + 1)
  if isConcurrent && w.queue.isOpen then
    takeTurns commands isCancelled (2 * commands.length + 3) w (Command.submitAll commands)
      executor
  else
    let (submitted, before) := w.submitEach commands
    ⟨submitted, before, if w.queue.isOpen then before.finish isCancelled executor else before⟩

/-- Waits for the end of a command in a world that becomes another one. -/
def await (before after : World L σ) (command : String) : Option Outcome :=
  let fuel := after.board.announced.length + 1
  let (waiter, _) := before.proceed (Command.await command fuel)
  let (waiter, _) := after.proceed waiter
  waiter.value?.join

end World

end Fieldbus
