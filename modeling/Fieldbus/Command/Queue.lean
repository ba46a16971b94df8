import Fieldbus.Command.Executor

/-!
# The command queue

Submitters put commands on a bounded queue, and one executor takes them off in
order.  A submitter waits while the queue is full.  Once the executor is
cancelled, what is still queued fails, and so does every command submitted later.

Somebody who follows a command waits for its end.  It subscribes to the
announcements before it looks at the board, so that no end is missed in between.
If announcements were lost, it looks at the board again.
-/

namespace Fieldbus

/-- A bounded queue of commands. -/
structure CommandQueue where
  capacity : Nat := 1
  /-- The queued commands, oldest first. -/
  items : List Command := []
  /-- Whether the executor still takes commands. -/
  isOpen : Bool := true
  isFed : Bool := true
  isCancelled : Bool := false
deriving Repr

namespace CommandQueue

/-- An empty queue.  It holds at least one command. -/
def ofCapacity (capacity : Nat) : CommandQueue := { capacity := max 1 capacity }

/-- Whether a submitter need not wait. -/
def canSend (q : CommandQueue) : Bool := !q.isOpen || q.items.length < q.capacity

/-- Whether the executor need not wait. -/
def canReceive (q : CommandQueue) : Bool := q.isCancelled || !q.items.isEmpty || !q.isFed

/-- The queue after a command is sent, and whether it was taken. -/
def send (q : CommandQueue) (c : Command) : Bool × CommandQueue :=
  if q.isOpen then (true, { q with items := q.items ++ [c] }) else (false, q)

/-- The next command, unless there will be none, and the queue without it. -/
def receive (q : CommandQueue) : Option Command × CommandQueue :=
  match q.isCancelled, q.items with
  | false, c :: rest => (some c, { q with items := rest })
  | _, _ => (none, q)

/-- What is queued, and the queue after it is closed. -/
def close (q : CommandQueue) : List Command × CommandQueue :=
  (q.items, { q with items := [], isOpen := false })

end CommandQueue

namespace Command

open Activity (ask)

/-! ## Submitting -/

/-- Submits a command, and says whether it was taken. -/
def submit (c : Command) : Activity Bool := do
  report c.id .queued
  let taken ← ask (.send c)
  if !taken then report c.id (.failed .executorStopped)
  return taken

def submitAll : List Command → Activity (List Bool)
  | [] => return []
  | c :: rest => do
    let taken ← c.submit
    return taken :: (← submitAll rest)

/-! ## Serving -/

/-- Takes the next command and executes it, and says whether there was one. -/
def serveNext : Activity Bool := do
  match ← ask .receive with
  | none => return false
  | some c =>
    let _ ← c.execute
    return true

/-- Fails commands that will not be executed. -/
def refuseAll : List Command → Activity Unit
  | [] => return ()
  | c :: rest => do
    report c.id (.failed .executorStopped)
    refuseAll rest

/-- Closes the queue and fails what is on it. -/
def retire : Activity Unit := do refuseAll (← ask .closeQueue)

/-- Executes commands until there will be no more, at most `fuel` of them, and retires. -/
def serve : (fuel : Nat) → Activity Unit
  | 0 => retire
  | fuel + 1 => do
    if ← serveNext then serve fuel else retire

/-! ## Following -/

/-- Listens for the end of the waiter's command, at most `fuel` times. -/
def listen : (fuel : Nat) → Board.Waiter → Activity (Option Outcome)
  | 0, _ => return none
  | fuel + 1, waiter => do
    match ← ask (.hear waiter) with
    | .nothing => listen fuel waiter
    | .outcome outcome next =>
      if outcome.command = waiter.command then return some outcome else listen fuel next
    | .lagged next =>
      match (← ask (.lookUp waiter.command)).filter fun o => o.status.isTerminal with
      | some outcome => return some outcome
      | none => listen fuel next

/-- Waits for the end of a command, with at most `fuel` announcements heard. -/
def await (command : String) (fuel : Nat) : Activity (Option Outcome) := do
  let waiter ← ask (.subscribe command)
  match (← ask (.lookUp command)).filter fun o => o.status.isTerminal with
  | some outcome => return some outcome
  | none => listen fuel waiter

/-! ## Pruning -/

/-- Takes outcomes that ended before a time off the board, and says how many.  They are
counted by the size of the board before and after, in 64 bits.  A count below zero wraps here.
Where arithmetic is checked for overflow, it ends the task that prunes. -/
def prune (cutoff : Instant) : Activity UInt64 := do
  let before ← ask .countOutcomes
  ask (.discard cutoff)
  let after ← ask .countOutcomes
  return UInt64.ofNat before - UInt64.ofNat after

end Command

end Fieldbus
