import Fieldbus.Command.Board
import Fieldbus.Link.Channel
import Fieldbus.Plan.Planner
import Fieldbus.Store

/-!
# Activities

Poll loops, commands and the starting and stopping of channels are activities:
trees of steps, each step an operation on something shared, with one branch for
each answer it may get.  What an activity decides lies between its steps.  What
the steps do is left to whoever runs it.

`Activity.run` performs the steps of one activity one after another.  Since an
activity is a value, its steps can just as well be taken in turn with the steps
of others.

A link is guarded by a lock.  The activities here take it for one exchange at a
time and give it back before they sleep.
-/

namespace Fieldbus

/-- The number of a link.  A channel that is started again gets a new link. -/
abbrev LinkId := Nat

/-- How a command reaches a channel. -/
structure ChannelHandle where
  channel : Channel
  link : LinkId
deriving Repr

/-! ## Steps -/

/-- One operation on something shared. -/
inductive Step where
  | lock (link : LinkId)
  /-- Gives the lock of a link back. -/
  | unlock (link : LinkId)
  | isConnected (link : LinkId)
  | connect (link : LinkId)
  | read (link : LinkId) (batch : Batch)
  | write (link : LinkId) (point : Point) (words : List UInt16)
  /-- Asks for the frames of the last exchange. -/
  | frames (link : LinkId)
  /-- Asks for the counters of a link. -/
  | stats (link : LinkId)
  | close (link : LinkId)
  /-- Asks for the plan of a link's poll loop. -/
  | plan (link : LinkId)
  /-- Asks for the published state of a link's poll loop. -/
  | state (link : LinkId)
  /-- Publishes the state of a link's poll loop. -/
  | setState (link : LinkId) (state : ChannelState)
  | report (link : LinkId) (report : CycleReport)
  /-- Asks for the last report of a link's poll loop. -/
  | lastReport (link : LinkId)
  /-- Asks whether a link's poll loop is cancelled. -/
  | isCancelled (link : LinkId)
  /-- Asks for the time that passes. -/
  | now
  /-- Asks for the time of day. -/
  | clock
  | sleep (wake : Nanos)
  /-- Sleeps until a time or until a link's poll loop is cancelled, and says whether it was. -/
  | pause (link : LinkId) (wake : Nanos)
  | log (record : Log.Record)
  | publish (writes : List StoreWrite)
  /-- Looks a channel up among those that take commands. -/
  | find (channel : UInt16)
  | post (outcome : Outcome)
  | announce (outcome : Outcome)
  /-- Begins to wait for the end of a command. -/
  | subscribe (command : String)
  | lookUp (command : String)
  /-- Listens for the next announcement. -/
  | hear (waiter : Board.Waiter)
  /-- Asks for the number of outcomes on the board. -/
  | countOutcomes
  /-- Takes outcomes that ended before a time off the board. -/
  | discard (cutoff : Instant)
  /-- Sends a command to the executor, and says whether it was taken. -/
  | send (command : Command)
  /-- Takes the next command off the queue, unless there will be none. -/
  | receive
  /-- Closes the queue and takes what is on it. -/
  | closeQueue
  /-- Starts the poll loop of a channel over a new link. -/
  | start (channel : Channel) (link : ChannelLink) (plan : Plan)
  /-- Gives the poll loop of a link another plan. -/
  | setPlan (link : LinkId) (plan : Plan)
  | cancel (link : LinkId)
  /-- Waits for the end of the poll loop of a link. -/
  | join (link : LinkId)
  /-- Lets a channel take commands. -/
  | register (handle : ChannelHandle)
  /-- Lets a channel take no more commands. -/
  | unregister (channel : UInt16)
  | setPolicy (channel : UInt16) (policy : LogPolicy)
  /-- Takes the log policy of a channel away. -/
  | dropPolicy (channel : UInt16)
  /-- Takes the values of a channel out of the store. -/
  | forget (channel : UInt16)

@[reducible] def Step.Answer : Step → Type
  | lock _ | unlock _ | close _ | setState .. | report .. | sleep _ | log _ | publish _
  | post _ | announce _ | discard _ | setPlan .. | cancel _ | join _ | register _ | unregister _
  | setPolicy .. | dropPolicy _ | forget _ => Unit
  | isConnected _ | isCancelled _ | pause .. => Bool
  | connect _ | write .. => Except Fault Unit
  | read .. => Except Fault (List UInt16)
  | frames _ => Log.Frames
  | stats _ => LinkStats
  | lastReport _ => Option CycleReport
  | plan _ => Plan
  | state _ => ChannelState
  | now => Nanos
  | clock => Instant
  | find _ => Option ChannelHandle
  | subscribe _ => Board.Waiter
  | lookUp _ => Option Outcome
  | hear _ => Board.Heard
  | countOutcomes => Nat
  | send _ => Bool
  | receive => Option Command
  | closeQueue => List Command
  | start .. => LinkId

/-! ## Trees -/

/-- A tree of steps that ends with a value. -/
inductive Activity (α : Type) where
  | done (value : α)
  | step (s : Step) (next : s.Answer → Activity α)

namespace Activity

def bind {α β : Type} : Activity α → (α → Activity β) → Activity β
  | .done a, f => f a
  | .step s next, f => .step s fun answer => (next answer).bind f

instance : Monad Activity where
  pure := .done
  bind := .bind

@[simp] theorem done_bind {α β : Type} (a : α) (f : α → Activity β) :
    (Activity.done a >>= f) = f a := rfl

@[simp] theorem step_bind {α β : Type} (s : Step) (next : s.Answer → Activity α)
    (f : α → Activity β) :
    (Activity.step s next >>= f) = .step s fun answer => next answer >>= f := rfl

def ask (s : Step) : Activity s.Answer := .step s .done

def run {σ α : Type} (perform : (s : Step) → σ → s.Answer × σ) : Activity α → σ → α × σ
  | .done a, world => (a, world)
  | .step s next, world =>
    let (answer, world) := perform s world
    (next answer).run perform world

/-- Performs steps as long as they may be performed, and gives what is left. -/
def proceed {σ α : Type} (may : Step → σ → Bool) (perform : (s : Step) → σ → s.Answer × σ) :
    Activity α → σ → Activity α × σ
  | .done a, world => (.done a, world)
  | .step s next, world =>
    if may s world then
      let (answer, world) := perform s world
      (next answer).proceed may perform world
    else (.step s next, world)

def value? {α : Type} : Activity α → Option α
  | .done a => some a
  | .step .. => none

end Activity

end Fieldbus
