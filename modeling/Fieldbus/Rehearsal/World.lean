import Fieldbus.Command.Queue
import Fieldbus.Log.Queue
import Fieldbus.Poll.Poller

/-!
# Worlds

A world is a place where activities run: links with somebody at the other end,
poll loops, commands, a store and a log, on a clock of its own.  The clock moves
only when something waits.  Timers wake at whole milliseconds.

`World.perform` performs one step, so `Activity.run` runs an activity in a world.
One activity runs at a time, and nobody else holds a lock meanwhile.  A poll loop
that is started runs when it is told to, by `World.pollOnce`.

What is on the other side of the links is left open by the class `Transport`.
-/

namespace Fieldbus

/-! ## Links -/

/-- What happens to a link's poll loop during an exchange. -/
inductive Order where
  | cancel
  /-- The loop gets a plan for other points, if there is one. -/
  | replan (points : List Point)
deriving Repr

/-- What an exchange leaves behind. -/
structure Exchanged (L σ α : Type) where
  result : Except Fault α
  link : L
  /-- The other side afterwards. -/
  peer : σ
  now : Nanos
  /-- What happened to the poll loop. -/
  orders : List Order := []

/-- Links of type `L` to another side of type `σ`. -/
class Transport (L : Type) (σ : outParam Type) where
  attach : σ → Channel → ChannelLink → L
  isConnected : L → Bool
  frames : L → Log.Frames
  stats : L → LinkStats
  connect : L → σ → Nanos → Exchanged L σ Unit
  read : L → σ → Nanos → Batch → Exchanged L σ (List UInt16)
  write : L → σ → Nanos → Point → List UInt16 → Exchanged L σ Unit
  /-- Takes the link down. -/
  close : L → L

/-! ## Worlds -/

/-- What is shared about a poll loop. -/
structure PollSlot where
  /-- The request limits under which points are planned. -/
  limits : Limits := {}
  plan : Plan := {}
  state : ChannelState := .idle
  isCancelled : Bool := false
  /-- When the loop will be cancelled from outside, if it will. -/
  cancelAt : Option Nanos := none
  /-- The published states and when they were published. -/
  states : List (Nanos × ChannelState) := []
  /-- The published reports and when they were published. -/
  reports : List (Nanos × CycleReport) := []
  /-- The channel and the loop itself, while it runs on its own. -/
  poller : Option (Channel × Poll.Poller Binary64) := none
deriving Repr

/-- A place where activities run. -/
structure World (L σ : Type) where
  now : Nanos := 0
  links : Table LinkId L := {}
  /-- The other side of the links. -/
  peer : σ
  loops : Table LinkId PollSlot := {}
  registry : Table UInt16 ChannelHandle := {}
  queue : CommandQueue := {}
  board : Board := {}
  log : Log.Queue Log.Record
  store : Store := {}
  /-- The writes to the store, oldest first. -/
  writes : List StoreWrite := []
  policies : Table UInt16 LogPolicy := {}

namespace PollSlot

def cancelledAt (s : PollSlot) (now : Nanos) : Bool :=
  s.isCancelled || s.cancelAt.any fun time => time ≤ now

def obey (s : PollSlot) : Order → PollSlot
  | .cancel => { s with isCancelled := true }
  | .replan points =>
    match Fieldbus.plan s.limits 1 points with
    | .ok plan => { s with plan := plan }
    | .error _ => s

/-- The slot after a report is published at a time.  Somebody who watches sees only the last
report of an instant. -/
def report (s : PollSlot) (now : Nanos) (report : CycleReport) : PollSlot :=
  { s with reports := s.reports.filter (fun entry => entry.1 ≠ now) ++ [(now, report)] }

/-- The slot after a state is published at a time.  The same state again is not news. -/
def publish (s : PollSlot) (now : Nanos) (state : ChannelState) : PollSlot :=
  if s.state = state then s else { s with state := state, states := s.states ++ [(now, state)] }

end PollSlot

/-! ## Timers -/

/-- A time, rounded up to a whole millisecond. -/
def nextTick (t : Nanos) : Nanos := (t + 999999) / 1000000 * 1000000

/-- Thirty years of 365 days. -/
def farAhead : Nanos := seconds (30 * 365 * 86400)

/-- When a timer goes off that is set at one time for another.  Timers count nanoseconds in
63 bits.  One that would have to count further is set far ahead instead. -/
def alarm (now wake : Nanos) : Nanos := if wake < now + 1 <<< 63 then wake else now + farAhead

namespace World

variable {L σ : Type}

def slot (w : World L σ) (link : LinkId) : PollSlot := (w.loops.get? link).getD {}

/-- The world with the slot of a poll loop changed. -/
def mapSlot (w : World L σ) (link : LinkId) (f : PollSlot → PollSlot) : World L σ :=
  { w with loops := w.loops.insert link (f (w.slot link)) }

/-- The world after sleeping until a time, if that is still to come. -/
def sleepUntil (w : World L σ) (wake : Nanos) : World L σ :=
  if w.now < wake then { w with now := nextTick (alarm w.now wake) } else w

/-- Sleeps until a time or a cancellation, and says whether it was cancelled. -/
def pauseUntil (w : World L σ) (link : LinkId) (wake : Nanos) : Bool × World L σ :=
  let s := w.slot link
  if s.cancelledAt w.now then (true, w)
  else if wake ≤ w.now then (false, w)
  else
    match s.cancelAt.filter fun time => time ≤ nextTick (alarm w.now wake) with
    | some time => (true, { w with now := time })
    | none => (false, w.sleepUntil wake)

/-- The world after records are taken out of its log. -/
def drainLog (w : World L σ) : World L σ := { w with log := { w.log with items := [] } }

/-- The time of day in a world without a calendar. -/
def clock (_ : World L σ) : Instant := 0

variable [Transport L σ]

def exchange {α : Type} (w : World L σ) (link : LinkId)
    (f : L → σ → Nanos → Exchanged L σ α) : Except Fault α × World L σ :=
  match w.links.get? link with
  | none => (.error (.connection "Not connected"), w)
  | some l =>
    let e := f l w.peer w.now
    let w : World L σ := { w with links := w.links.insert link e.link, peer := e.peer, now := e.now }
    (e.result, if e.orders.isEmpty then w else w.mapSlot link fun s => e.orders.foldl .obey s)

def perform (s : Step) (w : World L σ) : s.Answer × World L σ :=
  match s with
  | .lock _ | .unlock _ => ((), w)
  | .isConnected link => ((w.links.get? link).any Transport.isConnected, w)
  | .connect link => w.exchange link Transport.connect
  | .read link b => w.exchange link fun l peer now => Transport.read l peer now b
  | .write link p words => w.exchange link fun l peer now => Transport.write l peer now p words
  | .frames link => (((w.links.get? link).map Transport.frames).getD {}, w)
  | .stats link => (((w.links.get? link).map Transport.stats).getD {}, w)
  | .close link => ((), { w with links := w.links.modify link Transport.close })
  | .plan link => ((w.slot link).plan, w)
  | .state link => ((w.slot link).state, w)
  | .setState link state => ((), w.mapSlot link fun s => s.publish w.now state)
  | .report link report => ((), w.mapSlot link fun s => s.report w.now report)
  | .lastReport link => ((w.slot link).reports.getLast?.map Prod.snd, w)
  | .isCancelled link => ((w.slot link).cancelledAt w.now, w)
  | .now => (w.now, w)
  | .clock => (w.clock, w)
  | .sleep wake => ((), w.sleepUntil wake)
  | .pause link wake => w.pauseUntil link wake
  | .log record => ((), { w with log := w.log.offer record })
  | .publish writes =>
    ((), { w with store := w.store.writeAll writes 0, writes := w.writes ++ writes })
  | .find channel => (w.registry.get? channel, w)
  | .post outcome => ((), { w with board := w.board.put outcome })
  | .announce outcome => ((), { w with board := w.board.announce outcome })
  | .subscribe command => (w.board.subscribe command, w)
  | .lookUp command => (w.board.get? command, w)
  | .hear waiter => (w.board.hear waiter, w)
  | .countOutcomes => (w.board.size, w)
  | .discard cutoff => ((), { w with board := w.board.prune cutoff })
  | .send c =>
    let (taken, queue) := w.queue.send c
    (taken, { w with queue })
  | .receive =>
    let (c, queue) := w.queue.receive
    (c, { w with queue })
  | .closeQueue =>
    let (left, queue) := w.queue.close
    (left, { w with queue })
  | .start c link plan =>
    let id := w.links.size
    (id, { w with
      links := w.links.insert id (Transport.attach w.peer c link)
      loops := w.loops.insert id
        { limits := c.limits, plan, poller := some (c, .ofChannel c c.retry.multiplier) } })
  | .setPlan link plan => ((), w.mapSlot link fun s => { s with plan := plan })
  | .cancel link => ((), w.mapSlot link fun s => s.obey .cancel)
  | .join link =>
    ((), w.mapSlot link fun s => { s.publish w.now .stopped with poller := none })
  | .register handle => ((), { w with registry := w.registry.insert handle.channel.id handle })
  | .unregister channel => ((), { w with registry := w.registry.erase channel })
  | .setPolicy channel policy =>
    ((), { w with policies := w.policies.insert channel policy })
  | .dropPolicy channel => ((), { w with policies := w.policies.erase channel })
  | .forget channel => ((), { w with store := w.store.removeChannel channel })

def run {α : Type} (w : World L σ) (a : Activity α) : α × World L σ := a.run perform w

/-- Whether a step need not wait for somebody else. -/
def isReady (s : Step) (w : World L σ) : Bool :=
  match s with
  | .send _ => w.queue.canSend
  | .receive => w.queue.canReceive
  | .hear waiter => w.board.hear waiter ≠ .nothing
  | _ => true

/-- Runs an activity until it has to wait for somebody else. -/
def proceed {α : Type} (w : World L σ) (a : Activity α) : Activity α × World L σ :=
  a.proceed isReady perform w

/-- The world after one cycle of a poll loop that runs on its own. -/
def pollOnce (w : World L σ) (link : LinkId) : World L σ :=
  match (w.slot link).poller with
  | none => w
  | some (c, p) =>
    let ((p, _), w) := w.run (Poll.cycle c link p)
    w.mapSlot link fun s => { s with poller := some (c, p) }

end World

end Fieldbus
