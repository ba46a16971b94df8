import Fieldbus.Activity

/-!
# The poll loop

A cycle reads the batches of the plan in order and publishes what it read once,
at its end.  The link is made at the start of the cycle if it is down.  A batch
that fails is tried again up to the bound of the channel, and then its points are
left as they are.  Each batch gives one log record, with the outcome of its last
try.

The plan is taken at the start of a cycle, so a new plan waits for the next one.
Cancelling ends a cycle before its next batch, and the retries of a batch.

Cycles start on a fixed cadence: the next one starts one interval after this one
started, or when this one ends, whichever is later.
-/

namespace Fieldbus.Poll

open Activity (ask)

/-- What a poll loop carries from cycle to cycle. -/
structure Poller (α : Type) where
  backoff : CycleBackoff α
  cycles : Nat := 0
deriving Repr

section

variable {α : Type} [DelayNumber α]

/-- A poll loop before its first cycle. -/
def Poller.ofChannel (c : Channel) (multiplier : α) : Poller α :=
  { backoff := .start c.interval multiplier c.retry.cap }

/-! ## Making the link -/

/-- Makes the link if it is down, and says whether it is up.  A failure is logged, unless
the link holds it back. -/
def ensureConnected (c : Channel) (link : LinkId) (p : Poller α) : Activity Bool := do
  ask (.lock link)
  if ← ask (.isConnected link) then
    ask (.unlock link)
    return true
  ask (.setState link .connecting)
  let started ← ask .now
  let result ← ask (.connect link)
  ask (.unlock link)
  match result with
  | .ok () =>
    if !p.backoff.isBackingOff then ask (.setState link .polling)
    return true
  | .error (.backoff _) => return false
  | .error fault =>
    let ended ← ask .now
    let time ← ask .clock
    ask (.log { channel := c.id, time, purpose := .connect, fault := some fault,
                latency := ended - started })
    return false

/-! ## Reading a batch -/

/-- One try: what was read, and the frames if the channel logs them. -/
def readOnce (c : Channel) (link : LinkId) (b : Batch) :
    Activity (Except Fault (List Reading) × Option Log.Frames) := do
  ask (.lock link)
  let result ← ask (.read link b)
  let frames ← if c.log.level = .debug then some <$> ask (.frames link) else pure none
  ask (.unlock link)
  return (result >>= b.decode, frames)

/-- Logs the last try of a batch. -/
def logRead (c : Channel) (b : Batch) (started : Nanos) (made : Nat) (fault : Option Fault)
    (frames : Option Log.Frames) : Activity Unit := do
  let ended ← ask .now
  let time ← ask .clock
  ask (.log { channel := c.id, time, purpose := .ofBatch b, fault, attempts := made,
              latency := ended - started, frames })

/-- Tries a batch, with so many tries made and so many left after the next one. -/
def tryBatch (c : Channel) (link : LinkId) (b : Batch) (started : Nanos) :
    (made left : Nat) → Activity (Option (List Reading))
  | made, 0 => do
    let (result, frames) ← readOnce c link b
    match result with
    | .ok readings =>
      logRead c b started (made + 1) none frames
      return some readings
    | .error fault =>
      logRead c b started (made + 1) (some fault) frames
      return none
  | made, left + 1 => do
    let (result, frames) ← readOnce c link b
    match result with
    | .ok readings =>
      logRead c b started (made + 1) none frames
      return some readings
    | .error fault =>
      let now ← ask .now
      if ← ask (.pause link (now + c.retry.delay)) then
        logRead c b started (made + 1) (some fault) frames
        return none
      else tryBatch c link b started (made + 1) left

/-- Reads a batch, with retries. -/
def readBatch (c : Channel) (link : LinkId) (b : Batch) : Activity (Option (List Reading)) := do
  let started ← ask .now
  tryBatch c link b started 0 (c.retry.attempts - 1)

/-! ## A cycle -/

/-- What the batches of a cycle gave so far. -/
structure Tally where
  readings : List Reading := []
  succeeded : Nat := 0
  failed : Nat := 0
deriving DecidableEq, Repr

/-- The tally after one more batch. -/
def Tally.add (t : Tally) : Option (List Reading) → Tally
  | some readings => { t with readings := t.readings ++ readings, succeeded := t.succeeded + 1 }
  | none => { t with failed := t.failed + 1 }

/-- Reads batches in order until the loop is cancelled.  There is a pause before each batch
but the first of the cycle. -/
def readBatches (c : Channel) (link : LinkId) : (first : Bool) → Tally → List Batch →
    Activity Tally
  | _, t, [] => return t
  | first, t, b :: rest => do
    if ← ask (.isCancelled link) then return t
    if !first && c.limits.delayMs ≠ 0 then
      let now ← ask .now
      ask (.sleep (now + c.limits.delay))
    let readings ← readBatch c link b
    readBatches c link false (t.add readings) rest

/-- Reads the batches of a plan, if the link can be made.  If it cannot, all of them
failed. -/
def readPlan (c : Channel) (link : LinkId) (p : Poller α) (plan : Plan) : Activity Tally := do
  if plan.isEmpty then return {}
  if ← ensureConnected c link p then readBatches c link true {} plan.batches
  else return { failed := plan.size }

/-- One pass over the plan. -/
def cycle (c : Channel) (link : LinkId) (p : Poller α) : Activity (Poller α × CycleReport) := do
  let plan ← ask (.plan link)
  let started ← ask .now
  let tally ← readPlan c link p plan
  ask (.publish (cycleWrites c.id tally.readings))
  let ended ← ask .now
  let backoff := p.backoff.onCycle (.ofCounts tally.succeeded tally.failed)
  let next : Poller α := ⟨backoff, p.cycles + 1⟩
  let report : CycleReport :=
    { cycle := next.cycles, succeeded := tally.succeeded, failed := tally.failed,
      points := tally.readings.length, duration := ended - started, interval := backoff.interval }
  ask (.setState link (if backoff.isBackingOff then .backoff else .polling))
  ask (.report link report)
  return (next, report)

/-! ## The loop -/

/-- Cycles until cancelled, at most `fuel` of them. -/
def loop (c : Channel) (link : LinkId) : (fuel : Nat) → Poller α → Activity (Poller α)
  | 0, p => return p
  | fuel + 1, p => do
    if ← ask (.isCancelled link) then return p
    let started ← ask .now
    let (p, report) ← cycle c link p
    if ← ask (.pause link (started + report.interval)) then return p
    loop c link fuel p

/-- Polls until cancelled, for at most `fuel` cycles, and stops. -/
def run (c : Channel) (link : LinkId) (fuel : Nat) (p : Poller α) : Activity (Poller α) := do
  let p ← loop c link fuel p
  ask (.setState link .stopped)
  return p

end

end Fieldbus.Poll
