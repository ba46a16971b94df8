import Fieldbus.Config.Entry
import Fieldbus.Plan.Planner
import Fieldbus.Text.Blank

/-!
# Checking channel entries

An entry becomes a channel if it passes every check, in a fixed order: the
channel as a whole, then each point with its id and its fields, then the plan.
The first check that fails is the entry's defect.

`load` takes the entries of a document one by one.  A defect excludes its entry
only, and does not take its id.

No check limits the size of log segments.  A size that does not fit into 64 bits
is no defect: loading breaks off at its entry, and there are no channels.
-/

namespace Fieldbus.Config

/-! ## Points -/

def checkBit (p : Point) : Except PointDefect Unit :=
  match p.bit with
  | none => .ok ()
  | some bit =>
    if 15 < bit then .error (.bitRange bit)
    else if p.type ≠ .bool ∨ FunctionCode.isBit p.function then .error .bitPlacement
    else .ok ()

def checkPoint (p : Point) : Except PointDefect Unit := do
  if !FunctionCode.isRead p.function then throw (.function p.function)
  if FunctionCode.isBit p.function && p.type ≠ .bool then throw (.bitTable p.function p.type)
  checkBit p
  if !p.transform.scale.isFinite || !p.transform.offset.isFinite then throw .transform

/-- Checks points in order, with the ids that came before. -/
def checkPoints (channel : UInt16) : (seen : List UInt32) → List Point → Except Defect Unit
  | _, [] => .ok ()
  | seen, p :: rest => do
    if seen.contains p.id then throw (.duplicatePoint channel p.id)
    (checkPoint p).mapError fun cause => .point channel p.id cause
    checkPoints channel (p.id :: seen) rest

/-! ## Channels -/

def checkMedium : Medium → Except ChannelDefect Unit
  | .tcp host _ => if Text.isBlank host then .error .emptyHost else .ok ()
  | .rtu device baud .. =>
    if Text.isBlank device ∨ baud = 0 then .error .serialParameters else .ok ()

/-- Checks the channel as a whole. -/
def checkEntry (e : Entry) : Except ChannelDefect Unit := do
  if Text.isBlank e.name then throw .emptyName
  if e.intervalMs = 0 then throw .zeroInterval
  if e.timeoutMs = 0 then throw .zeroTimeout
  if e.maxBatchSize = 0 || e.maxBatchCoils = 0 then throw .zeroBatchSize
  if e.retry.multiplier.lt .one || !e.retry.multiplier.isFinite then
    throw (.multiplier e.retry.multiplier)
  checkMedium e.medium

/-- The size of a segment in bytes. -/
def segmentBytes (mebibytes : Nat) : Nat := max 1 mebibytes * (1024 * 1024)

def Entry.limits (e : Entry) : Limits := ⟨e.maxBatchSize, e.maxBatchCoils, e.maxGap, e.delayMs⟩

def Entry.channel (e : Entry) : Channel where
  id := e.id
  name := e.name
  medium := e.medium
  interval := millis e.intervalMs
  timeout := millis e.timeoutMs
  connectTimeout := millis (max 1 e.connectTimeoutMs)
  limits := e.limits
  retry := {
    attempts := max 1 e.retry.attempts
    delay := millis e.retry.delayMs
    multiplier := e.retry.multiplier
    cap := millis e.retry.capMs
    reconnectInitial := millis e.retry.reconnectInitialMs
    reconnectMax := millis e.retry.reconnectMaxMs }
  log := {
    level := e.logging.level
    retentionDays := e.logging.retentionDays
    maxSegmentBytes := segmentBytes e.logging.maxSegmentMb
    compressAfterDays := e.logging.compressAfterDays }
  points := e.points

/-- All checks of an entry, in their order. -/
def Entry.check (e : Entry) : Except Defect Unit := do
  (checkEntry e).mapError fun cause => .channel e.id cause
  checkPoints e.id [] e.points
  let _ ← plan e.limits e.id e.points

/-- Why an entry gives no channel. -/
inductive Failure where
  /-- The entry has a defect. -/
  | refused (defect : Defect)
  /-- The size of a segment does not fit into 64 bits. -/
  | overflow
deriving DecidableEq, Repr

/-- The channel of an entry that passes every check. -/
def Entry.toChannel (e : Entry) : Except Failure Channel := do
  e.check.mapError .refused
  if UInt64.size ≤ segmentBytes e.logging.maxSegmentMb then throw .overflow
  return e.channel

/-! ## Loading -/

variable {α : Type}

/-- The channel of the entry at an index. -/
def readChannel (r : Reader α) (index : Nat) (value : α) : Except Failure Channel :=
  match r.entry value with
  | .ok e => e.toChannel
  | .error reason =>
    match r.id? value with
    | some id => .error (.refused (.channel id (.shape reason)))
    | none => .error (.refused (.entry index reason))

/-- The channels and defects of a document. -/
structure Loaded where
  /-- The usable channels, in the order of their entries. -/
  channels : List Channel := []
  /-- One defect for each other entry, in the order of the entries. -/
  rejected : List Defect := []
deriving Repr

namespace Loaded

/-- The number of entries. -/
def size (l : Loaded) : Nat := l.channels.length + l.rejected.length

def reject (l : Loaded) (defect : Defect) : Loaded :=
  { l with rejected := l.rejected ++ [defect] }

/-- The outcome with one more entry, or what was loaded before it if its size overflows. -/
def next (r : Reader α) (l : Loaded) (value : α) : Except Loaded Loaded :=
  match readChannel r l.size value with
  | .ok channel =>
    if l.channels.any fun c => c.id == channel.id then .ok (l.reject (.duplicateChannel channel.id))
    else .ok { l with channels := l.channels ++ [channel] }
  | .error (.refused defect) => .ok (l.reject defect)
  | .error .overflow => .error l

end Loaded

/-- The outcome of the entries of a document.  An error is what was loaded when a size
overflowed. -/
def load (r : Reader α) (entries : List α) : Except Loaded Loaded :=
  entries.foldlM (Loaded.next r) {}

/-- The defects that were found, also if loading broke off. -/
def defects : Except Loaded Loaded → List Defect
  | .ok l | .error l => l.rejected

end Fieldbus.Config
