import Fieldbus.Link.WriteRequest
import Fieldbus.Rehearsal.World

/-!
# Scripted links

A scripted link answers from a list of cues.  A cue says what happens during one
exchange and how it ends.  When the list is over, every exchange succeeds at
once.

The calls that reach scripted links are listed with their times.
-/

namespace Fieldbus

/-- What a scripted link reads. -/
inductive Reply where
  | words (words : List UInt16)
  /-- One word for every unit. -/
  | fill (word : UInt16)
  /-- The address of every unit, or its lowest bit on a bit table. -/
  | ramp
deriving Repr

/-- What happens during one exchange, in the order of the fields, and how it ends. -/
structure Cue where
  /-- The poll loop is cancelled. -/
  cancel : Bool := false
  /-- The poll loop gets a plan for other points. -/
  replan : Option (List Point) := none
  /-- The frames that the link shows from now on. -/
  frames : Option Log.Frames := none
  /-- The link goes down. -/
  drop : Bool := false
  /-- The time that the exchange takes. -/
  duration : Nanos := 0
  fault : Option Fault := none
  reply : Reply := .ramp
deriving Repr

/-- A call that reached a scripted link. -/
inductive Call where
  /-- Making the link. -/
  | connect
  /-- Reading a batch, with the bytes of its request. -/
  | read (batch : Nat) (request : List UInt8)
  | write (point : UInt32) (words : List UInt16)
deriving Repr

/-- The calls so far, with their times. -/
abbrev Calls := List (Nanos × Call)

/-- A link that follows a script. -/
structure ScriptedLink where
  connects : List Cue := []
  requests : List Cue := []
  isUp : Bool := true
  frames : Log.Frames := {}
deriving Repr

def Reply.wordsOf (r : Reply) (b : Batch) : List UInt16 :=
  match r with
  | words ws => ws
  | fill w => List.replicate b.quantity.toNat w
  | ramp => b.wordsOn fun a =>
    if FunctionCode.isBit b.function then UInt16.ofNat (a % 2) else UInt16.ofNat a

namespace ScriptedLink

def follow (l : ScriptedLink) (c : Cue) : ScriptedLink :=
  { l with frames := c.frames.getD l.frames, isUp := l.isUp && !c.drop }

def orders (c : Cue) : List Order :=
  (if c.cancel then [.cancel] else []) ++ (c.replan.map Order.replan).toList

def exchange {α : Type} (l : ScriptedLink) (c : Cue) (calls : Calls) (now : Nanos) (call : Call)
    (value : α) : Exchanged ScriptedLink Calls α :=
  { result := match c.fault with
      | some fault => .error fault
      | none => .ok value
    link := l.follow c
    peer := calls ++ [(now, call)]
    now := alarm now (now + c.duration)
    orders := orders c }

def connect (l : ScriptedLink) (calls : Calls) (now : Nanos) : Exchanged ScriptedLink Calls Unit :=
  let c := l.connects.headD {}
  let e := exchange { l with connects := l.connects.tail } c calls now .connect ()
  if c.fault.isNone then { e with link := { e.link with isUp := true } } else e

def request {α : Type} (l : ScriptedLink) (calls : Calls) (now : Nanos) (call : Call)
    (value : Cue → α) : Exchanged ScriptedLink Calls α :=
  let c := l.requests.headD {}
  exchange { l with requests := l.requests.tail } c calls now call (value c)

/-- Takes the cue of a request that cannot be made.  It uses up the cue and never reaches the
link, so nothing of what the cue says happens. -/
def refuse {α : Type} (l : ScriptedLink) (calls : Calls) (now : Nanos) (fault : Fault) :
    Exchanged ScriptedLink Calls α :=
  { result := .error fault, link := { l with requests := l.requests.tail }, peer := calls, now }

end ScriptedLink

instance : Transport ScriptedLink Calls where
  attach _ _ _ := { isUp := false }
  isConnected l := l.isUp
  frames l := l.frames
  stats _ := {}
  connect l calls now := l.connect calls now
  read l calls now b :=
    match b.request with
    | .ok pdu => l.request calls now (.read b.index pdu.bytes) fun c => c.reply.wordsOf b
    | .error fault => l.refuse calls now fault
  write l calls now p words := l.request calls now (.write p.id words) fun _ => ()
  close l := { l with isUp := false }

/-- A place where activities run over scripted links. -/
abbrev Rehearsal := World ScriptedLink Calls

end Fieldbus
