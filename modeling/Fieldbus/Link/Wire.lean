import Fieldbus.Pdu.Basic
import Fieldbus.Time

/-!
# Wires

What the other side of a link does reaches this side as arrivals, each at its
time.  A wire is what is still to arrive, soonest first.  Reading takes from the
wire what arrives up to a deadline, and leaves the rest where it is.

How bytes are grouped into arrivals is up to the other side.

`Conduct` is everything the other side decides about one call: whether a link is
made, how much of the request is taken, and what arrives.
-/

namespace Fieldbus

/-! ## The other side -/

/-- Something that arrives on a link. -/
inductive Arrival where
  /-- Bytes. -/
  | bytes (chunk : List UInt8)
  /-- The end, after which nothing comes. -/
  | closed
  /-- The operating system reports a condition. -/
  | failed (condition : SystemCondition) (text : String)
deriving DecidableEq, Repr

/-- What is still to arrive, soonest first. -/
abbrev Wire := List (Nanos × Arrival)

/-- How an attempt to make a link ends. -/
structure Dial where
  /-- Why there is no link, if there is none. -/
  refusal : Option String := none
  /-- How long the attempt takes. -/
  duration : Nanos := 0
deriving DecidableEq, Repr

/-- What becomes of the bytes of a request. -/
inductive Sending where
  /-- All of them are taken. -/
  | whole
  /-- The time is up when so many of them are taken. -/
  | late (taken : Nat)
  /-- The operating system reports a condition when so many of them are taken. -/
  | failed (taken : Nat) (condition : SystemCondition) (text : String)
deriving DecidableEq, Repr

/-- How the other side treats one call. -/
structure Conduct where
  /-- How it answers an attempt to make the link. -/
  dial : Dial := {}
  sending : Sending := .whole
  wire : Wire := []
deriving DecidableEq, Repr

/-- The bytes of a request that are taken. -/
def Sending.taken (frame : List UInt8) : Sending → List UInt8
  | whole => frame
  | late n | failed n _ _ => frame.take n

/-- What a call leaves behind. -/
structure Called (L α : Type) where
  result : Except Fault α
  link : L
  wire : Wire
  now : Nanos
  sent : List UInt8 := []

namespace Called

variable {L α : Type}

/-- A call that ends with a fault before anything happens. -/
def unsent (link : L) (c : Conduct) (now : Nanos) (fault : Fault) : Called L α :=
  ⟨.error fault, link, c.wire, now, []⟩

/-- An exchange after its response is read.  A response that is refused is blamed on the link. -/
def parsed (e : Called L Pdu) (blame : L → Fault → L) (parse : Pdu → Except Fault α) :
    Called L α :=
  match e.result with
  | .error fault => { e with result := .error fault }
  | .ok response =>
    match parse response with
    | .ok value => { e with result := .ok value }
    | .error fault => { e with result := .error fault, link := blame e.link fault }

end Called

/-! ## Reading -/

/-- How waiting for bytes ended. -/
inductive Waited where
  /-- They are there. -/
  | enough
  /-- The deadline came first. -/
  | late
  | broken (fault : Fault)
deriving DecidableEq, Repr

/-- What waiting for bytes gave. -/
structure Taken where
  bytes : List UInt8
  rest : Wire
  now : Nanos
  ending : Waited
deriving DecidableEq, Repr

namespace Wire

/-- The fault of a stream that ends inside a frame. -/
def endedEarly : Fault := .connection "early eof"

/-- Takes a number of bytes that arrive up to a deadline.  Bytes that come too few are taken
as well. -/
def takeUntil (deadline : Nanos) : (now : Nanos) → (count : Nat) → Wire → Taken
  | now, 0, wire => ⟨[], wire, now, .enough⟩
  | _, _ + 1, [] => ⟨[], [], deadline, .late⟩
  | now, count + 1, (time, arrival) :: rest =>
    if deadline < time then ⟨[], (time, arrival) :: rest, deadline, .late⟩
    else
      match arrival with
      | .closed => ⟨[], (time, .closed) :: rest, max now time, .broken endedEarly⟩
      | .failed condition text => ⟨[], rest, max now time, .broken (.ofSystem condition text)⟩
      | .bytes chunk =>
        if count + 1 < chunk.length then
          ⟨chunk.take (count + 1), (time, .bytes (chunk.drop (count + 1))) :: rest, max now time,
            .enough⟩
        else
          let later := takeUntil deadline (max now time) (count + 1 - chunk.length) rest
          { later with bytes := chunk ++ later.bytes }

def bytes (wire : Wire) : List UInt8 :=
  wire.flatMap fun entry => match entry.2 with
    | .bytes chunk => chunk
    | _ => []

/-- The wire without the bytes that have arrived at a time. -/
def discard (wire : Wire) (now : Nanos) : Wire :=
  wire.filter fun entry => now < entry.1 || !entry.2 matches .bytes _

/-! ## What is read -/

/-- No more bytes are taken than asked for. -/
theorem length_takeUntil_le (deadline : Nanos) : (now : Nanos) → (count : Nat) → (wire : Wire) →
    (takeUntil deadline now count wire).bytes.length ≤ count
  | _, 0, wire => by cases wire <;> simp [takeUntil]
  | _, _ + 1, [] => by simp [takeUntil]
  | now, count + 1, (time, arrival) :: rest => by
    unfold takeUntil
    split
    · simp
    · cases arrival with
      | closed => simp
      | failed => simp
      | bytes chunk =>
        simp only
        split
        · simp only [List.length_take]; omega
        · have := length_takeUntil_le deadline (max now time) (count + 1 - chunk.length) rest
          simp only [List.length_append]
          omega

/-- As many bytes are taken as asked for, if waiting for them ends well. -/
theorem length_takeUntil (deadline : Nanos) : (now : Nanos) → (count : Nat) → (wire : Wire) →
    (takeUntil deadline now count wire).ending = .enough →
      (takeUntil deadline now count wire).bytes.length = count
  | _, 0, wire => by cases wire <;> simp [takeUntil]
  | _, _ + 1, [] => by simp [takeUntil]
  | now, count + 1, (time, arrival) :: rest => by
    unfold takeUntil
    split
    · simp
    · cases arrival with
      | closed => simp
      | failed => simp
      | bytes chunk =>
        simp only
        split
        · simp only [List.length_take]; omega
        · intro h
          have := length_takeUntil deadline (max now time) (count + 1 - chunk.length) rest h
          simp only [List.length_append]
          omega

end Wire

end Fieldbus
