import Fieldbus.Link.Channel
import Fieldbus.Rehearsal.World

/-!
# Stations

A station is a device that reacts to requests, whatever they say: the first
request sets off its first reaction, the second one its second.  A reaction is a
list of actions, carried out one after another.  A station is busy with one
reaction at a time.  It begins a moment after the request, and what it sends
arrives at once.

A wired link is a link with the station at its other end, and with what is on
its way.  Which station that is depends on the medium of the channel.
-/

namespace Fieldbus

/-! ## Devices -/

/-- One thing that a station does. -/
inductive Action where
  | send (bytes : List UInt8)
  | sleep (duration : Nanos)
  /-- Closes the link for good. -/
  | close
deriving Repr

/-- A device that reacts to requests. -/
structure Station where
  /-- Why no link to it can be made, if none can. -/
  refusal : Option String := none
  /-- What it will do, one list of actions for each request. -/
  reactions : List (List Action) := []
  /-- When it is done with its last reaction. -/
  busyUntil : Nanos := 0
  /-- When it has closed the link, if it has. -/
  closedAt : Option Nanos := none
deriving Repr

namespace Station

/-- What arrives from a station that acts from a time on. -/
def act (s : Station) : (now : Nanos) → List Action → Wire × Station
  | now, [] => ([], { s with busyUntil := now })
  | now, .send bytes :: rest =>
    let (wire, s) := s.act now rest
    ((now, .bytes bytes) :: wire, s)
  | now, .sleep duration :: rest => s.act (now + duration) rest
  | now, .close :: rest =>
    let (wire, s) := { s with closedAt := some (s.closedAt.getD now) }.act now rest
    ((now, .closed) :: wire, s)

/-- The moment between a request and the first action. -/
def moment : Nanos := 1000

/-- What arrives from a station that gets a request at a time. -/
def react (s : Station) (now : Nanos) : Wire × Station :=
  match s.reactions with
  | [] => ([], s)
  | actions :: reactions => { s with reactions }.act (max now s.busyUntil + moment) actions

/-- Whether the link is closed for good at a time. -/
def isClosed (s : Station) (now : Nanos) : Bool := s.closedAt.any fun time => time ≤ now

/-- How an attempt to reach the station ends. -/
def dial (s : Station) (now : Nanos) : Dial :=
  { refusal := if s.isClosed now then some "No such file or directory" else s.refusal }

def sending (s : Station) (now : Nanos) : Sending :=
  if s.isClosed now then .failed 0 .other "Input/output error (os error 5)" else .whole

end Station

/-! ## Links -/

/-- The stations, by the medium that leads to them. -/
abbrev Network := Medium → Station

/-- A network where nothing can be reached.  There is no serial line, and the null device
is none. -/
def Network.unreachable : Network
  | .tcp .. => { refusal := some "Network is unreachable (os error 101)" }
  | .rtu device .. =>
    { refusal := some
        (if device = "/dev/null" then "Not a typewriter" else "No such file or directory") }

/-- A link with the other side of it. -/
structure Wired where
  link : ChannelLink
  station : Station
  wire : Wire := []
deriving Repr

/-- A call on a wired link.  The station reacts if a request is sent. -/
def Wired.call {α : Type} (w : Wired) (network : Network) (now : Nanos)
    (f : ChannelLink → Conduct → Nanos → Called ChannelLink α) : Exchanged Wired Network α :=
  let ready := w.link.readyAt now
  let (reply, station) := w.station.react ready
  let called := f w.link
    { dial := w.station.dial now, sending := w.station.sending ready, wire := w.wire ++ reply } now
  let wired : Wired := if called.sent.isEmpty then { w with link := called.link }
    else { link := called.link, station, wire := called.wire }
  { result := called.result, link := wired, peer := network, now := called.now }

instance : Transport Wired Network where
  attach network channel link := { link, station := network channel.medium }
  isConnected w := w.link.state.isUp
  frames w := w.link.state.frames
  stats w := w.link.state.stats
  connect w network now := w.call network now ChannelLink.connect
  read w network now b := w.call network now fun l => l.read b
  write w network now p words := w.call network now fun l => l.write p words
  close w := { w with link := w.link.close }

end Fieldbus
