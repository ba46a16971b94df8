import Fieldbus.Link.Rtu
import Fieldbus.Link.Tcp

/-!
# Links of channels

The medium of a channel decides the kind of its link.  A new link is down.
-/

namespace Fieldbus

inductive ChannelLink where
  /-- Over a network. -/
  | tcp (link : TcpLink)
  /-- Over a serial line. -/
  | rtu (link : RtuLink)
deriving Repr

namespace ChannelLink

def ofChannel (c : Channel) : Except Fault ChannelLink :=
  let state := LinkState.down c.retry.reconnectInitial c.retry.reconnectMax
  match c.medium with
  | .tcp host port =>
    .ok (.tcp {
      address := s!"{host}:{port}", connectTimeout := c.connectTimeout, timeout := c.timeout,
      state })
  | .rtu .. =>
    (SerialSettings.forChannel c).map fun settings =>
      .rtu { settings, timeout := c.timeout, state }

def state : ChannelLink → LinkState
  | tcp l => l.state
  | rtu l => l.state

/-- When a frame may be sent. -/
def readyAt (l : ChannelLink) (now : Nanos) : Nanos :=
  match l with
  | tcp _ => now
  | rtu l => l.readyAt now

def lift {L α : Type} (wrap : L → ChannelLink) (e : Called L α) : Called ChannelLink α :=
  { e with link := wrap e.link }

/-- Makes the link, if it is down and an attempt is allowed. -/
def connect (l : ChannelLink) (c : Conduct) (now : Nanos) : Called ChannelLink Unit :=
  match l with
  | tcp l => lift tcp (l.connect c now)
  | rtu l => lift rtu (l.connect c now)

def read (l : ChannelLink) (b : Batch) (c : Conduct) (now : Nanos) :
    Called ChannelLink (List UInt16) :=
  match l with
  | tcp l => lift tcp (l.read b c now)
  | rtu l => lift rtu (l.read b c now)

def write (l : ChannelLink) (p : Point) (words : List UInt16) (c : Conduct) (now : Nanos) :
    Called ChannelLink Unit :=
  match l with
  | tcp l => lift tcp (l.write p words c now)
  | rtu l => lift rtu (l.write p words c now)

def close : ChannelLink → ChannelLink
  | tcp l => tcp l.close
  | rtu l => rtu l.close

end ChannelLink

end Fieldbus
