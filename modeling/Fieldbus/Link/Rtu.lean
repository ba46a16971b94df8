import Fieldbus.Frame.Rtu
import Fieldbus.Link.Serial
import Fieldbus.Link.State
import Fieldbus.Link.Wire
import Fieldbus.Link.WriteRequest
import Fieldbus.Plan.Batch

/-!
# Links over a serial line

A serial line carries one request or response at a time, and frames are kept
apart by silence.  The size of a response follows from its first three bytes, so
exactly one frame is read.

A response has nothing that ties it to its request but the slave address.  After
an error the bytes that have arrived are thrown away, since they would be taken
for the next response.  A broken line drops the link.
-/

namespace Fieldbus

/-- A link over a serial line. -/
structure RtuLink where
  settings : SerialSettings
  /-- The time a response may take. -/
  timeout : Nanos
  state : LinkState
  /-- When the last exchange ended, if there was one since the line was opened. -/
  lastActivity : Option Nanos := none
deriving Repr

namespace RtuLink

/-- The silence between frames. -/
def silence (l : RtuLink) : Nanos := Rtu.silence l.settings.baud.toNat

def dropped (l : RtuLink) : RtuLink := { l with state := l.state.dropped }

/-! ## Connecting -/

/-- Opens the line, if it is closed and an attempt is allowed. -/
def connect (l : RtuLink) (c : Conduct) (now : Nanos) : Called RtuLink Unit :=
  match l.state.gate now with
  | .up => ⟨.ok (), l, c.wire, now, []⟩
  | .held remaining => .unsent l c now (.held remaining)
  | .free =>
    let now := now + c.dial.duration
    match c.dial.refusal with
    | none => ⟨.ok (), { l with state := l.state.made, lastActivity := none }, c.wire, now, []⟩
    | some text =>
      ⟨.error (.connection s!"Failed to open serial port {l.settings.device}: {text}"),
        { l with state := l.state.missed now }, c.wire, now, []⟩

/-! ## Exchanges -/

/-- When a frame may be sent. -/
def readyAt (l : RtuLink) (now : Nanos) : Nanos :=
  match l.lastActivity with
  | some last => max now (last + l.silence)
  | none => now

/-- What waiting for a response gave. -/
structure Received where
  /-- The data unit of the response. -/
  result : Except Fault Pdu
  /-- The frame as far as it came, filled up with zeros to the size it has to have. -/
  response : List UInt8
  wire : Wire
  now : Nanos

/-- The data unit of a frame from a slave. -/
def accept (slave : UInt8) (frame : List UInt8) : Except Fault Pdu := do
  let (address, pdu) ← Rtu.decode frame
  if address ≠ slave then throw (.protocol (.otherSlave slave address))
  return pdu

/-- The size of a response, from its first three bytes, if a frame may have it. -/
def announcedSize (head : List UInt8) : Except Fault Nat := do
  let size ← Rtu.responseSize (head.getD 1 0) (head.getD 2 0)
  if Rtu.maxFrameSize < size then throw (.frame (.announced size))
  return size

/-- Waits for one response of a slave, up to a deadline at which `late` is the fault. -/
def receive (slave : UInt8) (late : Fault) (deadline now : Nanos) (wire : Wire) : Received :=
  let head := Wire.takeUntil deadline now 3 wire
  match head.ending with
  | .late => ⟨.error late, [], head.rest, head.now⟩
  | .broken fault => ⟨.error fault, [], head.rest, head.now⟩
  | .enough =>
    match announcedSize head.bytes with
    | .error fault => ⟨.error fault, [], head.rest, head.now⟩
    | .ok size =>
      let body := Wire.takeUntil deadline head.now (size - 3) head.rest
      let frame := head.bytes ++ body.bytes
      let response := frame ++ List.replicate (size - frame.length) 0
      match body.ending with
      | .late => ⟨.error late, response, body.rest, body.now⟩
      | .broken fault => ⟨.error fault, response, body.rest, body.now⟩
      | .enough => ⟨accept slave frame, response, body.rest, body.now⟩

/-- Sends a frame and waits for the response to it. -/
def transact (l : RtuLink) (slave : UInt8) (c : Conduct) (now : Nanos) : Received :=
  let deadline := now + l.timeout
  let late : Fault :=
    .timeout (wholeMillis l.timeout) s!"slave {slave} on {l.settings.device}"
  match c.sending with
  | .whole => receive slave late deadline now c.wire
  | .late _ => ⟨.error late, [], c.wire, deadline⟩
  | .failed _ condition text => ⟨.error (.ofSystem condition text), [], c.wire, now⟩

def settle (l : RtuLink) (r : Received) : RtuLink × Wire :=
  let l := { l with lastActivity := some r.now }
  match r.result with
  | .ok _ => ({ l with state := l.state.answered r.response }, r.wire)
  | .error fault =>
    let frames := { l.state.frames with response := r.response }
    let l := { l with state := { l.state.blamed fault with frames } }
    if fault.isConnection then (l.dropped, r.wire) else (l, r.wire.discard r.now)

/-- Opens the line if it is closed, waits for silence, sends a data unit and waits for the one
in response. -/
def exchange (l : RtuLink) (slave : UInt8) (pdu : Pdu) (c : Conduct) (now : Nanos) :
    Called RtuLink Pdu :=
  let made := l.connect c now
  match made.result with
  | .error fault => { made with result := .error fault }
  | .ok () =>
    let l := made.link
    let frame := Rtu.encode slave pdu
    let r := l.transact slave c (l.readyAt made.now)
    let (l, wire) := { l with state := l.state.begun frame }.settle r
    ⟨r.result, l, wire, r.now, c.sending.taken frame⟩

/-! ## Calls -/

def blamed (l : RtuLink) (fault : Fault) : RtuLink := { l with state := l.state.blamed fault }

def read (l : RtuLink) (b : Batch) (c : Conduct) (now : Nanos) : Called RtuLink (List UInt16) :=
  match b.request with
  | .error fault => .unsent l c now fault
  | .ok pdu => (l.exchange b.slave pdu c now).parsed blamed b.parse

def write (l : RtuLink) (p : Point) (words : List UInt16) (c : Conduct) (now : Nanos) :
    Called RtuLink Unit :=
  match WriteRequest.forPoint p words with
  | .error fault => .unsent l c now fault
  | .ok request => (l.exchange p.slave request.pdu c now).parsed blamed request.check

def close (l : RtuLink) : RtuLink := l.dropped

end RtuLink

end Fieldbus
