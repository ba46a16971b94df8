import Fieldbus.Frame.Tcp
import Fieldbus.Link.State
import Fieldbus.Link.Wire
import Fieldbus.Link.WriteRequest
import Fieldbus.Plan.Batch

/-!
# Links over a network

A link over a network is one connection at a time.  Each request carries the next
transaction id, and responses with another id are passed over until the one that
is waited for arrives or the time is up.

Bytes are kept in a buffer from one exchange to the next.  So a response that
comes too late, or in pieces, is completed and passed over by the next exchange.
A malformed frame or a broken connection drops the link, and the buffer with it.
-/

namespace Fieldbus

/-! ## Frames in the buffer -/

namespace Tcp

/-- The size of the first frame in a buffer, if all of it is there. -/
def frameSize? (buffer : List UInt8) : Except Fault (Option Nat) :=
  if buffer.length < headerSize then .ok none
  else
    (Header.parse (buffer.take headerSize)).map fun header =>
      let size := headerSize + header.pduSize
      if buffer.length < size then none else some size

/-- A frame in the buffer has at least a header. -/
theorem headerSize_le_of_frameSize? {buffer : List UInt8} {size : Nat}
    (h : frameSize? buffer = .ok (some size)) : headerSize ≤ size ∧ size ≤ buffer.length := by
  unfold frameSize? at h
  split at h
  · simp at h
  · cases hp : Header.parse (buffer.take headerSize) with
    | error e => simp [hp, Except.map] at h
    | ok header =>
      simp only [hp, Except.map, Except.ok.injEq] at h
      split at h
      · simp at h
      · simp only [Option.some.injEq] at h
        omega

/-- Passes over the frames of other transactions.  What is found is the frame of the
transaction, if it is there, and the rest of the buffer. -/
def seek (transaction : UInt16) (buffer : List UInt8) :
    Except Fault (Option (List UInt8)) × List UInt8 :=
  match _found : frameSize? buffer with
  | .error fault => (.error fault, buffer)
  | .ok none => (.ok none, buffer)
  | .ok (some size) =>
    let frame := buffer.take size
    let rest := buffer.drop size
    if wordOf (frame.getD 0 0) (frame.getD 1 0) = transaction then (.ok (some frame), rest)
    else seek transaction rest
termination_by buffer.length
decreasing_by
  have := headerSize_le_of_frameSize? _found
  simp only [headerSize] at this
  simp only [List.length_drop]
  omega

end Tcp

/-! ## Links -/

/-- A link over a network. -/
structure TcpLink where
  /-- The host and the port. -/
  address : String
  /-- The time a connect may take. -/
  connectTimeout : Nanos
  /-- The time a response may take. -/
  timeout : Nanos
  state : LinkState
  /-- Bytes that were received and not used yet. -/
  buffer : List UInt8 := []
  ids : Tcp.TransactionIds := {}
deriving Repr

namespace TcpLink

def dropped (l : TcpLink) : TcpLink := { l with state := l.state.dropped, buffer := [] }

/-- Whether a fault drops the link. -/
def isFatal (fault : Fault) : Bool := fault.isConnection || fault.isFrame

/-! ## Connecting -/

/-- Makes the link, if it is down and an attempt is allowed. -/
def connect (l : TcpLink) (c : Conduct) (now : Nanos) : Called TcpLink Unit :=
  match l.state.gate now with
  | .up => ⟨.ok (), l, c.wire, now, []⟩
  | .held remaining => .unsent l c now (.held remaining)
  | .free =>
    if l.connectTimeout < c.dial.duration then
      let now := now + l.connectTimeout
      ⟨.error (.timeout (wholeMillis l.connectTimeout) s!"connect to {l.address}"),
        { l with state := l.state.missed now }, c.wire, now, []⟩
    else
      let now := now + c.dial.duration
      match c.dial.refusal with
      | none => ⟨.ok (), { l with state := l.state.made, buffer := [] }, c.wire, now, []⟩
      | some text =>
        ⟨.error (.connection s!"Failed to connect to {l.address}: {text}"),
          { l with state := l.state.missed now }, c.wire, now, []⟩

/-! ## Exchanges -/

/-- What waiting for a response gave. -/
structure Received where
  result : Except Fault (List UInt8)
  buffer : List UInt8
  wire : Wire
  now : Nanos

/-- Waits for the response to a transaction, up to a deadline at which `late` is the fault. -/
def receive (transaction : UInt16) (late : Fault) (deadline : Nanos) :
    (now : Nanos) → (buffer : List UInt8) → Wire → Received
  | now, buffer, wire =>
    match Tcp.seek transaction buffer, wire with
    | (.error fault, buffer), _ => ⟨.error fault, buffer, wire, now⟩
    | (.ok (some frame), buffer), _ => ⟨.ok frame, buffer, wire, now⟩
    | (.ok none, buffer), [] => ⟨.error late, buffer, [], deadline⟩
    | (.ok none, buffer), (time, arrival) :: rest =>
      if deadline < time then ⟨.error late, buffer, wire, deadline⟩
      else
        match arrival with
        | .bytes chunk => receive transaction late deadline (max now time) (buffer ++ chunk) rest
        | .closed => ⟨.error (.connection "Connection closed by peer"), buffer, rest, max now time⟩
        | .failed condition text =>
          ⟨.error (.ofSystem condition text), buffer, rest, max now time⟩

/-- Sends a frame and waits for the response to it. -/
def transact (l : TcpLink) (transaction : UInt16) (c : Conduct) (now : Nanos) : Received :=
  let deadline := now + l.timeout
  let late : Fault :=
    .timeout (wholeMillis l.timeout) s!"transaction {transaction} to {l.address}"
  match c.sending with
  | .whole => receive transaction late deadline now l.buffer c.wire
  | .late _ => ⟨.error late, l.buffer, c.wire, deadline⟩
  | .failed _ condition text => ⟨.error (.ofSystem condition text), l.buffer, c.wire, now⟩

def settle (l : TcpLink) (result : Except Fault Pdu) (response : List UInt8) : TcpLink :=
  match result with
  | .ok _ => { l with state := l.state.answered response }
  | .error fault =>
    let l := { l with state := l.state.blamed fault }
    if isFatal fault then l.dropped else l

/-- Makes the link if it is down, sends a data unit and waits for the one in response. -/
def exchange (l : TcpLink) (unit : UInt8) (pdu : Pdu) (c : Conduct) (now : Nanos) :
    Called TcpLink Pdu :=
  let made := l.connect c now
  match made.result with
  | .error fault => { made with result := .error fault }
  | .ok () =>
    let l := made.link
    let (transaction, ids) := l.ids.take
    let frame := Tcp.encode transaction unit pdu
    let l := { l with ids, state := l.state.begun frame }
    let r := l.transact transaction c made.now
    let result := r.result >>= fun response => Pdu.ofBytes (response.drop Tcp.headerSize)
    let response := match r.result with
      | .ok response => response
      | .error _ => []
    let l := { l with buffer := r.buffer }.settle result response
    ⟨result, l, r.wire, r.now, c.sending.taken frame⟩

/-! ## Calls -/

def blamed (l : TcpLink) (fault : Fault) : TcpLink := { l with state := l.state.blamed fault }

def read (l : TcpLink) (b : Batch) (c : Conduct) (now : Nanos) : Called TcpLink (List UInt16) :=
  match b.request with
  | .error fault => .unsent l c now fault
  | .ok pdu => (l.exchange b.slave pdu c now).parsed blamed b.parse

def write (l : TcpLink) (p : Point) (words : List UInt16) (c : Conduct) (now : Nanos) :
    Called TcpLink Unit :=
  match WriteRequest.forPoint p words with
  | .error fault => .unsent l c now fault
  | .ok request => (l.exchange p.slave request.pdu c now).parsed blamed request.check

def close (l : TcpLink) : TcpLink := if l.state.isUp then l.dropped else l

end TcpLink

end Fieldbus
