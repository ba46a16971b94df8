import Fieldbus.Activity
import Fieldbus.Link.WriteRequest

/-!
# Executing commands

A command is dispatched to its channel by one write.  Unknown targets, points
that take no commands, channels that refuse commands and values without a
register form end it before anything is sent.  Nothing is tried again.

An acknowledged write puts the written value into the store as a poll would read
it.
-/

namespace Fieldbus.Command

open Activity (ask)

/-- Puts the status of a command on the board, and announces it if the command has ended. -/
def report (command : String) (status : CommandStatus) : Activity Unit := do
  let time ← ask .clock
  let outcome := Board.outcomeOf command status time
  ask (.post outcome)
  if status.isTerminal then ask (.announce outcome)

/-- The writable point of a command, with the words to write, or why there are none. -/
def aim (c : Command) (channel : Channel) (state : ChannelState) :
    Except CommandFault (Point × List UInt16) :=
  match channel.point? c.point with
  | none => .error (.unknownPoint c.point c.channel)
  | some p =>
    if !p.isWritable then .error (.notWritable p.id)
    else if state.rejectsCommands then .error (.rejected c.channel state)
    else
      match p.type.encode c.value p.order with
      | .ok words => .ok (p, words)
      | .error fault => .error (.encoding fault)

def statusAfter : Except Fault Unit → CommandStatus
  | .ok () => .acknowledged
  | .error fault => if fault.isTimeout then .timedOut fault else .failed (.exchange fault)

/-- Writes the words of a command to its point. -/
def send (c : Command) (h : ChannelHandle) (p : Point) (words : List UInt16) :
    Activity CommandStatus := do
  report c.id .inFlight
  let started ← ask .now
  ask (.lock h.link)
  let result ← ask (.write h.link p words)
  let frames ← if h.channel.log.level = .debug then some <$> ask (.frames h.link) else pure none
  ask (.unlock h.link)
  let ended ← ask .now
  let time ← ask .clock
  let fault := match result with
    | .ok () => none
    | .error fault => some fault
  ask (.log { channel := h.channel.id, time, purpose := .ofPoint p c.id, fault,
              latency := ended - started, frames })
  if fault.isNone then
    ask (.publish [ackWrite h.channel.id p (p.acknowledged words c.value)])
  return statusAfter result

/-- Takes a command to its device, and says how it ends. -/
def dispatch (c : Command) : Activity CommandStatus := do
  match ← ask (.find c.channel) with
  | none => return .failed (.unknownChannel c.channel)
  | some h =>
    let state ← ask (.state h.link)
    match c.aim h.channel state with
    | .error cause => return .failed cause
    | .ok (p, words) => c.send h p words

/-- Executes a command and puts its end on the board. -/
def execute (c : Command) : Activity CommandStatus := do
  let status ← c.dispatch
  report c.id status
  return status

end Fieldbus.Command
