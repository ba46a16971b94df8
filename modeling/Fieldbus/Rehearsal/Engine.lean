import Fieldbus.Engine.Status
import Fieldbus.Rehearsal.Commands
import Fieldbus.Rehearsal.Station

/-!
# Running an engine

A site is an engine with the network it runs on.  After a reload every poll loop
that was started has run one cycle.
-/

namespace Fieldbus

/-- An engine and its world. -/
structure Site where
  world : World Wired Network
  roster : Roster := {}

namespace Site

/-- An engine without channels on a network. -/
def start (network : Network) (logCapacity : Nat) : Site :=
  { world := { peer := network, log := .ofCapacity logCapacity } }

/-- Runs the poll loops that have not run yet for one cycle each. -/
def settle (s : Site) : Site :=
  let started := s.roster.entries.map fun entry => entry.2.link
  { s with world := started.foldl (fun w link =>
      if (w.slot link).reports.isEmpty then w.pollOnce link else w) s.world }

/-- Brings the running channels to those of a list. -/
def reload (s : Site) (channels : List Channel) : ReloadReport × Site :=
  let ((roster, report), world) := s.world.run (s.roster.reload channels)
  (report, Site.settle { world, roster })

/-- Submits a command, which is executed at once, and says whether it was taken. -/
def submit (s : Site) (c : Command) : Bool × Site :=
  let (taken, world) := s.world.run c.submit
  (taken, { s with world := (world.run Command.serveNext).2 })

/-- What is known of a channel, if it runs. -/
def status (s : Site) (channel : UInt16) : Option ChannelStatus :=
  (s.roster.get? channel).map fun r => (s.world.run r.status).1

/-- Stops every channel and the executor. -/
def shutdown (s : Site) : Site :=
  { world := ((s.world.run s.roster.shutdown).2.run Command.retire).2 }

end Site

end Fieldbus
