import Fieldbus.Engine.Reload

/-!
# The status of a channel

Whoever asks for the status of a running channel waits for the lock of its link, so for one
request at most, and reads the counters.  The rest of the status is read afterwards.
-/

namespace Fieldbus

open Activity (ask)

/-- What is known of a running channel. -/
structure ChannelStatus where
  channel : Channel
  state : ChannelState
  batches : Nat
  report : Option CycleReport
  stats : LinkStats
deriving Repr

/-- Asks what is known of a running channel. -/
def Running.status (r : Running) : Activity ChannelStatus := do
  ask (.lock r.link)
  let stats ← ask (.stats r.link)
  ask (.unlock r.link)
  let report ← ask (.lastReport r.link)
  let plan ← ask (.plan r.link)
  let state ← ask (.state r.link)
  return { channel := r.channel, state, batches := plan.size, report, stats }

end Fieldbus
