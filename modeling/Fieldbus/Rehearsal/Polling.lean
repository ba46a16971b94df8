import Fieldbus.Poll.Poller
import Fieldbus.Rehearsal.World

/-!
# Running a poll loop for a while

`World.rehearsePolling` runs the poll loop of a link for a time and cancels it.
The loop ends when it next looks, so the clock may stand later than that.
-/

namespace Fieldbus

/-- What a poll loop showed until it was cancelled. -/
structure Shown where
  /-- The last published state. -/
  state : ChannelState
  /-- The published reports and when they were published. -/
  reports : List (Nanos × CycleReport)
deriving Repr

namespace World

variable {L σ : Type} [Transport L σ]

/-- Runs the poll loop of a link for so many milliseconds and cancels it. -/
def rehearsePolling (w : World L σ) (c : Channel) (link : LinkId) (ms : Nat)
    (p : Poll.Poller Binary64) : Shown × World L σ :=
  let finish := w.now + millis ms
  let before := w.slot link
  let w := w.mapSlot link fun s => { s with cancelAt := some finish, states := [], reports := [] }
  let (_, w) := w.run (Poll.run c link (ms + 1) p)
  let after := w.slot link
  let state := match (after.states.filter fun entry => entry.1 < finish).getLast? with
    | some entry => entry.2
    | none => before.state
  let w := w.mapSlot link fun s => { s with isCancelled := true, cancelAt := none }
  (⟨state, after.reports⟩, { w with now := max w.now finish })

end World

end Fieldbus
