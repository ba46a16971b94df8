import Fieldbus.Activity

/-!
# Reloading

A reload brings the running channels to those of a list.  A channel that is not
listed is stopped.  A listed channel keeps running if nothing has changed, gets
another plan if only its points have, and is stopped and started again
otherwise.  A channel without a plan or without a link does not run.

`Roster` is what the engine knows of its running channels.  A channel keeps its
link until it is stopped, so the link tells whether a channel was started again.

Stopping ends the poll loop before the link is taken down.  A channel that is
gone for good is forgotten: its log policy and its values go too.
-/

namespace Fieldbus

open Activity (ask)

/-! ## Running channels -/

/-- A running channel. -/
structure Running where
  channel : Channel
  link : LinkId
  /-- The plan that its poll loop was given last. -/
  plan : Plan
deriving Repr

/-- The running channels by id. -/
abbrev Roster := Table UInt16 Running

/-- What a reload did, by channel. -/
structure ReloadReport where
  started : List UInt16 := []
  /-- Given another plan. -/
  replanned : List UInt16 := []
  /-- Stopped and started again. -/
  restarted : List UInt16 := []
  /-- Left alone. -/
  unchanged : List UInt16 := []
  stopped : List UInt16 := []
  /-- Why listed channels do not run. -/
  rejected : List Defect := []
deriving Repr

namespace ReloadReport

def stop (r : ReloadReport) (id : UInt16) : ReloadReport := { r with stopped := r.stopped ++ [id] }

/-- A channel does not run. -/
def reject (r : ReloadReport) (defect : Defect) : ReloadReport :=
  { r with rejected := r.rejected ++ [defect] }

end ReloadReport

/-! ## Starting and stopping -/

namespace Running

def start (c : Channel) (plan : Plan) : Activity (Except Defect Running) := do
  match ChannelLink.ofChannel c with
  | .error fault => return .error (.channel c.id (.link fault))
  | .ok l =>
    ask (.setPolicy c.id c.log)
    let link ← ask (.start c l plan)
    ask (.register ⟨c, link⟩)
    return .ok ⟨c, link, plan⟩

/-- Gives a running channel its new points under a plan. -/
def replan (r : Running) (c : Channel) (plan : Plan) : Activity Running := do
  ask (.setPlan r.link plan)
  ask (.register ⟨c, r.link⟩)
  return { r with channel := c, plan }

/-- Stops a running channel, and forgets it if it is gone for good. -/
def stop (r : Running) (isGone : Bool) : Activity Unit := do
  let id := r.channel.id
  ask (.unregister id)
  ask (.cancel r.link)
  ask (.join r.link)
  ask (.lock r.link)
  ask (.close r.link)
  ask (.unlock r.link)
  if isGone then
    ask (.dropPolicy id)
    ask (.forget id)

end Running

/-! ## Reloading -/

namespace Roster

/-- Stops running channels for good. -/
def stopGone : List Running → Roster → ReloadReport → Activity (Roster × ReloadReport)
  | [], roster, report => return (roster, report)
  | r :: rest, roster, report => do
    r.stop true
    stopGone rest (roster.erase r.channel.id) (report.stop r.channel.id)

/-- Brings one channel to what the list says. -/
def adopt (roster : Roster) (report : ReloadReport) (c : Channel) :
    Activity (Roster × ReloadReport) := do
  match c.plan, roster.get? c.id with
  | .error defect, none => return (roster, report.reject defect)
  | .error defect, some r =>
    r.stop true
    return (roster.erase c.id, (report.stop c.id).reject defect)
  | .ok plan, none =>
    match ← Running.start c plan with
    | .ok r => return (roster.insert c.id r, { report with started := report.started ++ [c.id] })
    | .error defect => return (roster, report.reject defect)
  | .ok plan, some r =>
    if r.channel.agrees c then
      return (roster, { report with unchanged := report.unchanged ++ [c.id] })
    else if r.channel.sameRuntime c then
      let r ← r.replan c plan
      return (roster.insert c.id r, { report with replanned := report.replanned ++ [c.id] })
    else
      r.stop false
      match ← Running.start c plan with
      | .ok r =>
        return (roster.insert c.id r, { report with restarted := report.restarted ++ [c.id] })
      | .error defect => return (roster.erase c.id, (report.stop c.id).reject defect)

/-- Brings channels to what the list says, in order. -/
def adoptAll : List Channel → Roster → ReloadReport → Activity (Roster × ReloadReport)
  | [], roster, report => return (roster, report)
  | c :: rest, roster, report => do
    let (roster, report) ← adopt roster report c
    adoptAll rest roster report

/-- The running channels that a list does not name. -/
def gone (roster : Roster) (channels : List Channel) : List Running :=
  (roster.entries.filter fun entry => !(channels.any fun c => c.id = entry.1)).map Prod.snd

/-- Brings the running channels to those of a list. -/
def reload (roster : Roster) (channels : List Channel) : Activity (Roster × ReloadReport) := do
  let (roster, report) ← stopGone (roster.gone channels) roster {}
  adoptAll channels roster report

/-- Stops running channels.  What is known of them stays. -/
def stopEach : List Running → Activity Unit
  | [] => return ()
  | r :: rest => do
    r.stop false
    stopEach rest

/-- Stops every running channel. -/
def shutdown (roster : Roster) : Activity Unit := stopEach (roster.entries.map Prod.snd)

end Roster

end Fieldbus
