import Fieldbus.Log.Walk
import Fieldbus.Program.Messages
import Fieldbus.Rehearsal.Engine

/-!
# Running the service

The service loads its configuration, runs an engine, loads it again on a hangup
and ends on an interrupt.  A configuration that cannot be read ends the service
at its start, and is passed over later.  A queue that is larger than queues can be
breaks the service at its start, and a segment that is larger than segments can be
breaks it whenever a configuration is loaded.

The service works in a folder, where it finds its configuration and makes the
folder of its logs.
-/

namespace Fieldbus

/-- What a run of the program left behind. -/
structure Rehearsed where
  ended : Program.Ended
  messages : List String := []
  disk : Log.Disk

/-! ## The service -/

/-- A running service. -/
structure Service where
  options : Program.Options
  site : Site
  messages : List String
  disk : Log.Disk

namespace Service

open Program (title rejected reloaded skipped stopped brokenDown overflowed)

/-- The service after it has said something. -/
def say (s : Service) (messages : List String) : Service :=
  { s with messages := s.messages ++ messages }

/-- Brings the engine to the channels of a configuration. -/
def reload (s : Service) (loaded : Config.Loaded) : Service :=
  let (report, site) := s.site.reload loaded.channels
  { s with site }.say [reloaded report]

/-- What the program says before it checks or serves a configuration. -/
def preamble (settings : Except Defect Config.Settings) : List String :=
  match settings with
  | .ok settings => title :: (Config.defects (Config.load .yaml settings.entries)).map rejected
  | .error _ => [title]

/-- Starts a service in a folder, from the text of its configuration file or the reason why
that cannot be read.  What the program left behind is given if it does not start. -/
def start (o : Program.Options) (network : Network) (disk : Log.Disk)
    (file : Except String String) : Except Rehearsed Service :=
  let settings := o.settings file
  let messages := preamble settings
  match settings with
  | .error defect => .error { ended := { code := 1, complaint := defect.message }, messages, disk }
  | .ok settings =>
    match Config.load .yaml settings.entries with
    | .error _ => .error { ended := overflowed, messages, disk }
    | .ok loaded =>
      let disk := disk.withFolder settings.logDir
      if settings.hasRoom then
        let s : Service :=
          { options := o, site := .start network settings.logQueueCapacity, messages, disk }
        .ok (s.reload loaded)
      else .error { ended := brokenDown "a queue is too large", messages, disk }

/-- The service after a hangup, from the text of its configuration file or the reason why that
cannot be read.  What the program left behind is given if it breaks down. -/
def hangup (s : Service) (file : Except String String) : Except Rehearsed Service :=
  let s := s.say [s.options.reloading]
  match s.options.settings file with
  | .ok settings =>
    let loading := Config.load .yaml settings.entries
    let s := s.say ((Config.defects loading).map rejected)
    match loading with
    | .error _ => .error { ended := overflowed, messages := s.messages, disk := s.disk }
    | .ok loaded => .ok (s.reload loaded)
  | .error defect => .ok (s.say [skipped defect])

def interrupt (s : Service) : Service := { s with site := s.site.shutdown }.say [stopped]

/-- The service after a change of its folder and a hangup. -/
def change (s : Service) (f : Log.Disk → Log.Disk) : Except Rehearsed Service :=
  let s := { s with disk := f s.disk }
  s.hangup (s.disk.read s.options.config)

end Service

/-- Runs the program in a folder.  If it serves, its folder goes through changes, each followed
by a hangup, and then it is interrupted, unless it has broken down. -/
def rehearse (arguments : List String) (network : Network) (disk : Log.Disk)
    (changes : List (Log.Disk → Log.Disk)) : Rehearsed :=
  match Program.Task.ofArguments arguments with
  | .finish ended => { ended, disk }
  | .check o =>
    let file := disk.read o.config
    { ended := o.check file, messages := Service.preamble (o.settings file), disk }
  | .serve o =>
    match Service.start o network disk (disk.read o.config) >>= changes.foldlM Service.change with
    | .error left => left
    | .ok s =>
      let s := s.interrupt
      { ended := {}, messages := s.messages, disk := s.disk }

end Fieldbus
