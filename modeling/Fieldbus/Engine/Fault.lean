/-!
# Faults of the engine

What goes wrong in the engine itself, apart from devices and configurations: a
command comes after the last executor is gone, or a task dies.
-/

namespace Fieldbus

/-- A fault of the engine itself. -/
inductive EngineFault where
  /-- Commands are no longer taken.  The command is named by its id. -/
  | queueClosed (command : String)
  | task (name text : String)
deriving DecidableEq, Repr

def EngineFault.message : EngineFault → String
  | queueClosed command => s!"Command queue closed, request {command} not accepted"
  | task name text => s!"Task {name} failed: {text}"

end Fieldbus
