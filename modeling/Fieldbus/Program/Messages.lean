import Fieldbus.Config.Check
import Fieldbus.Config.Settings
import Fieldbus.Engine.Reload
import Fieldbus.Program.Arguments

/-!
# Messages of the program

What the program says: its texts, the outcome of a check, and the messages of the
running service.
-/

namespace Fieldbus.Program

/-! ## Texts -/

def version : String := "0.1.0"

def title : String :=
  s!"Voltage Acquisition v{version} - multi-channel Modbus acquisition engine by Evan Liu"

/-- The default port of devices on a network. -/
def defaultPort : Nat := 502

def versionText : String := s!"voltage-acquire {version}\n"

def helpText : String := "\n".intercalate
  ["Multi-channel Modbus acquisition service",
    "",
    "Usage: voltage-acquire [OPTIONS]",
    "",
    "Options:",
    "  -c, --config <CONFIG>",
    "          Channel configuration file (YAML) [default: config/channels.yaml]",
    "      --log-dir <LOG_DIR>",
    "          Override the message log directory from the configuration",
    "      --validate",
    "          Validate the configuration and exit",
    "      --summary-secs <SUMMARY_SECS>",
    "          Seconds between channel summaries in the service log (0 disables) [default: 60]",
    "  -h, --help",
    "          Print help",
    "  -V, --version",
    "          Print version",
    ""]

/-! ## Configuration -/

/-- The settings under options, from the text of the configuration file or the reason why it
cannot be read. -/
def Options.settings (o : Options) (file : Except String String) :
    Except Defect Config.Settings :=
  match file with
  | .error reason => .error (.unreadable o.config reason)
  | .ok text =>
    (Config.readSettings text).map fun s => { s with logDir := o.logDir.getD s.logDir }

/-- The lines that say how a check went. -/
def Options.verdict (o : Options) (loaded : Config.Loaded) : List String :=
  let points := loaded.channels.foldl (fun n c => n + c.points.length) 0
  let counts := s!"{loaded.channels.length} channels valid ({points} points), " ++
    s!"{loaded.rejected.length} rejected"
  s!"{o.config}: {counts}" ::
    loaded.rejected.map fun defect => s!"  rejected: {defect.message}"

/-- How a run of the program ended. -/
structure Ended where
  code : Nat := 0
  /-- What was written to standard output. -/
  output : String := ""
  /-- What was written to standard error. -/
  complaint : String := ""
deriving DecidableEq, Repr

/-- The end of a run that breaks down. -/
def brokenDown (reason : String) : Ended := { code := 101, complaint := reason }

/-- The end of a run that breaks down while it loads a configuration. -/
def overflowed : Ended := brokenDown "the size of a segment is too large"

def Options.check (o : Options) (file : Except String String) : Ended :=
  match o.settings file with
  | .error defect => { code := 1, complaint := defect.message }
  | .ok settings =>
    match Config.load .yaml settings.entries with
    | .ok loaded => { output := String.join ((o.verdict loaded).map (· ++ "\n")) }
    | .error _ => overflowed

inductive Task where
  /-- Nothing more. -/
  | finish (ended : Ended)
  | check (options : Options)
  /-- Running the service. -/
  | serve (options : Options)
deriving DecidableEq, Repr

def Task.ofArguments (arguments : List String) : Task :=
  match Request.ofArguments arguments with
  | .error fault => .finish { code := 2, complaint := fault.message }
  | .ok .help => .finish { output := helpText }
  | .ok .version => .finish { output := versionText }
  | .ok (.run o) => if o.validate then .check o else .serve o

/-! ## The service -/

def rejected (defect : Defect) : String := s!"Channel rejected: {defect.message}"

def reloaded (r : ReloadReport) : String :=
  s!"Reload: {r.started.length} started, {r.replanned.length} replanned, " ++
    s!"{r.restarted.length} restarted, {r.unchanged.length} unchanged, " ++
    s!"{r.stopped.length} stopped, {r.rejected.length} rejected"

def Options.reloading (o : Options) : String := s!"SIGHUP received, reloading {o.config}"

def skipped (defect : Defect) : String :=
  s!"Reload skipped, configuration unreadable: {defect.message}"

def stopped : String := "Engine stopped"

end Fieldbus.Program
