import LiquidLint.Command.Arguments
import LiquidLint.Config.Load
import LiquidLint.Log.Entry
import LiquidLint.Rule.All
import LiquidLint.Watch.Basic

/-!
# What a command is given and what it comes to

A command is given arguments, variables and a disk. It prints something, leaves lines in the log,
may change the disk and may fail. A failure says with which status the program ends.
-/

namespace LiquidLint
namespace Command

/-- What is known of how the program was built. -/
structure BuildInfo where
  version : Text := "dev"
  commit : Text := "none"
  date : Text := "unknown"

/-- What a command is given. -/
structure Invocation where
  args : List Text
  env : Table Text := {}
  disk : Disk := {}
  cancelled : Bool := false
  build : BuildInfo := {}
  registry : Registry := Rule.registry
  /-- Whether descriptions of commands are coloured. -/
  coloredHelp : Bool := false
  runId : Text := []

/-- A watcher that goes on after the command, and how long it waits, in nanoseconds. -/
structure Following where
  watcher : Watcher
  /-- The quiet time before changed files are analysed. -/
  debounce : Int
  /-- The least time between two analyses of the whole project. -/
  interval : Int

/-- What a command comes to. -/
structure Outcome where
  disk : Disk
  /-- What is printed. -/
  output : Text := []
  /-- What is printed aside of the output, as on a mistaken request. -/
  notices : Text := []
  log : List Log.Entry := []
  failure : Option Failure := none
  /-- Whether every line of the log was asked for. -/
  debug : Bool := false
  following : Option Following := none

/-- The status for a wrong use of the program. -/
def usageStatus : Nat := 64

/-- The status for a configuration that cannot be used. -/
def configStatus : Nat := 65

/-- The status for failures of the program itself. -/
def internalStatus : Nat := 2

end Command

/-- The failure that ends the program with a status. -/
def Failure.exiting (status : Nat) (f : Failure) : Failure :=
  { f with causes := .exitStatus status :: f.causes }

/-- The status with which a failure ends the program. -/
def Failure.status (f : Failure) : Nat :=
  (f.causes.findSome? fun c =>
    match c with
    | .exitStatus n => some n
    | _ => none).getD Command.internalStatus

namespace Command

/-- The status with which the program ends. -/
def Outcome.status (o : Outcome) : Nat := (o.failure.map (·.status)).getD 0

/-- The variable that sets the least level of the log. -/
def levelVariable : Text := "POSCHECK_LOG_LEVEL"

/-- The least level of the log that is shown. -/
def Outcome.level (o : Outcome) (env : Table Text) : Log.Level :=
  if o.debug then .debug else Log.Level.ofName (Log.Level.nameFromEnv (env.get? levelVariable))

/-- What the program writes besides its output: the log from the level that was asked for on, and at
the end why it failed, unless that is what it was to find out. -/
def Outcome.errorOutput (o : Outcome) (env : Table Text) : Text :=
  let last : List Log.Entry := match o.failure with
    | some f =>
      if f.causes.contains .offensesFound then []
      else [⟨.error, "command failed", [("error", f.message)]⟩]
    | none => []
  o.notices ++ Log.render (o.level env) (o.log ++ last)

/-! ## Configuration -/

/-- The layer of a configuration that flags make. -/
def layerOf (vs : Values) : Config where
  fix := vs.isOn "fix"
  dryRun := vs.isOn "dry-run"
  noBackups := vs.isOn "no-backups"
  ignore := vs.texts? "ignore"
  enable := vs.texts? "enable"
  disable := vs.texts? "disable"
  jobs := vs.integer "jobs"

/-- The lines of the log about a loaded configuration. -/
def loadEntries (l : Config.Loaded) : List Log.Entry :=
  (l.warnings.map fun w => ⟨.warn, w, []⟩) ++
    (if l.loadedFrom.isEmpty then []
      else [⟨.debug, "loaded configuration from", [("files", Log.ofTexts l.loadedFrom)]⟩]) ++
    [⟨.debug, "configuration loaded",
      [("root", l.root), ("fix", Log.ofBool l.config.fix),
        ("dry_run", Log.ofBool l.config.dryRun)]⟩]

/-- The configuration of a command, with a layer of the command line. -/
def loadConfig (i : Invocation) (vs : Values) (layer : Config) : Except Failure Config.Loaded :=
  match Config.load i.disk i.env i.registry i.cancelled
      { workDir := i.disk.workDir
        explicit := vs.text "config" []
        commandLine := some layer } with
  | .ok l => .ok l
  | .error f =>
    .error ((Failure.joined [.plain "failed to load configuration", f]).exiting configStatus)

/-- Whether output is coloured. -/
def wantsColor (vs : Values) : Bool := Report.wantsColor (vs.text "color" "auto")

end Command
end LiquidLint
