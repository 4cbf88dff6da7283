import LiquidLint.Command.Basic
import LiquidLint.Report.Basic
import LiquidLint.Run.Basic

/-!
# Checking a project

The project is checked with the configuration that holds for it, and the result is reported. The
command fails when there are offenses of the level that was asked for.
-/

namespace LiquidLint
namespace Command

/-- What the flags of a check say. -/
structure CheckRequest where
  failLevel : Severity
  layer : Config

/-- Reads the flags of a check. -/
def checkRequest (vs : Values) : Except Failure CheckRequest :=
  let format := vs.text "format" []
  match Severity.ofName (vs.text "fail-level" "style"), Report.Format.parse format with
  | .error f, _ => .error ((f.within "invalid --fail-level").exiting usageStatus)
  | .ok _, .error f => .error (f.exiting usageStatus)
  | .ok failLevel, .ok _ => .ok { failLevel, layer := { layerOf vs with format } }

/-- The failure that the result of a run amounts to. -/
def resultFailure (r : Run.Result) : Option Failure :=
  if r.exitCode = 0 then none
  else if r.exitCode = 1 then
    some { causes := [.exitStatus 1, .offensesFound], message := "offenses found" }
  else
    some ((match Failure.joined? r.failures with
      | some f => f
      | none => .plain ("exit status " ++ Text.ofInt r.exitCode)).exiting r.exitCode.toNat)

/-- How the result of a check is reported. -/
def reportOptions (vs : Values) (format : Report.Format) : Report.Options where
  format := format
  colored := wantsColor vs
  context := !vs.isOn "no-context"
  summary := true
  grouped := true
  compact := vs.isOn "compact"
  byCheck := vs.isOn "by-check"

/-- Runs a check with a configuration and reports the result. A run that only shows what it would
change still computes the changes. -/
def checkProject (i : Invocation) (vs : Values) (paths : List Text) (failLevel : Severity)
    (l : Config.Loaded) : Outcome :=
  let config := { l.config with fix := l.config.fix || l.config.dryRun }
  let root := i.disk.absolute l.root
  let store : DiskStore :=
    { disk := i.disk
      root
      backup := { enabled := config.keepsBackups, mode := config.backups.mode } }
  let begun : List Log.Entry := loadEntries l ++
    [⟨.debug, "starting run", [("paths", Log.ofTexts paths), ("root", l.root)]⟩]
  let (result, store, around) := Run.run
    { root, workDir := i.disk.workDir, inputs := paths, config, registry := i.registry, failLevel
      runId := i.runId } store { cancelled := i.cancelled, log := begun }
  match result with
  | .error f =>
    { disk := store.disk
      log := around.log
      failure := some ((Failure.joined [.plain "check run failed", f]).exiting internalStatus) }
  | .ok r =>
    match Report.Format.parse config.format with
    | .error f =>
      { disk := store.disk, log := around.log, failure := some (f.exiting configStatus) }
    | .ok format =>
      { disk := store.disk
        log := around.log
        output := (Report.write (reportOptions vs format) (some r)).text
        failure := resultFailure r }

/-- Checks a project. -/
def check (i : Invocation) (p : Parsed) : Outcome :=
  match checkRequest p.values with
  | .error f => { disk := i.disk, failure := some f }
  | .ok request =>
    match loadConfig i p.values request.layer with
    | .error f => { disk := i.disk, failure := some f }
    | .ok l => checkProject i p.values p.arguments request.failLevel l

end Command
end LiquidLint
