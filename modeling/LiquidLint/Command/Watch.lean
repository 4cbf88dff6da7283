import LiquidLint.Command.Basic

/-!
# Watching a project from the command line

The project is analysed once; then the watcher is handed on to whoever follows the changes.
-/

namespace LiquidLint
namespace Command

/-- The quiet time that holds unless one is given, in nanoseconds. -/
def standardDebounce : Int := 200000000

/-- The time between analyses of the whole project that holds unless one is given. -/
def standardInterval : Int := 5000000000

/-- A time that was given, if it is one, and otherwise the standard. -/
def timeOr (standard given : Int) : Int := if 0 < given then given else standard

/-- Starts to watch a project. -/
def watch (i : Invocation) (p : Parsed) : Outcome :=
  let vs := p.values
  match loadConfig i vs (layerOf vs) with
  | .error f => { disk := i.disk, failure := some f }
  | .ok l =>
    let begun := loadEntries l
    match Watcher.ofConfig (i.disk.absolute l.root) l.config i.registry (wantsColor vs) i.runId with
    | .error f => { disk := i.disk, log := begun, failure := some (f.exiting configStatus) }
    | .ok w =>
      let step := w.begin i.disk { cancelled := i.cancelled }
      let log := begun ++ step.around.log.map (·.within [("root", w.root)])
      match step.outcome with
      | .error f =>
        { disk := i.disk
          log
          output := step.printed
          failure := some ((Failure.joined [.plain "watch failed", f]).exiting internalStatus) }
      | .ok () =>
        { disk := i.disk
          log
          output := step.printed
          following := some
            { watcher := step.watcher
              debounce := timeOr standardDebounce (vs.duration "debounce")
              interval := timeOr standardInterval (vs.duration "project-interval") } }

end Command
end LiquidLint
