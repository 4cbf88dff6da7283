import LiquidLint.Analysis.Visit
import LiquidLint.Config.Basic
import LiquidLint.Glob.Compile
import LiquidLint.Store.Snapshot

/-!
# What a run looks at

A configuration decides which files of a project are left alone, and how the checks are run. A run
may be limited to some files and directories.
-/

namespace LiquidLint

open Analysis

/-- The files of a project that a run leaves alone. -/
structure Selection where
  ignored : PathPatterns

namespace Selection

/-- The selection that a configuration makes. -/
def ofConfig (c : Config) : Except Failure Selection :=
  match PathPatterns.read (c.ignore.getD []) with
  | .ok ps => .ok ⟨ps⟩
  | .error f => .error (f.within "compile ignore")

/-- Whether a path is left alone. -/
def ignores (s : Selection) (path : Text) : Bool := s.ignored.cover path

/-- Whether the content of a path is needed. -/
def loads (s : Selection) (path : Text) : Bool :=
  !s.ignores path && (Project.classify path).category.isAnalyzable

end Selection

namespace Run

/-- The severity that a configuration sets for a check. -/
def severityOf (c : Config) (code : Text) : Except Failure (Option Severity) :=
  match c.severity? code with
  | none => .ok none
  | some name =>
    match Severity.ofName name with
    | .ok s => .ok (some s)
    | .error f => .error (f.within (code ++ ".severity"))

/-- The patterns that a configuration sets for a check. -/
def patternsOf (c : Config) (code : Text) : Except Failure PathPatterns :=
  match PathPatterns.read ((c.ignore? code).getD []) with
  | .ok ps => .ok ps
  | .error f => .error (f.within (code ++ ".ignore"))

/-- The severities and patterns of all checks; the first one that cannot be read is refused. -/
def settingsOf (c : Config) : List Text → Except Failure (Table Severity × Table PathPatterns)
  | [] => .ok ({}, {})
  | code :: rest =>
    match severityOf c code, patternsOf c code with
    | .error f, _ => .error f
    | .ok _, .error f => .error f
    | .ok severity, .ok patterns =>
      match settingsOf c rest with
      | .error f => .error f
      | .ok (severities, ignores) =>
        .ok
          (match severity with
            | some s => severities.insert code s
            | none => severities,
            ignores.insert code patterns)

/-- The checks that a configuration lets run. -/
def checksOf (c : Config) (r : Registry) : List Check := r.select fun i => c.isEnabled i.code

/-- How a configuration has the checks run. -/
def analyzerOptions (c : Config) (r : Registry) (s : Selection) :
    Except Failure AnalyzerOptions :=
  match settingsOf c r.codes with
  | .error f => .error f
  | .ok (severities, ignores) =>
    .ok
      { severities
        ignore := fun code path => ((ignores.get? code).getD []).cover path
        exclude := s.ignores
        recheck := some (checksOf c r) }

/-! ## Targets -/

/-- The path within the project that an input of the user names. -/
def projectPathOf (root workDir input : Text) : Except Failure Text :=
  let absolute := if Path.isAbsolute input then input else Path.join [workDir, input]
  let relative := Path.clean ((Path.relative? root absolute).getD [])
  if relative = (".." : Text) || Text.startsWith relative "../" then
    .error (.plain (input ++ " is outside the project root " ++ root))
  else .ok relative

/-- The paths of a snapshot at or below a path. -/
def pathsBelow (s : Snapshot) (path : Text) : List Text :=
  s.paths.filter fun p => p = path || Text.startsWith p (path ++ "/")

/-- The files that inputs name, each once; `none` is the whole project. -/
def targets (cancelled : Bool) (root workDir : Text) (s : Snapshot) (include? : Text → Bool)
    (found : List Text) : List Text → Except Failure (Option (List Text))
  | [] => .ok (some found)
  | input :: rest =>
    if cancelled then .error (Failure.cancelled.within "discovery cancelled")
    else
      match projectPathOf root workDir input with
      | .error f => .error f
      | .ok relative =>
        if relative = ("." : Text) then .ok none
        else
          match pathsBelow s relative with
          | [] => .error ({ causes := [.notFound], message := input ++ ": not found" })
          | below =>
            let news := (below.filter include?).filter fun p => !found.contains p
            targets cancelled root workDir s include? (found ++ news) rest

end Run
end LiquidLint
