import LiquidLint.Analysis.Analyzer
import LiquidLint.Analysis.Totals

/-!
# Results of a run

What a run leaves to be reported: the offenses that remain, the corrections, and the numbers and the
exit status that follow from them.
-/

namespace LiquidLint
namespace Run

/-- The numbers of a run. -/
structure Stats where
  filesAnalyzed : Int := 0
  filesWithOffenses : Int := 0
  offenses : Int := 0
  /-- How many offenses have a fix. -/
  correctable : Int := 0
  /-- How many offenses there are of each severity, by name. -/
  bySeverity : Table Int := {}
  /-- How many files were written. -/
  filesCorrected : Int := 0
  /-- How many files changed during the run and were left alone. -/
  filesSkipped : Int := 0
  /-- How many edits were made in the files that were written. -/
  editsApplied : Int := 0
  /-- How many edits overlapped an earlier one. -/
  editsDropped : Int := 0
  /-- How many fixes went wrong. -/
  fixErrors : Int := 0

/-- How many offenses have a severity. -/
def Stats.count (s : Stats) (severity : Severity) : Int := (s.bySeverity.get? severity.name).getD 0

/-- How a run ends. -/
inductive ExitStatus where
  | clean
  | offenses
  | internalError
deriving DecidableEq

/-- The number of an exit status. -/
def ExitStatus.code : ExitStatus → Nat
  | .clean => 0
  | .offenses => 1
  | .internalError => 2

/-- What a run came to. -/
structure Result where
  runId : Text := []
  /-- The offenses in order; after corrections were written, those that remain. -/
  offenses : List Offense := []
  corrections : List Correction := []
  /-- The paths that were written. -/
  written : List Text := []
  /-- The parsed files that have offenses. -/
  files : Table SourceFile := {}
  stats : Stats := {}
  exitCode : Int := 0
  /-- What went wrong apart from the checks. -/
  failures : List Failure := []

namespace Result

/-- The offenses as lines. -/
def lines (r : Result) : List Text := r.offenses.map (·.line)

/-- A line of the source of a path; empty if it is not known. -/
def sourceLine (r : Result) (path : Text) (line : Int) : Text :=
  ((r.files.get? path).map (·.line line)).getD []

/-- Whether there are offenses. -/
def hasIssues (r : Result) : Bool := !r.offenses.isEmpty

/-- The numbers that follow from the offenses and corrections. -/
def tallyStats (r : Result) : Stats :=
  let written := r.corrections.filter (·.written)
  { r.stats with
    offenses := r.offenses.length
    bySeverity := ⟨(Totals.severityCounts r.offenses).map fun e => (e.1, (e.2 : Int))⟩
    correctable := r.offenses.countP (·.correctable)
    filesWithOffenses := (Text.sortDedup (r.offenses.map (·.path))).length
    filesCorrected := written.length
    editsApplied := sumOf (written.map (·.applied))
    filesSkipped := r.corrections.countP fun c => !c.skipped.isEmpty
    editsDropped := sumOf (r.corrections.map (·.conflicts.length))
    fixErrors := sumOf (r.corrections.map (·.failures.length)) }

/-- How the run ends, where offenses of at least the severity `failLevel` fail it. -/
def exitStatus (r : Result) (failLevel : Severity) : ExitStatus :=
  if r.offenses.any Findings.isInternal || !r.failures.isEmpty then .internalError
  else if r.offenses.any fun o => o.severity.rank ≤ failLevel.rank then .offenses
  else .clean

/-- The result with its numbers and exit status. -/
def tally (r : Result) (failLevel : Severity) : Result :=
  { r with stats := r.tallyStats, exitCode := (r.exitStatus failLevel).code }

end Result
end Run
end LiquidLint
