import LiquidLint.Run.Result
import LiquidLint.Run.Selection

/-!
# Runs

A run takes a snapshot of a project, analyses it and, if asked to, corrects it and writes the
corrections back. When something was written, the project is analysed once more, so that the result
shows what remains.
-/

namespace LiquidLint
namespace Run

open Analysis

/-- What a run is asked to do. -/
structure Options where
  /-- The directory of the project. -/
  root : Text
  /-- The directory that inputs are relative to. -/
  workDir : Text := "/"
  /-- The files and directories to look at; none means the whole project. -/
  inputs : List Text := []
  config : Config := .standard
  registry : Registry
  /-- The least severity that makes the run fail. -/
  failLevel : Severity := .style
  runId : Text := []

/-- What a run needs besides its storage. -/
structure Plan where
  options : Options
  selection : Selection
  analyzer : AnalyzerOptions

/-- The plan of a run, unless the configuration cannot be used. -/
def plan (o : Options) : Except Failure Plan :=
  match Selection.ofConfig o.config with
  | .error f => .error f
  | .ok selection =>
    match analyzerOptions o.config o.registry selection with
    | .error f => .error f
    | .ok analyzer => .ok ⟨o, selection, analyzer⟩

variable {σ : Type} [Storage σ]

/-- An analyzer over a snapshot. -/
def Plan.analyzerOf (p : Plan) (s : Snapshot) : Analyzer :=
  { snapshot := s
    checks := checksOf p.options.config p.options.registry
    options := p.analyzer
    runId := p.options.runId }

/-- Analyses a snapshot, or some files of it. -/
def Plan.analyze (p : Plan) (s : Snapshot) (targets : Option (List Text)) (around : Surroundings) :
    Except Failure Analyzer × Surroundings :=
  let call := match targets with
    | none => (p.analyzerOf s).analyzeProject around
    | some paths => (p.analyzerOf s).analyzeFiles around paths false
  match call.outcome with
  | .ok () => (.ok call.analyzer, call.around)
  | .error f => (.error (f.within "analyze"), call.around)

/-- The parsed files that have offenses. -/
def filesOf (a : Analyzer) : Table SourceFile :=
  .ofList ((a.findings.offenses.map (·.path)).filterMap fun p => (a.file? p).map fun f => (p, f))

/-- Corrects what has a fix and, unless fixes are only to be shown, writes it back. -/
def Plan.correct (p : Plan) (a : Analyzer) (r : Result) (store : σ) (around : Surroundings) :
    Except Failure Result × σ × Surroundings :=
  let call := a.correct around
  match call.outcome with
  | .error f => (.error (f.within "correct"), store, call.around)
  | .ok () =>
    let a := call.analyzer
    if p.options.config.dryRun then
      (.ok { r with corrections := a.corrections.getD [] }, store, call.around)
    else
      let (written, failure, a, around, store) := a.writeCorrections call.around store
      let r := { r with written, corrections := a.corrections.getD [] }
      match failure with
      | none => (.ok r, store, around)
      | some f =>
        if f.isCancelled then (.error f, store, around)
        else (.ok { r with failures := r.failures ++ [f] }, store, around)

/-- Analyses once more what was written. -/
def Plan.again (p : Plan) (targets : Option (List Text)) (r : Result) (store : σ)
    (around : Surroundings) : Except Failure Result × σ × Surroundings :=
  if r.written.isEmpty then (.ok r, store, around)
  else
    let (snapshot, store) := Storage.take store p.selection.loads
    match p.analyze snapshot targets around with
    | (.error f, around) => (.error f, store, around)
    | (.ok a, around) =>
      (.ok { r with offenses := a.findings.offenses, files := filesOf a }, store, around)

/-- The line that ends the log of a run. -/
def completeEntry (r : Result) : Log.Entry :=
  ⟨.info, "analysis complete",
    [("run_id", r.runId), ("files", Text.ofInt r.stats.filesAnalyzed),
      ("offenses", Text.ofInt r.stats.offenses)]⟩

/-- Carries a plan out. -/
def Plan.run (p : Plan) (store : σ) (around : Surroundings) :
    Except Failure Result × σ × Surroundings :=
  let o := p.options
  let (snapshot, store) := Storage.take store p.selection.loads
  let chosen :=
    if o.inputs.isEmpty then .ok none
    else targets around.cancelled o.root o.workDir snapshot p.selection.loads [] o.inputs
  match chosen with
  | .error f => (.error f, store, around)
  | .ok chosen =>
    match p.analyze snapshot chosen around with
    | (.error f, around) => (.error f, store, around)
    | (.ok a, around) =>
      let first : Result :=
        { runId := o.runId
          offenses := a.findings.offenses
          files := filesOf a
          stats := { filesAnalyzed := a.findings.paths.length } }
      let corrected : Except Failure Result × σ × Surroundings :=
        if o.config.fix then
          match p.correct a first store around with
          | (.error f, store, around) => (.error f, store, around)
          | (.ok r, store, around) => p.again chosen r store around
        else (.ok first, store, around)
      match corrected with
      | (.error f, store, around) => (.error f, store, around)
      | (.ok r, store, around) =>
        let r := r.tally o.failLevel
        (.ok r, store, { around with log := around.log ++ [completeEntry r] })

/-- Runs the checks over a project. The lines of the log have the directory of the project in
front. -/
def run (o : Options) (store : σ) (around : Surroundings) :
    Except Failure Result × σ × Surroundings :=
  match plan o with
  | .error f => (.error f, store, around)
  | .ok p =>
    let (result, store, inner) := p.run store { around with log := [] }
    let entries := inner.log.map (·.within [("root", o.root)])
    (result, store, { inner with log := around.log ++ entries })

end Run
end LiquidLint
