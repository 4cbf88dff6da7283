import LiquidLint.Analysis.Correction
import LiquidLint.Store.Snapshot

/-!
# Analyzers

An analyzer runs checks over one snapshot, once: it parses files, visits them one by one, looks at
the project as a whole, and then may correct what has a fix and write the corrections back. A run
can be cancelled between two files.
-/

namespace LiquidLint

open Source Store Analysis

/-- What an analyzer is doing. -/
inductive Stage where
  | idle
  | parsing
  | singleFilePass
  | wholeProjectPass
  | correcting
  | done
deriving DecidableEq

/-- The word for a stage. -/
def Stage.label : Stage → Text
  | .idle => "idle"
  | .parsing => "parsing"
  | .singleFilePass => "single_file_pass"
  | .wholeProjectPass => "whole_project_pass"
  | .correcting => "correcting"
  | .done => "done"

/-- One run over one snapshot. -/
structure Analyzer where
  snapshot : Snapshot
  checks : List Check
  options : AnalyzerOptions := {}
  runId : Text := []
  stage : Stage := .idle
  parsed : List ParsedFile := []
  findings : Findings := {}
  fixes : List PendingFix := []
  /-- The corrections, once there are any to speak of. -/
  corrections : Option (List Correction) := none

/-- What a call came to: its outcome, the analyzer after it, and the surroundings. -/
structure Call (α : Type) where
  outcome : Except Failure α
  analyzer : Analyzer
  around : Surroundings

namespace Analyzer

/-- The failure of running an analyzer twice. -/
def alreadyRun : Failure := { causes := [.alreadyRun], message := "analyzer already run" }

/-- The failure of asking for results too early. -/
def notAnalyzed : Failure :=
  { causes := [.notAnalyzed], message := "analysis has not completed" }

/-- The paths that checks can run on: neither left out nor unread, and of a category that is
parsed. -/
def analysable (a : Analyzer) : List Text :=
  a.snapshot.entries.entries.filterMap fun (p, e) =>
    let unread := match e.content with
      | .unread => true
      | _ => false
    if a.options.exclude p || unread || !(Project.classify p).category.isAnalyzable then none
    else some p

/-- The parsed file at a path. -/
def file? (a : Analyzer) (path : Text) : Option SourceFile :=
  (a.parsed.find? fun p => p.file.path = path).map (·.file)

/-- The log line for going from one stage to another. -/
def stageEntry (old new : Stage) : Log.Entry :=
  ⟨.debug, "analyzer state", [("from", old.label), ("state", new.label)]⟩

/-- The fields that the lines of a run have in front. -/
def logFields (a : Analyzer) : List Log.Field := [("run_id", a.runId)]

/-! ## Parsing -/

/-- What reading one path came to. -/
def parseOne (s : Snapshot) (path : Text) : Except Failure ParsedFile :=
  match s.read path with
  | (.error f, _) => .error f
  | (.ok content, version) =>
    let file := SourceFile.parse path content version
    .ok ⟨file, Suppressions.ofFile file⟩

/-- The offense of a file that could not be read. -/
def unreadable (path : Text) (f : Failure) : Offense :=
  { code := storageErrorCode, severity := .error, message := "Could not read file: " ++ f.message,
    path }

/-- Parses paths; a file that cannot be read leaves an offense. -/
def parseAll (s : Snapshot) : List Text → Tally → List ParsedFile × Tally
  | [], t => ([], t)
  | p :: rest, t =>
    match parseOne s p with
    | .ok file =>
      let more := parseAll s rest t
      (file :: more.1, more.2)
    | .error f =>
      parseAll s rest ((t.note ⟨.error, "failed to read file",
        [("path", p), ("error", f.message)]⟩).add (unreadable p f))

/-! ## Passes -/

/-- How far the visits of a run have come. -/
structure Progress where
  slots : List Slot
  tally : Tally
  paths : List Text := []
  versions : Table Int := {}

/-- Visits one path. -/
def visitPath (a : Analyzer) (parsed : List ParsedFile) (path : Text) (g : Progress) : Progress :=
  let g := { g with paths := g.paths ++ [path] }
  match parsed.find? fun p => p.file.path = path with
  | some p =>
    let visited := visitFile a.options parsed p.file g.slots g.tally
    { g with
      slots := visited.1
      tally := visited.2
      versions := g.versions.insert path p.file.version }
  | none =>
    match a.snapshot.state? path with
    | some e => { g with versions := g.versions.insert path e.version }
    | none => g

/-- Visits paths until the run is cancelled; whether all of them were visited comes with it. -/
def visitPaths (a : Analyzer) (parsed : List ParsedFile) : List Text → Progress → Progress × Bool
  | [], g => (g, true)
  | p :: rest, g =>
    if g.tally.around.cancelled then (g, false)
    else visitPaths a parsed rest (visitPath a parsed p g)

/-- The analyzer after the visits `g`, which raised `g.tally`. -/
def conclude (a : Analyzer) (parsed : List ParsedFile) (g : Progress) : Analyzer :=
  { a with
    stage := .done
    parsed := parsed
    fixes := g.tally.fixes
    findings := { paths := g.paths, versions := g.versions, single := g.tally.offenses } }

/-- Visits `paths`, having parsed `toParse`; then looks at the project, unless `onlySingle` is set. -/
def analyze (a : Analyzer) (around : Surroundings) (paths toParse : List Text)
    (onlySingle : Bool) : Call Unit :=
  if a.stage ≠ .idle then ⟨.error alreadyRun, a, around⟩
  else
    let finish (outcome : Except Failure Unit) (b : Analyzer) (inner : Surroundings)
        (log : List Log.Entry) : Call Unit :=
      let entries := (inner.log ++ log).map (·.within a.logFields)
      ⟨outcome, b, { inner with log := around.log ++ entries }⟩
    let start : Surroundings :=
      { around with
        log := [⟨.debug, "analyzer state",
          [("state", Stage.parsing.label), ("files", Text.ofNat paths.length)]⟩] }
    if around.cancelled && !toParse.isEmpty then
      finish (.error (Failure.cancelled.within "parsing cancelled")) { a with stage := .done } start
        [stageEntry .parsing .done]
    else
      let (parsed, tally) := parseAll a.snapshot toParse { around := start }
      let tally := tally.note (stageEntry .parsing .singleFilePass)
      let (g, complete) := visitPaths a parsed paths { slots := a.checks.map ({ check := · }), tally }
      let b := a.conclude parsed g
      if !complete then
        finish (.error (Failure.cancelled.within "analysis cancelled")) b g.tally.around
          [stageEntry .singleFilePass .done]
      else
        let finished (count : Nat) : Log.Entry :=
          ⟨.debug, "analysis finished", [("offenses", Text.ofNat count)]⟩
        if onlySingle then
          finish (.ok ()) b g.tally.around
            [stageEntry .singleFilePass .done, finished b.findings.single.length]
        else
          let before := (g.tally.note (stageEntry .singleFilePass .wholeProjectPass)).around
          let view : ProjectView :=
            { files := parsed.map (·.file), known := some a.snapshot.paths }
          let pass := projectPass a.options parsed view g.slots { around := before }
          let findings :=
            { b.findings with project := pass.offenses, projectPass := true }
          finish (.ok ()) { b with findings, fixes := b.fixes ++ pass.fixes } pass.around
            [stageEntry .wholeProjectPass .done, finished findings.raised.length]

/-- Analyses the whole project. -/
def analyzeProject (a : Analyzer) (around : Surroundings) : Call Unit :=
  a.analyze around a.analysable a.analysable false

/-- Analyses some files one by one and, unless `onlySingle` is set, the project with them. -/
def analyzeFiles (a : Analyzer) (around : Surroundings) (paths : List Text)
    (onlySingle : Bool) : Call Unit :=
  let paths := Text.sortDedup paths
  a.analyze around paths (if onlySingle then paths else Text.sortDedup (paths ++ a.analysable))
    onlySingle

/-- The findings of an analysis that has ended. -/
def result (a : Analyzer) : Except Failure Findings :=
  if a.stage = .done then .ok a.findings else .error notAnalyzed

/-! ## Correcting -/

/-- The fixes of one path. -/
def fixesOf (a : Analyzer) (path : Text) : List PendingFix := a.fixes.filter fun p => p.path = path

/-- Looks at corrected content again, with fresh checks. -/
def recheck (a : Analyzer) (checks : List Check) (around : Surroundings) (path content : Text) :
    Call Unit :=
  analyzeFiles
    { snapshot := .ofContents [(path, content)], checks, options := { a.options with recheck := none },
      runId := a.runId }
    around [path] true

/-- Corrects further until nothing changes, at most `fuel` times. -/
def correctMore (a : Analyzer) (checks : List Check) (path : Text) :
    (fuel : Nat) → Correction → Surroundings → Correction × Surroundings
  | 0, c, around => (c, around)
  | fuel + 1, c, around =>
    let again := a.recheck checks around path c.content
    let b := again.analyzer
    match again.outcome with
    | .error _ => (c, again.around)
    | .ok () =>
      if (b.fixesOf path).isEmpty then (c, again.around)
      else
        let r := replay (b.file? path) c.content (b.fixesOf path) again.around
        if r.outcome.changed then correctMore a checks path fuel (c.merge r.outcome r.failures) r.around
        else (c, r.around)

/-- Corrects one file. -/
def correctFile (a : Analyzer) (path : Text) (around : Surroundings) : Correction × Surroundings :=
  let stored := match (a.snapshot.read path).1 with
    | .ok t => t
    | .error _ => []
  let r := replay (a.file? path) stored (a.fixesOf path) around
  let first := Correction.merge { path, stored, content := stored } r.outcome r.failures
  if !r.outcome.changed then (first, r.around)
  else
    let (c, around) := match a.options.recheck with
      | none => (first, r.around)
      | some checks => a.correctMore checks path (a.options.passLimit - first.passes) first r.around
    let entry : Log.Entry :=
      ⟨.debug, "corrected file",
        [("path", path), ("edits", Text.ofNat c.applied),
          ("dropped", Text.ofNat c.conflicts.length), ("passes", Text.ofNat c.passes)]⟩
    ({ c with changed := c.content ≠ stored }, { around with log := around.log ++ [entry] })

/-- Corrects files until the run is cancelled; whether all were corrected comes with it. -/
def correctAll (a : Analyzer) : List Text → List Correction → Surroundings →
    List Correction × Bool × Surroundings
  | [], done, around => (done, true, around)
  | p :: rest, done, around =>
    if around.cancelled then (done, false, around)
    else
      let (c, around) := a.correctFile p around
      correctAll a rest (done ++ [c]) around

/-- Replays the fixes that the analysis found. This can be done once. -/
def correct (a : Analyzer) (around : Surroundings) : Call Unit :=
  if a.stage ≠ .done then ⟨.error notAnalyzed, a, around⟩
  else if a.corrections.isSome then ⟨.error alreadyRun, a, around⟩
  else
    let paths := Text.sortDedup (a.fixes.map (·.path))
    let start : Surroundings :=
      { around with
        log := [⟨.debug, "analyzer state", [("state", Stage.correcting.label)]⟩] }
    let (corrections, complete, inner) := a.correctAll paths [] start
    let entries := (inner.log ++ [stageEntry .correcting .done]).map (·.within a.logFields)
    { outcome :=
        if complete then .ok () else .error (Failure.cancelled.within "correction cancelled")
      analyzer := { a with corrections := some corrections }
      around := { inner with log := around.log ++ entries } }

/-! ## Writing -/

/-- What writing corrections came to. -/
structure Written (σ : Type) where
  corrections : List Correction
  paths : List Text := []
  failures : List Failure := []
  store : σ
  log : List Log.Entry := []

/-- Writes corrections back one after the other. A file that is not as the analysis read it is left
alone. -/
def writeAll {σ : Type} [Storage σ] (store : σ) : List Correction → Written σ
  | [] => { corrections := [], store }
  | c :: rest =>
    if !c.changed then
      let w := writeAll store rest
      { w with corrections := c :: w.corrections }
    else
      match Storage.read store c.path with
      | (.error f, store) =>
        let w := writeAll store rest
        { w with
          corrections := c :: w.corrections
          failures := f.within ("read " ++ c.path) :: w.failures }
      | (.ok current, store) =>
        if current ≠ c.stored then
          let reason : Text := "file modified during analysis"
          let w := writeAll store rest
          { w with
            corrections := { c with skipped := reason } :: w.corrections
            log := ⟨.warn, "skipping correction", [("path", c.path), ("reason", reason)]⟩ :: w.log }
        else
          match Storage.write store c.path c.content with
          | (.error f, store) =>
            let w := writeAll store rest
            { w with
              corrections := c :: w.corrections
              failures := f.within ("write " ++ c.path) :: w.failures }
          | (.ok (), store) =>
            let w := writeAll store rest
            { w with
              corrections := { c with written := true } :: w.corrections
              paths := c.path :: w.paths
              log := ⟨.info, "corrected",
                [("path", c.path), ("edits", Text.ofNat c.applied)]⟩ :: w.log }

/-- Writes the corrections back; the paths that were written come with it, and a failure if
something went wrong. A cancelled run writes nothing once it comes to a change. -/
def writeCorrections {σ : Type} [Storage σ] (a : Analyzer) (around : Surroundings) (store : σ) :
    List Text × Option Failure × Analyzer × Surroundings × σ :=
  if a.stage ≠ .done then ([], some notAnalyzed, a, around, store)
  else
    match a.corrections with
    | none =>
      ([], some { notAnalyzed with message := notAnalyzed.message ++ ": Correct was not called" }, a,
        around, store)
    | some cs =>
      if around.cancelled && cs.any (·.changed) then
        ([], some (Failure.cancelled.within "write cancelled"), a, around, store)
      else
        let w := writeAll store cs
        (w.paths, Failure.joined? w.failures, { a with corrections := some w.corrections },
          { around with log := around.log ++ w.log.map (·.within a.logFields) }, w.store)

end Analyzer
end LiquidLint
