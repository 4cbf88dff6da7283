import LiquidLint.Analysis.Findings
import LiquidLint.Check.Basic
import LiquidLint.Check.Suppression
import LiquidLint.Log.Entry

/-!
# Visiting files

The checks of a run are called one after the other for each event of a file. Their reports become
offenses unless the configuration or a comment drops them, and their fixes are kept for later. A
check that breaks down is left alone for the rest of the file, and the breakdown becomes an offense.
-/

namespace LiquidLint

open Source

/-- What the configuration says to a run. -/
structure AnalyzerOptions where
  /-- The severities of checks that differ from their own. -/
  severities : Table Severity := {}
  /-- Whether offenses of a check in a path are dropped. -/
  ignore : (code path : Text) → Bool := fun _ _ => false
  /-- Whether a path is left out. -/
  exclude : (path : Text) → Bool := fun _ => false
  /-- The checks that corrected files are looked at with again; without them, there is one pass. -/
  recheck : Option (List Check) := none
  /-- How many passes of corrections a file may take, if positive. -/
  maxPasses : Int := 0

/-- How many passes of corrections a file may take. -/
def AnalyzerOptions.passLimit (o : AnalyzerOptions) : Nat :=
  if 0 < o.maxPasses then o.maxPasses.toNat else 10

/-- A parsed file and what its comments disable. -/
structure ParsedFile where
  file : SourceFile
  suppressions : Suppressions

/-- A fix that waits to be applied. -/
structure PendingFix where
  path : Text
  code : Text
  fix : Fix

namespace Analysis

/-- What surrounds a run: whether it was cancelled, and the lines it leaves behind. -/
structure Surroundings where
  cancelled : Bool := false
  trace : List Text := []
  log : List Log.Entry := []

/-- What was raised so far, and the surroundings. -/
structure Tally where
  offenses : List Offense := []
  fixes : List PendingFix := []
  around : Surroundings := {}

/-- A check in a run, and what it was called for so far, latest first. -/
structure Slot where
  check : Check
  past : List Visit := []
  /-- Whether the check broke down in the current file. -/
  failed : Bool := false

/-- The severity of a report. -/
def severityOf (o : AnalyzerOptions) (info : CheckInfo) (r : Report) : Severity :=
  match r.severity with
  | some s => s
  | none => (o.severities.get? info.code).getD info.severity

/-- The offense and the fix of a report on a file. -/
def raise? (o : AnalyzerOptions) (parsed : List ParsedFile) (info : CheckInfo) (f : SourceFile)
    (r : Report) : Option (Offense × Option PendingFix) :=
  let place := r.place
  let disabled := (parsed.find? fun p => p.file.path = f.path).any fun p =>
    p.suppressions.covers info.code place.start
  if o.ignore info.code f.path || disabled then none
  else
    some
      ({ code := info.code
         severity := severityOf o info r
         message := r.message
         path := f.path
         version := f.version
         start := f.position place.start
         stop := f.position place.stop
         correctable := r.fix.isSome },
        r.fix.map fun fix => ⟨f.path, info.code, fix⟩)

/-- The offense of a report on no file; it has no fix. -/
def raiseProject? (o : AnalyzerOptions) (info : CheckInfo) (r : Report) : Option Offense :=
  if o.ignore info.code projectPath then none
  else
    some
      { code := info.code
        severity := severityOf o info r
        message := r.message
        path := projectPath }

/-- The offense of a check that broke down with `detail`. -/
def breakdown (code : Text) (file : Option SourceFile) (node : Option Node) (detail : Text) :
    Offense :=
  let failed := "Check " ++ code ++ " failed"
  let offense (message : Text) (path : Text) : Offense :=
    { code := internalErrorCode, severity := .error, message, path }
  match file with
  | none => offense (failed ++ ": " ++ detail) projectPath
  | some f =>
    let start := (node.map fun n => f.position n.span.start).getD {}
    let stop := (node.map fun n => f.position n.span.stop).getD {}
    let excerpt := f.excerpt start.line
    let message :=
      if excerpt.isEmpty then failed ++ ": " ++ detail
      else failed ++ " on " ++ Text.quoted excerpt ++ ": " ++ detail
    { offense message f.path with version := f.version, start, stop }

namespace Tally

/-- Adds an offense and its fix. -/
def add (t : Tally) (o : Offense) (fix : Option PendingFix := none) : Tally :=
  { t with offenses := t.offenses ++ [o], fixes := t.fixes ++ fix.toList }

/-- Adds a line to the log. -/
def note (t : Tally) (e : Log.Entry) : Tally :=
  { t with around := { t.around with log := t.around.log ++ [e] } }

/-- Adds what a reaction does; `raise` makes offenses of its reports. -/
def effect {ρ : Type} (raise : ρ → Option (Offense × Option PendingFix)) (t : Tally) :
    Effect ρ → Tally
  | .report r =>
    match raise r with
    | some (o, fix) => t.add o fix
    | none => t
  | .trace line => { t with around := { t.around with trace := t.around.trace ++ [line] } }
  | .cancel => { t with around := { t.around with cancelled := true } }

/-- Adds what a check did, and the offense of its breakdown. -/
def react {ρ : Type} (raise : ρ → Option (Offense × Option PendingFix)) (code : Text)
    (file : Option SourceFile) (node : Option Node) (r : Reaction ρ) (t : Tally) : Tally :=
  let t := r.effects.foldl (effect raise) t
  match r.crash with
  | none => t
  | some detail =>
    let o := breakdown code file node detail
    (t.note ⟨.warn, "check failed",
      [("check", code), ("path", o.path), ("error", detail)]⟩).add o

end Tally

/-- Calls one check for a visit, unless it broke down before. -/
def callSlot (o : AnalyzerOptions) (parsed : List ParsedFile) (f : SourceFile)
    (node : Option Node) (v : Visit) (s : Slot) (t : Tally) : Slot × Tally :=
  if s.failed then (s, t)
  else
    let r := s.check.onVisit s.past v
    ({ s with past := v :: s.past, failed := r.crash.isSome },
      t.react (raise? o parsed s.check.info f) s.check.info.code (some f) node r)

/-- Calls the checks that `wanted` accepts for a visit, in order. -/
def callSlots (o : AnalyzerOptions) (parsed : List ParsedFile) (f : SourceFile)
    (node : Option Node) (v : Visit) (wanted : Check → Bool) :
    List Slot → Tally → List Slot × Tally
  | [], t => ([], t)
  | s :: rest, t =>
    let called := if wanted s.check then callSlot o parsed f node v s t else (s, t)
    let others := callSlots o parsed f node v wanted rest called.2
    (called.1 :: others.1, others.2)

/-- Calls the checks for what a walk over a tree of category `c` fires. -/
def callFirings (o : AnalyzerOptions) (parsed : List ParsedFile) (f : SourceFile)
    (c : Project.Category) : List (Event × Node) → List Slot × Tally → List Slot × Tally
  | [], st => st
  | (e, n) :: rest, st =>
    callFirings o parsed f c rest
      (callSlots o parsed f (some n) (.node f e n) (fun k => k.listensTo c e) st.1 st.2)

/-- Visits the trees of a file one after the other. -/
def callTrees (o : AnalyzerOptions) (parsed : List ParsedFile) (f : SourceFile) :
    List Node → List Slot × Tally → List Slot × Tally
  | [], st => st
  | tree :: rest, st =>
    callTrees o parsed f rest
      (callFirings o parsed f (Check.treeCategory f tree) tree.firings st)

/-- Visits a file: its trees, then its end. -/
def visitFile (o : AnalyzerOptions) (parsed : List ParsedFile) (f : SourceFile)
    (slots : List Slot) (t : Tally) : List Slot × Tally :=
  let fresh := slots.map fun s => { s with failed := false }
  let walked := callTrees o parsed f f.trees (fresh, t)
  callSlots o parsed f none (.endFile f) (fun k => k.info.appliesTo f.info.category) walked.1 walked.2

/-- What a report on a project raises. -/
def raiseReport? (o : AnalyzerOptions) (parsed : List ParsedFile) (info : CheckInfo)
    (r : ProjectReport) : Option (Offense × Option PendingFix) :=
  match r.file with
  | some f => raise? o parsed info f r.report
  | none => (raiseProject? o info r.report).map (·, none)

/-- Calls the checks that look at whole projects, until the run is cancelled. -/
def projectPass (o : AnalyzerOptions) (parsed : List ParsedFile) (view : ProjectView) :
    List Slot → Tally → Tally
  | [], t => t
  | s :: rest, t =>
    match s.check.onProject with
    | none => projectPass o parsed view rest t
    | some react =>
      if t.around.cancelled then t
      else
        projectPass o parsed view rest
          (t.react (raiseReport? o parsed s.check.info) s.check.info.code none none
            (react s.past view))

end Analysis
end LiquidLint
