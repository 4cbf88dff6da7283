import LiquidLint.Check.Offense
import LiquidLint.Source.File
import LiquidLint.Table

/-!
# Checks

A check waits for events of the trees of a file, for the end of a file, and for the end of a run over
a project. What it does then is told as a value: the reports it makes, and whether it broke down. A
check has no memory of its own; it is given what it was called for before.
-/

namespace LiquidLint

open Source

/-- The description of a check. -/
structure CheckInfo where
  /-- The name of the check. -/
  code : Text
  severity : Severity
  /-- The categories of the trees that the check looks at. -/
  categories : List Project.Category
  doc : Text := []
  /-- Whether the check needs every file before it can report. -/
  wholeProject : Bool := false
  /-- Whether the check may attach fixes. -/
  correctable : Bool := false
deriving DecidableEq

/-- Whether the check runs on files of category `c`. -/
def CheckInfo.appliesTo (i : CheckInfo) (c : Project.Category) : Bool :=
  c.covers.any i.categories.contains

/-- One thing that a fix does. -/
inductive FixStep where
  | edit (range : Range) (text : Text)
  /-- The fix breaks down. -/
  | crash (message : Text)
  /-- The run in progress is cancelled; the fix goes on. -/
  | cancel
deriving DecidableEq

/-- What corrects an offense. -/
abbrev Fix := List FixStep

/-- What a check reports about a file. -/
structure Report where
  message : Text
  /-- The node that the report is about. -/
  node : Option Node := none
  /-- The place of the report, where it is not that of the node. -/
  range : Option Range := none
  /-- The severity, where it is not that of the check. -/
  severity : Option Severity := none
  fix : Option Fix := none

/-- The place of a report: its range, else that of its node, else the start of the file. -/
def Report.place (r : Report) : Range :=
  match r.range, r.node with
  | some range, _ => range
  | none, some n => n.span.toRange
  | none, none => {}

/-- One thing that a check does when it is called. -/
inductive Effect (ρ : Type) where
  | report (r : ρ)
  /-- Leaves a line in the trace of the run. -/
  | trace (line : Text)
  /-- Cancels the run in progress. -/
  | cancel

/-- What a check does when it is called. -/
structure Reaction (ρ : Type) where
  effects : List (Effect ρ) := []
  /-- What the check broke down with, after these effects. -/
  crash : Option Text := none

/-- The reaction that only reports. -/
def Reaction.reports {ρ : Type} (rs : List ρ) : Reaction ρ := { effects := rs.map .report }

/-- What a check is called for in a file. -/
inductive Visit where
  | node (file : SourceFile) (event : Event) (node : Node)
  | endFile (file : SourceFile)

/-- The project as checks see it at the end of a run. -/
structure ProjectView where
  /-- Every file that was parsed, sorted by path. -/
  files : List SourceFile
  /-- Every path of the project, if that is known. -/
  known : Option (List Text) := none

namespace ProjectView

/-- The parsed file at a path. -/
def file? (v : ProjectView) (path : Text) : Option SourceFile :=
  v.files.find? fun f => f.path = path

/-- Whether the path belongs to the project. -/
def has (v : ProjectView) (path : Text) : Bool :=
  (v.file? path).isSome || (v.known.getD []).contains path

/-- Every path of the project, parsed or not. -/
def paths (v : ProjectView) : List Text := v.known.getD (v.files.map (·.path))

end ProjectView

/-- A report on a project, about one of its files or about none. -/
structure ProjectReport where
  file : Option SourceFile
  report : Report

/-- A check. What it was called for before is given latest first. -/
structure Check where
  info : CheckInfo
  /-- The events of nodes that the check waits for. -/
  subscriptions : List Event := []
  onVisit : (past : List Visit) → Visit → Reaction Report := fun _ _ => {}
  /-- What the check does at the end of a run, if it looks at whole projects. -/
  onProject : Option ((past : List Visit) → ProjectView → Reaction ProjectReport) := none

namespace Check

/-- The category whose checks walk a tree of `f`. -/
def treeCategory (f : SourceFile) (tree : Node) : Project.Category :=
  match tree.shape.family with
  | .liquid => .liquid
  | .html => .html
  | .data => f.info.category

/-- Whether the check is called for an event in a tree of category `c`. -/
def listensTo (k : Check) (c : Project.Category) (e : Event) : Bool :=
  k.info.categories.contains c && k.subscriptions.contains e

end Check

/-! ## Registries -/

/-- The checks that are known, by code. -/
structure Registry where
  checks : Table Check := {}

namespace Registry

/-- Adds a check in place of one with the same code. -/
def register (r : Registry) (k : Check) : Registry := ⟨r.checks.insert k.info.code k⟩

/-- The registry of a list of checks. -/
def ofList (ks : List Check) : Registry := ks.foldl register {}

/-- Every code in ascending order. -/
def codes (r : Registry) : List Text := r.checks.keys

/-- The descriptions of the checks, sorted by code. -/
def infos (r : Registry) : List CheckInfo := r.checks.entries.map (·.2.info)

/-- The checks that `enabled` accepts, sorted by code. -/
def select (r : Registry) (enabled : CheckInfo → Bool) : List Check :=
  (r.checks.entries.map (·.2)).filter fun k => enabled k.info

end Registry
end LiquidLint
