import LiquidLint.Check.Basic
import LiquidLint.Liquid.Expression

/-!
# References between files

Tags name other templates by literals. A reference to a template that is not there is reported where
it stands; a partial that no file refers to is reported as a whole, unless some template is named by
an expression, for then nothing is known.

What a template refers to is learnt when it is visited. At the end of a run the templates that were
read but not visited are made up for.
-/

namespace LiquidLint
namespace Rule
namespace Reference

open Source

/-- The tags that refer to other templates. -/
def referringTags : List Text := ["render", "include", "theme_render", "include_form", "function"]

/-- The kind of file that a tag refers to. -/
def targetKind (tag : Text) : Project.Kind :=
  if tag = "include_form" then .form else .partialTemplate

/-- A reference by a literal, with the place of the name that it mentions. -/
structure Mention where
  kind : Project.Kind
  name : Text
  range : Range

/-- The heads of the Liquid tags of a file in document order. -/
def tagHeads (f : SourceFile) : List Liquid.Head :=
  f.nodes.filterMap fun n =>
    match n.shape with
    | .liquid h => if h.kind = .tag then some h else none
    | _ => none

/-- The references of a file. -/
def references (f : SourceFile) : List Mention :=
  (tagHeads f).filterMap fun h =>
    (Liquid.referencedTemplate? h).map fun r => ⟨targetKind h.name, r.name, ⟨r.start, r.stop⟩⟩

/-- Whether a file names a template by an expression. -/
def isDynamic (f : SourceFile) : Bool :=
  (tagHeads f).any fun h => referringTags.contains h.name && (Liquid.referencedTemplate? h).isNone

/-! ## What is known of the templates -/

/-- What is known of a template. -/
structure Facts where
  file : SourceFile
  references : List Mention
  /-- Whether it names a template by an expression. -/
  dynamic : Bool

/-- The facts of a file. -/
def Facts.of (f : SourceFile) : Facts :=
  { file := f, references := Reference.references f, dynamic := isDynamic f }

/-- The facts of the files that were visited, by path. -/
def collected (past : List Visit) : Table Facts :=
  past.foldr (fun visit known => match visit with
    | .endFile f => known.insert f.path (.of f)
    | .node _ _ _ => known) {}

/-- The facts with those of the templates that were not visited. -/
def completed (known : Table Facts) (files : List SourceFile) : Table Facts :=
  files.foldl (fun known f =>
    if !known.contains f.path && f.info.category = .liquid then known.insert f.path (.of f)
    else known) known

/-- The facts of all templates of a project, some of which were visited before. -/
def index (past : List Visit) (v : ProjectView) : Table Facts := completed (collected past) v.files

/-! ## Reports -/

/-- The reports on references to nothing. Each place is reported once. -/
def missingReports (known : Table Facts) (paths : List Text) : List ProjectReport :=
  let defined := paths.map fun p =>
    let info := Project.classify p
    (info.kind, info.name)
  known.entries.flatMap fun (_, facts) =>
    let missing := facts.references.filter fun r => r.name = [] || !defined.contains (r.kind, r.name)
    (missing.eraseDupsBy fun r s => r.range.start = s.range.start).map fun r =>
      ⟨some facts.file, { message := "'" ++ r.name ++ "' is not found", range := some r.range }⟩

/-- Whether a file is a partial of the application itself. -/
def isOwnPartial (f : SourceFile) : Bool :=
  f.info.kind = .partialTemplate && f.info.module = [] && f.info.category = .liquid

/-- The reports on partials that nothing refers to. -/
def unusedReports (known : Table Facts) (files : List SourceFile) : List ProjectReport :=
  if known.entries.any fun e => e.2.dynamic then []
  else
    let used := (known.entries.flatMap fun e => e.2.references).filterMap fun r =>
      if r.kind = .partialTemplate then some r.name else none
    (files.filter fun f => isOwnPartial f && !used.contains f.info.name).map fun f =>
      ⟨some f, { message := "This partial is not used" }⟩

end Reference

/-- Reports references to templates that do not exist. -/
def missingTemplate : Check :=
  { info :=
      { code := "MissingTemplate"
        severity := .error
        categories := [.liquid]
        doc := "Reports references to templates that do not exist"
        wholeProject := true }
    onProject := some fun past v =>
      .reports (Reference.missingReports (Reference.index past v) v.paths) }

/-- Reports partials that nothing refers to. -/
def unusedPartial : Check :=
  { info :=
      { code := "UnusedPartial"
        severity := .suggestion
        categories := [.liquid]
        doc := "Reports partials that are never referenced"
        wholeProject := true }
    onProject := some fun past v =>
      .reports (Reference.unusedReports (Reference.index past v) v.files) }

end Rule
end LiquidLint
