import LiquidLint.Check.Basic
import LiquidLint.Liquid.Expression

/-!
# Unused assignments

A variable that a template assigns is read somewhere in the same template, or its name starts with
an underscore.
-/

namespace LiquidLint
namespace Rule
namespace Assignment

open Source

/-- The names that a node reads. An assignment reads what stands after its equals sign; comments, the
names of captures and the bodies of `liquid` tags are not read, the lines of the latter being nodes
of their own. -/
def readNames (n : Node) : List Text :=
  let names (markup : Text) : List Text := (Liquid.identifiers markup).map (·.name)
  if n.kind = ("variable" : Text) then names n.markup
  else if n.tag = ("assign" : Text) then
    match Liquid.assignTarget? n.markup with
    | some _ => names ((Text.cut? n.markup "=").elim [] (·.2))
    | none => []
  else if n.kind = ("comment" : Text) || n.tag = ("capture" : Text) || n.tag = ("liquid" : Text) then []
  else names n.markup

/-- The variable that a node assigns. -/
def assigned? (n : Node) : Option Text :=
  if n.kind ≠ ("variable" : Text) && n.tag = ("assign" : Text) then Liquid.assignTarget? n.markup
  else none

/-- The nodes visited since the document started, in order. -/
def visitedNodes (past : List Visit) : List Node :=
  (past.takeWhile fun v => match v with
    | .node _ e _ => e.kind ≠ "document"
    | .endFile _ => true).reverse.filterMap fun v => match v with
    | .node _ _ n => some n
    | .endFile _ => none

/-- The span that removing a node takes away: the whole line, when nothing else stands on it. -/
def removalSpan (source : Text) (s : Span) : Span :=
  let before := source.take s.start
  let after := source.drop s.stop
  let lineHead := (before.reverse.takeWhile fun (b : UInt8) => b ≠ '\n').reverse
  let lineTail := after.takeWhile fun (b : UInt8) => b ≠ '\n'
  if !(Text.trimSpace lineHead).isEmpty || !(Text.trimSpace lineTail).isEmpty then s
  else
    let stop := s.stop + lineTail.length
    ⟨s.start - lineHead.length, if stop < source.length then stop + 1 else stop⟩

/-- Whether the node is a line of a `liquid` tag. -/
def inLiquid (n : Node) : Bool :=
  match n.shape with
  | .liquid h => h.inLiquid
  | _ => false

/-- The report on a node that assigns `name` in vain. -/
def unusedReport (f : SourceFile) (n : Node) (name : Text) : Report :=
  { message := "`" ++ name ++ "` is assigned but never used"
    node := some n
    fix :=
      if inLiquid n then none
      else some [.edit (removalSpan f.source n.span).toRange []] }

/-- The reports on the visited nodes of a file. -/
def unusedReports (f : SourceFile) (nodes : List Node) : List Report :=
  let read := nodes.flatMap readNames
  nodes.filterMap fun n =>
    match assigned? n with
    | none => none
    | some name =>
      if read.contains name || Text.startsWith name "_" then none
      else some (unusedReport f n name)

end Assignment

/-- Reports variables that are assigned and never read. -/
def unusedAssign : Check :=
  { info :=
      { code := "UnusedAssign"
        severity := .suggestion
        categories := [.liquid]
        doc := "Reports variables that are assigned but never used"
        correctable := true }
    subscriptions := [⟨.on, "document"⟩, ⟨.on, "variable"⟩, ⟨.on, "tag"⟩]
    onVisit := fun past visit =>
      match visit with
      | .node _ _ _ => {}
      | .endFile f => .reports (Assignment.unusedReports f (Assignment.visitedNodes past)) }

end Rule
end LiquidLint
