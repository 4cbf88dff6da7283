import LiquidLint.Check.Basic

/-!
# Deprecated tags

Some tags have a successor that takes the same markup; the fix puts its name in their place.
-/

namespace LiquidLint
namespace Rule
namespace Deprecation

open Source

/-- The deprecated tags and their successors. -/
def successors : List (Text × Text) := [("include", "render")]

/-- The fix that puts `successor` in place of the name of the tag `h`. -/
def rename? (f : SourceFile) (h : Liquid.Head) (successor : Text) : Option Fix :=
  (Text.offsetOf? (f.slice ⟨h.start, h.markupStart⟩) h.name).map fun i =>
    [.edit ⟨h.start + i, h.start + i + h.name.length⟩ successor]

/-- The report on a node. -/
def nodeReport? (f : SourceFile) (n : Node) : Option Report :=
  match n.shape with
  | .liquid h =>
    (successors.lookup h.name).map fun successor =>
      { message := "Deprecated tag '" ++ h.name ++ "': use '" ++ successor ++ "' instead"
        node := some n
        fix := rename? f h successor }
  | _ => none

end Deprecation

/-- Reports deprecated tags. -/
def deprecatedTag : Check :=
  { info :=
      { code := "DeprecatedTag"
        severity := .suggestion
        categories := [.liquid]
        doc := "Reports deprecated Liquid tags"
        correctable := true }
    subscriptions := Deprecation.successors.map fun s => ⟨.on, s.1⟩
    onVisit := fun _ visit =>
      match visit with
      | .node f _ n => .reports (Deprecation.nodeReport? f n).toList
      | .endFile _ => {} }

end Rule
end LiquidLint
