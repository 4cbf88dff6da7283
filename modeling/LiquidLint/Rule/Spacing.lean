import LiquidLint.Check.Basic

/-!
# Spaces inside delimiters

Between the delimiters of a variable or tag and what they hold stands exactly one space. A line break
may stand in its place, with any blanks around it.
-/

namespace LiquidLint
namespace Rule
namespace Spacing

open Source

/-- The blanks that count. -/
def isGap (b : UInt8) : Bool := b = ' ' || b = '\t' || b = '\n'

/-- The report on a gap from `start` up to `stop` with the text `gap`, if it is not as it should be.
`side` says where the gap stands. -/
def gapReport? (side : Text) (start stop : Nat) (gap : Text) : Option Report :=
  if gap.isEmpty then
    some
      { message := "Space missing " ++ side
        range := some ⟨start, start⟩
        fix := some [.edit ⟨start, start⟩ " "] }
  else if 1 < gap.length && !gap.contains '\n' then
    some
      { message := "Too many spaces " ++ side
        range := some ⟨start, stop⟩
        fix := some [.edit ⟨start, stop⟩ " "] }
  else none

/-- The reports on the delimiters of what stands from `start` up to `stop`. -/
def delimited (f : SourceFile) (start stop : Nat) (opener closer : Text) : List Report :=
  let src := f.slice ⟨start, stop⟩
  if !Text.startsWith src opener || !Text.endsWith src closer ||
      src.length < opener.length + closer.length then []
  else
    let innerStart := start + opener.length +
      if Text.startsWith (src.drop opener.length) "-" then 1 else 0
    let innerStop := stop - closer.length -
      if Text.endsWith (src.take (src.length - closer.length)) "-" then 1 else 0
    if innerStop ≤ innerStart then []
    else
      let inner := Text.slice f.source innerStart innerStop
      if (Text.trimSpace inner).isEmpty then []
      else
        let lead := inner.takeWhile isGap
        let trail := (inner.reverse.takeWhile isGap).reverse
        (gapReport? ("after '" ++ opener ++ "'") innerStart (innerStart + lead.length) lead).toList ++
          (gapReport? ("before '" ++ closer ++ "'") (innerStop - trail.length) innerStop trail).toList

/-- The reports on a node. -/
def nodeReports (f : SourceFile) (n : Node) : List Report :=
  match n.shape with
  | .liquid h =>
    if h.inLiquid || h.name = "#" then []
    else if n.kind = ("variable" : Text) then
      delimited f h.start h.stop "\x7b\x7b" "\x7d\x7d"
    else
      delimited f h.start h.openEnd "\x7b%" "%\x7d" ++
        match h.closed, h.closeStart with
        | true, some closeStart => delimited f closeStart h.stop "\x7b%" "%\x7d"
        | _, _ => []
  | _ => []

end Spacing

/-- Wants one space inside the delimiters of variables and tags. -/
def spaceInsideBraces : Check :=
  { info :=
      { code := "SpaceInsideBraces"
        severity := .style
        categories := [.liquid]
        doc := "Ensures consistent spacing inside Liquid delimiters"
        correctable := true }
    subscriptions := [⟨.on, "variable"⟩, ⟨.on, "tag"⟩]
    onVisit := fun _ visit =>
      match visit with
      | .node f _ n => .reports (Spacing.nodeReports f n)
      | .endFile _ => {} }

end Rule
end LiquidLint
