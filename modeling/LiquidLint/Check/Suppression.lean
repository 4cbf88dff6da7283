import LiquidLint.Source.File

/-!
# Inline suppressions

A comment in a template may disable checks from its end on, up to a comment that enables them again
or to the end of the file. A comment that leads the file disables them from the start. Without codes
such a comment is about all checks.
-/

namespace LiquidLint

open Source

/-- What a comment may ask for. -/
inductive Directive where
  | disable (codes : List Text)
  | enable (codes : List Text)
deriving DecidableEq

namespace Directive

/-- Whether a byte ends a code. -/
def isSeparator (b : UInt8) : Bool := b = ',' || b = ' ' || b = '\t' || b = '\n'

/-- The codes after the word of a directive; `none` when the word goes on. -/
def codesAfter? (rest : Text) : Option (List Text) :=
  match rest with
  | [] => some []
  | b :: _ =>
    if b = ' ' || b = '\t' || b = '\n' then
      some ((Text.splitWhere isSeparator rest).filter (· ≠ []))
    else none

/-- The directive that a comment with the trimmed text `t` gives. -/
def ofText? (t : Text) : Option Directive :=
  match Text.dropStart? "platformos-check-disable" t with
  | some rest => (codesAfter? rest).map .disable
  | none =>
    match Text.dropStart? "platformos-check-enable" t with
    | some rest => (codesAfter? rest).map .enable
    | none => none

end Directive

/-- A part of a file where a check is disabled, or all checks when there is no code. -/
structure Region where
  code : Option Text
  span : Span
deriving DecidableEq

/-- The regions of a file where checks are disabled. -/
structure Suppressions where
  regions : List Region := []

namespace Suppressions

/-- Whether offenses of the check `code` that start at `offset` are dropped. -/
def covers (s : Suppressions) (code : Text) (offset : Int) : Bool :=
  s.regions.any fun r =>
    (r.code = none || r.code = some code) && (r.span.start : Int) ≤ offset &&
      offset < r.span.stop

/-- The text of a comment without the blanks around it. -/
def commentText (f : SourceFile) (n : Node) : Text :=
  Text.trimSpace (n.markup ++ n.children.flatMap f.sourceOfNode)

/-- The directives of a file and the spans of their comments, in document order. -/
def directives (f : SourceFile) : List (Directive × Span) :=
  match f.trees.find? fun t => t.shape.family = .liquid with
  | none => []
  | some root =>
    root.walk.filterMap fun n =>
      if n.kind = ("comment" : Text) then
        (Directive.ofText? (commentText f n)).map fun d => (d, n.span)
      else none

/-- The regions while a file is read: those that are open, each with its start, and the finished
ones. -/
structure Scan where
  opened : List (Option Text × Nat) := []
  done : List Region := []

namespace Scan

/-- Opens a region unless there is one for the same check. -/
def openAt (start : Nat) (s : Scan) (code : Option Text) : Scan :=
  if (s.opened.lookup code).isSome then s else { s with opened := s.opened ++ [(code, start)] }

/-- Ends the region of a check, if there is one. -/
def closeAt (stop : Nat) (s : Scan) (code : Option Text) : Scan :=
  match s.opened.lookup code with
  | none => s
  | some start =>
    { opened := s.opened.filter fun r => r.1 ≠ code
      done := s.done ++ [⟨code, ⟨start, stop⟩⟩] }

/-- Ends every region. -/
def closeAllAt (stop : Nat) (s : Scan) : Scan :=
  { opened := [], done := s.done ++ s.opened.map fun r => ⟨r.1, ⟨r.2, stop⟩⟩ }

/-- Follows a directive whose comment has the span `span`. The first `leading` bytes of the file are
blank. -/
def follow (leading : Nat) (s : Scan) (d : Directive × Span) : Scan :=
  match d.1 with
  | .disable codes =>
    let start := if d.2.start = leading then 0 else d.2.stop
    if codes.isEmpty then s.openAt start none else codes.foldl (fun s c => s.openAt start (some c)) s
  | .enable codes =>
    if codes.isEmpty then s.closeAllAt d.2.start
    else codes.foldl (fun s c => s.closeAt d.2.start (some c)) s

end Scan

/-- The suppressions of a file. -/
def ofFile (f : SourceFile) : Suppressions :=
  let leading := (f.source.takeWhile fun (b : UInt8) => b = ' ' || b = '\t' || b = '\n').length
  let s := (directives f).foldl (Scan.follow leading) {}
  { regions := (s.closeAllAt f.source.length).done }

end Suppressions
end LiquidLint
