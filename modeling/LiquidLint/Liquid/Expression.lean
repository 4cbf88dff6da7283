import LiquidLint.Liquid.Node

/-!
# Names inside markup

Which variables an expression reads, which variable an assignment writes, and which template a tag
names by a literal.
-/

namespace LiquidLint
namespace Liquid

/-- A variable that markup refers to, with its offset in the markup. -/
structure Ident where
  name : Text
  offset : Nat
deriving DecidableEq

/-- The words of the expression language that are no variables. -/
def keywords : List Text :=
  ["and", "or", "contains", "in", "true", "false", "nil", "null", "empty", "blank", "with", "as",
    "for", "limit", "offset", "reversed", "cols", "range"]

/-- Whether a name may start with `b`. -/
def isIdentStart (b : UInt8) : Bool := b = '_' || Text.isLetter b

/-- Whether a name may go on with `b`. -/
def isIdentPart (b : UInt8) : Bool :=
  isIdentStart b || Text.isDigit b || b = '-' || b = '?'

/-- Whether the first byte of `t` after spaces and tabs is a colon. -/
def beforeColon : Text → Bool
  | [] => false
  | b :: rest => if b = ' ' || b = '\t' then beforeColon rest else b = ':'

/-- What was read last: this decides whether a name is a root variable. -/
inductive Before where
  /-- A dot or a pipe: the name is a property or a filter. -/
  | joint
  /-- Anything else. -/
  | other
deriving DecidableEq

/-- The root variables of `t`, whose first byte has the offset `offset`. String literals, properties,
filter names and keys of named arguments are skipped, and so is all that follows a quote without its
partner. -/
def identsFrom (before : Before) (offset : Nat) (t : Text) : List Ident :=
  match t with
  | [] => []
  | b :: rest =>
    if b = '"' || b = '\'' then
      let literal := rest.takeWhile (· ≠ b)
      if literal.length < rest.length then
        identsFrom .other (offset + literal.length + 2) (rest.drop (literal.length + 1))
      else []
    else if isIdentStart b then
      let name := b :: rest.takeWhile isIdentPart
      let more := rest.dropWhile isIdentPart
      let found :=
        if before = .other && !keywords.contains name && !beforeColon more
        then [⟨name, offset⟩] else []
      found ++ identsFrom .other (offset + name.length) more
    else if b = ' ' || b = '\t' || b = '\n' || b = '\r' then identsFrom before (offset + 1) rest
    else if Text.isDigit b then
      let number := rest.takeWhile fun c => isIdentPart c || c = '.'
      identsFrom .other (offset + number.length + 1) (rest.dropWhile fun c => isIdentPart c || c = '.')
    else identsFrom (if b = '.' || b = '|' then .joint else .other) (offset + 1) rest
termination_by t.length
decreasing_by
  · simp only [List.length_drop, List.length_cons]
    omega
  · simp only [List.length_cons]
    exact Nat.lt_succ_of_le (List.dropWhile_sublist _).length_le
  · simp
  · simp only [List.length_cons]
    exact Nat.lt_succ_of_le (List.dropWhile_sublist _).length_le
  · simp

/-- The root variables that `markup` refers to, in order of occurrence. -/
def identifiers (markup : Text) : List Ident := identsFrom .other 0 markup

/-- The variable on the left of the first `=`, when there is one and it is a name. -/
def assignTarget? (markup : Text) : Option Text :=
  match Text.cut? markup ['='] with
  | none => none
  | some (left, _) =>
    let name := Text.trimSpace left
    match name with
    | [] => none
    | b :: _ => if isIdentStart b && name.all isIdentPart then some name else none

/-- A template named by a literal; the span covers the quotes. -/
structure TemplateRef where
  name : Text
  start : Nat
  stop : Nat
deriving DecidableEq

/-- The literal that `t` starts with; `t` stands at the offset `start`. -/
def literalRef? (t : Text) (start : Nat) : Option TemplateRef :=
  match t with
  | [] => none
  | q :: rest =>
    if q = '\'' || q = '"' then
      let name := rest.takeWhile (· ≠ q)
      if name.length < rest.length then some ⟨name, start, start + name.length + 2⟩ else none
    else none

/-- The tags whose markup starts with the name of a template. -/
def templateTags : List Text := ["render", "include", "theme_render", "include_form"]

/-- The template that a tag names by a string literal: at the start of its markup, or after the
first `=` for a `function` tag. -/
def referencedTemplate? (h : Head) : Option TemplateRef :=
  if h.kind ≠ .tag then none
  else if templateTags.contains h.name then literalRef? h.markup h.markupStart
  else if h.name = "function" then
    match Text.cut? h.markup ['='] with
    | none => none
    | some (_, right) =>
      let right := Text.trimLeft Text.isAsciiBlank right
      literalRef? right (h.markupStart + (h.markup.length - right.length))
  else none

end Liquid
end LiquidLint
