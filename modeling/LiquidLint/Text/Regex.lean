import LiquidLint.Text.Utf8

/-!
# Regular expressions

Expressions over characters with marks for the two ends of a text, read from their usual written
form and matched by derivatives.
-/

namespace LiquidLint

/-- A symbol of the text that is matched: the code point of a character, or a mark for an end. -/
abbrev Symbol := Nat

/-- The mark before the first character. -/
def Symbol.first : Symbol := 0x110000

/-- The mark after the last character. -/
def Symbol.last : Symbol := 0x110001

/-- A class of characters: those in one of the ranges, or those in none of them. -/
structure CharClass where
  negated : Bool := false
  ranges : List (Nat × Nat)
deriving DecidableEq

/-- Whether the class has the symbol; the marks belong to no class. -/
def CharClass.has (k : CharClass) (s : Symbol) : Bool :=
  s < Symbol.first && (k.ranges.any (fun r => r.1 ≤ s && s ≤ r.2) != k.negated)

/-- A regular expression. -/
inductive Regex where
  | never
  | empty
  | mark (s : Symbol)
  | one (k : CharClass)
  | seq (r s : Regex)
  | alt (r s : Regex)
  | star (r : Regex)
deriving DecidableEq

namespace Regex

/-- Whether the expression matches the empty text. -/
def nullable : Regex → Bool
  | never => false
  | empty => true
  | mark _ => false
  | one _ => false
  | seq r s => r.nullable && s.nullable
  | alt r s => r.nullable || s.nullable
  | star _ => true

/-- `seq` with its trivial cases taken away. -/
def seq' : Regex → Regex → Regex
  | never, _ => never
  | _, never => never
  | empty, s => s
  | r, empty => r
  | r, s => seq r s

/-- `alt` with its trivial cases taken away. -/
def alt' : Regex → Regex → Regex
  | never, s => s
  | r, never => r
  | r, s => if r = s then r else alt r s

/-- What is left to match after the symbol `c`. -/
def deriv (c : Symbol) : Regex → Regex
  | never => never
  | empty => never
  | mark s => if s = c then empty else never
  | one k => if k.has c then empty else never
  | seq r s =>
    if r.nullable then alt' (seq' (r.deriv c) s) (s.deriv c) else seq' (r.deriv c) s
  | alt r s => alt' (r.deriv c) (s.deriv c)
  | star r => seq' (r.deriv c) (star r)

/-- Whether the expression matches some symbols at the start of the list. -/
def matchesStart (r : Regex) : List Symbol → Bool
  | [] => r.nullable
  | c :: rest => r.nullable || (r != never && (r.deriv c).matchesStart rest)

/-- Whether the expression matches somewhere in the list. -/
def matchesWithin (r : Regex) : List Symbol → Bool
  | [] => r.nullable
  | c :: rest => r.matchesStart (c :: rest) || r.matchesWithin rest

/-- Whether the expression matches somewhere in the text. -/
def matchesText (r : Regex) (t : Text) : Bool :=
  r.matchesWithin (Symbol.first :: ((Text.chars t).map Char.toNat ++ [Symbol.last]))

/-- `r` repeated `n` times. -/
def times (r : Regex) : Nat → Regex
  | 0 => empty
  | n + 1 => seq' r (times r n)

/-! ## The written form -/

/-- The class of one character. -/
def single (c : Char) : CharClass := { ranges := [(c.toNat, c.toNat)] }

/-- The ranges of the class that a backslash and `c` stand for. -/
def escapeRanges (c : Char) : List (Nat × Nat) :=
  if c = 'd' then [(0x30, 0x39)]
  else if c = 'w' then [(0x30, 0x39), (0x41, 0x5A), (0x5F, 0x5F), (0x61, 0x7A)]
  else if c = 's' then [(0x09, 0x0A), (0x0C, 0x0D), (0x20, 0x20)]
  else [(c.toNat, c.toNat)]

/-- The ranges up to the closing bracket of a class, and what follows it. -/
def classRanges (ranges : List (Nat × Nat)) : List Char → Option (List (Nat × Nat) × List Char)
  | [] => none
  | c :: rest =>
    if c = ']' then some (ranges, rest)
    else if c = '\\' then
      match rest with
      | [] => none
      | d :: more => classRanges (ranges ++ escapeRanges d) more
    else match rest with
      | '-' :: d :: more =>
        if d = ']' then some (ranges ++ [(c.toNat, c.toNat), (0x2D, 0x2D)], more)
        else classRanges (ranges ++ [(c.toNat, d.toNat)]) more
      | more => classRanges (ranges ++ [(c.toNat, c.toNat)]) more

/-- What a repetition mark at the start of `cs` makes of `r`, and what follows it. -/
def repeated (r : Regex) (cs : List Char) : Regex × List Char :=
  let lazy (cs : List Char) : List Char := if cs.head? = some '?' then cs.tail else cs
  match cs with
  | '*' :: rest => (star r, lazy rest)
  | '+' :: rest => (seq r (star r), lazy rest)
  | '?' :: rest => (alt empty r, lazy rest)
  | '\x7b' :: d :: '\x7d' :: rest => (times r (d.toNat - 0x30), lazy rest)
  | _ => (r, cs)

/-- Reads alternatives up to a closing parenthesis or the end; `fuel` bounds the steps. -/
def readAlternatives : (fuel : Nat) → (done current : Regex) → List Char →
    Option (Regex × List Char)
  | 0, _, _, _ => none
  | _, done, current, [] => some (alt' done current, [])
  | fuel + 1, done, current, c :: rest =>
    let add (atom : Regex) (rest : List Char) : Option (Regex × List Char) :=
      let r := repeated atom rest
      readAlternatives fuel done (seq' current r.1) r.2
    if c = ')' then some (alt' done current, c :: rest)
    else if c = '|' then readAlternatives fuel (alt' done current) empty rest
    else if c = '(' then
      match readAlternatives fuel never empty rest with
      | some (inner, _ :: more) => add inner more
      | _ => none
    else if c = '[' then
      let negated := rest.head? = some '^'
      match classRanges [] (if negated then rest.tail else rest) with
      | some (ranges, more) => add (one { negated, ranges }) more
      | none => none
    else if c = '\\' then
      match rest with
      | [] => none
      | d :: more => add (one { ranges := escapeRanges d }) more
    else if c = '^' then add (mark .first) rest
    else if c = '$' then add (mark .last) rest
    else if c = '.' then add (one { negated := true, ranges := [(0x0A, 0x0A)] }) rest
    else add (one (single c)) rest

/-- The expression that a pattern writes; one that cannot be read matches nothing. -/
def ofString (pattern : String) : Regex :=
  match readAlternatives (pattern.length + 1) never empty pattern.toList with
  | some (r, []) => r
  | _ => never

end Regex
end LiquidLint
