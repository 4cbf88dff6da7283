import LiquidLint.Yaml.Stream

/-!
# Tokens of a YAML stream

The tokens, and the reading of those that have an inner form of their own: directives, anchors, tags
and scalars. Each reader starts at the first character of its token and gives the cursor after it.
-/

namespace LiquidLint
namespace Yaml

/-- How a scalar is written. -/
inductive ScalarStyle where
  | plain
  | singleQuoted
  | doubleQuoted
  | literal
  | folded
deriving DecidableEq

/-- What a token is. -/
inductive TokenKind where
  | streamStart
  | streamEnd
  | versionDirective (major minor : Nat)
  | tagDirective (handle start : List Char)
  | documentStart
  | documentEnd
  | blockSequenceStart
  | blockMappingStart
  | blockEnd
  | flowSequenceStart
  | flowSequenceEnd
  | flowMappingStart
  | flowMappingEnd
  | blockEntry
  | flowEntry
  | key
  | value
  | alias (name : List Char)
  | anchor (name : List Char)
  | tag (handle suffix : List Char)
  | scalar (value : List Char) (style : ScalarStyle)
deriving DecidableEq

/-- A token and where it stands. -/
structure Token where
  kind : TokenKind
  start : Mark
  stop : Mark
deriving DecidableEq

namespace Token

/-- What a reader of one token gives. -/
abbrev Reading := Except Problem (TokenKind × Cursor)

/-- The problem `what` of a token that began at `start`, found at the cursor. -/
def refuse {α : Type} (c : Cursor) (start : Mark) (what : Text) : Except Problem α :=
  .error (.lexical what start c.mark)

/-! ## Anchors and aliases -/

/-- Whether an anchor may end before `c`. -/
def endsAnchor (rest : List Char) : Bool :=
  blankNext rest || (rest.head?.any fun c => "?:,]\x7d%@`".toList.contains c)

/-- Reads the name after `&` or `*`. -/
def anchorName (c : Cursor) : Except Problem (List Char × Cursor) :=
  let inner := c.advance 1
  let name := inner.rest.takeWhile isWordChar
  let after := inner.advance name.length
  if name.isEmpty || !endsAnchor after.rest then
    refuse after c.mark "did not find expected alphabetic or numeric character"
  else .ok (name, after)

/-! ## Tags -/

/-- Whether `c` may stand in the address of a tag. -/
def isUriChar (c : Char) : Bool := isWordChar c || ";/?:@&=+$,.!~*'()[]%".toList.contains c

/-- The octet that a percent sign and two hexadecimal digits write. -/
def escapedOctet? : List Char → Option UInt8
  | '%' :: a :: b :: _ => do
    let hi ← if a.toNat < 128 then Text.hexValue? a.toUInt8 else none
    let lo ← if b.toNat < 128 then Text.hexValue? b.toUInt8 else none
    return UInt8.ofNat (16 * hi + lo)
  | _ => none

/-- Reads `more` escaped octets that continue a character. -/
def escapedOctets (start : Mark) (c : Cursor) (done : Text) :
    (more : Nat) → Except Problem (Text × Cursor)
  | 0 => .ok (done, c)
  | more + 1 =>
    match escapedOctet? c.rest with
    | none => refuse c start "did not find URI escaped octet"
    | some b =>
      if Text.isContinuation b then escapedOctets start (c.advance 3) (done ++ [b]) more
      else refuse c start "found an incorrect trailing UTF-8 octet"

/-- Reads one escaped character. -/
def escapedChar (start : Mark) (c : Cursor) : Except Problem (List Char × Cursor) :=
  match escapedOctet? c.rest with
  | none => refuse c start "did not find URI escaped octet"
  | some b =>
    match widthOf? b with
    | none => refuse c start "found an incorrect leading UTF-8 octet"
    | some width => do
      let octets ← escapedOctets start (c.advance 3) [b] (width - 1)
      return (Text.chars octets.1, octets.2)

/-- Reads the characters of an address; `fuel` bounds their number. -/
def uriChars (start : Mark) : (fuel : Nat) → (done : List Char) → Cursor →
    Except Problem (List Char × Cursor)
  | 0, done, c => .ok (done, c)
  | fuel + 1, done, c =>
    match c.rest with
    | [] => .ok (done, c)
    | d :: _ =>
      if d = '%' then do
        let e ← escapedChar start c
        uriChars start fuel (done ++ e.1) e.2
      else if isUriChar d then uriChars start fuel (done ++ [d]) (c.advance 1)
      else .ok (done, c)

/-- Reads an address after the characters `head`, the first of which is no part of it. -/
def tagUri (start : Mark) (head : List Char) (c : Cursor) : Except Problem (List Char × Cursor) :=
  do
    let uri ← uriChars start c.rest.length (head.drop 1) c
    if head.isEmpty && uri.2.mark.index = c.mark.index then
      refuse c start "did not find expected tag URI"
    else return uri

/-- Reads a handle: an exclamation mark, a word, and perhaps one more mark. -/
def tagHandle (directive : Bool) (start : Mark) (c : Cursor) :
    Except Problem (List Char × Cursor) :=
  if c.rest.head? ≠ some '!' then refuse c start "did not find expected '!'"
  else
    let name := '!' :: (c.rest.drop 1).takeWhile isWordChar
    let after := c.advance name.length
    if after.rest.head? = some '!' then .ok (name ++ ['!'], after.advance 1)
    else if directive && name ≠ ['!'] then refuse after start "did not find expected '!'"
    else .ok (name, after)

/-- Reads a tag. -/
def tag (c : Cursor) : Reading := do
  let start := c.mark
  let parts ←
    if (c.rest.drop 1).head? = some '<' then do
      let uri ← tagUri start [] (c.advance 2)
      if uri.2.rest.head? ≠ some '>' then refuse uri.2 start "did not find the expected '>'"
      else pure (([] : List Char), uri.1, uri.2.advance 1)
    else do
      let handle ← tagHandle false start c
      if 1 < handle.1.length && handle.1.getLast? = some '!' then do
        let uri ← tagUri start [] handle.2
        pure (handle.1, uri.1, uri.2)
      else do
        let uri ← tagUri start handle.1 handle.2
        if uri.1.isEmpty then pure ([], ['!'], uri.2) else pure (['!'], uri.1, uri.2)
  if !blankNext parts.2.2.rest then
    refuse parts.2.2 start "did not find expected whitespace or line break"
  else return (.tag parts.1 parts.2.1, parts.2.2)

/-! ## Directives -/

/-- Reads a number of a version: one or two digits. -/
def versionNumber (start : Mark) (c : Cursor) : Except Problem (Nat × Cursor) :=
  let digits := c.rest.takeWhile Char.isDigit
  if digits.isEmpty then refuse c start "did not find expected version number"
  else if 2 < digits.length then
    refuse (c.advance 2) start "found extremely long version number"
  else .ok (digits.foldl (fun n d => 10 * n + (d.toNat - 0x30)) 0, c.advance digits.length)

/-- Reads what follows the name of a version directive. -/
def version (start : Mark) (c : Cursor) : Reading := do
  let major ← versionNumber start (c.passWhile isBlank)
  if major.2.rest.head? ≠ some '.' then
    refuse major.2 start "did not find expected digit or '.' character"
  else do
    let minor ← versionNumber start (major.2.advance 1)
    return (.versionDirective major.1 minor.1, minor.2)

/-- Reads what follows the name of a tag directive. -/
def tagAbbreviation (start : Mark) (c : Cursor) : Reading := do
  let handle ← tagHandle true start (c.passWhile isBlank)
  if !(handle.2.rest.head?.any isBlank) then
    refuse handle.2 start "did not find expected whitespace"
  else do
    let uri ← tagUri start [] (handle.2.passWhile isBlank)
    if !blankNext uri.2.rest then
      refuse uri.2 start "did not find expected whitespace or line break"
    else return (.tagDirective handle.1 uri.1, uri.2)

/-- Reads a directive through the end of its line. -/
def directive (c : Cursor) : Reading := do
  let start := c.mark
  let inner := c.advance 1
  let name := inner.rest.takeWhile isWordChar
  let after := inner.advance name.length
  if name.isEmpty then refuse after start "could not find expected directive name"
  else if !blankNext after.rest then
    refuse after start "found unexpected non-alphabetical character"
  else do
    let body ←
      if name = "YAML".toList then version start after
      else if name = "TAG".toList then tagAbbreviation start after
      else refuse after start "found unknown directive name"
    let c := body.2.passWhile isBlank
    let c := if c.rest.head? = some '#' then c.passWhile (!isBreak ·) else c
    if !breakNext c.rest then refuse c start "did not find expected comment or line break"
    else return (body.1, c.passBreak)

/-! ## Block scalars -/

/-- What happens to the line breaks at the end of a block scalar. -/
inductive Chomping where
  | strip
  | clip
  | keep
deriving DecidableEq

/-- Reads the marks after `|` or `>`: chomping and indentation, in either order. -/
def blockHeader (start : Mark) (c : Cursor) : Except Problem (Chomping × Nat × Cursor) :=
  let chomp (c : Cursor) : Option Chomping := match c.rest.head? with
    | some '+' => some .keep
    | some '-' => some .strip
    | _ => none
  let indent (c : Cursor) : Except Problem (Nat × Cursor) := match c.rest.head? with
    | some d =>
      if d = '0' then refuse c start "found an indentation indicator equal to 0"
      else if d.isDigit then .ok (d.toNat - 0x30, c.advance 1)
      else .ok (0, c)
    | none => .ok (0, c)
  match chomp c with
  | some how => do
    let width ← indent (c.advance 1)
    return (how, width.1, width.2)
  | none => do
    let width ← indent c
    if width.1 = 0 then return (.clip, 0, c)
    else match chomp width.2 with
      | some how => return (how, width.1, width.2.advance 1)
      | none => return (.clip, width.1, width.2)

/-- Passes indentation and empty lines: the deepest indentation seen, the line breaks, and the cursor
at the next line with content. An `indent` of zero is not known yet. -/
def blockBreaks (start : Mark) (indent : Nat) :
    (fuel : Nat) → (deepest : Nat) → (breaks : List Char) → Cursor →
    Except Problem (Nat × List Char × Cursor)
  | 0, deepest, breaks, c => .ok (deepest, breaks, c)
  | fuel + 1, deepest, breaks, c =>
    let spaces := (c.rest.takeWhile (· = ' ')).length
    let c := c.advance (if indent = 0 then spaces else min spaces (indent - c.mark.column))
    let deepest := max deepest c.mark.column
    if (indent = 0 || c.mark.column < indent) && c.rest.head? = some '\t' then
      refuse c start "found a tab character where an indentation space is expected"
    else if c.rest.head?.any isBreak then
      blockBreaks start indent fuel deepest (breaks ++ c.breakText) c.passBreak
    else .ok (deepest, breaks, c)

/-- The text of a block scalar so far, and what is pending between two lines. -/
structure BlockText where
  text : List Char := []
  leadingBreak : List Char := []
  trailingBreaks : List Char
  leadingBlank : Bool := false

/-- Reads the lines of a block scalar with the indentation `indent`. -/
def blockLines (start : Mark) (folded : Bool) (indent : Nat) :
    (fuel : Nat) → BlockText → Cursor → Except Problem (BlockText × Cursor)
  | 0, b, c => .ok (b, c)
  | fuel + 1, b, c =>
    if c.mark.column ≠ indent || c.rest.isEmpty then .ok (b, c)
    else
      let blank := c.rest.head?.any isBlank
      let joint :=
        if folded && !b.leadingBlank && !blank && b.leadingBreak.head? = some '\n' then
          if b.trailingBreaks.isEmpty then [' '] else []
        else b.leadingBreak
      let line := c.rest.takeWhile (!isBreak ·)
      let after := c.advance line.length
      let leadingBreak := after.breakText
      match blockBreaks start indent after.rest.length 0 [] after.passBreak with
      | .error p => .error p
      | .ok (_, breaks, next) =>
        blockLines start folded indent fuel
          { text := b.text ++ joint ++ b.trailingBreaks ++ line, leadingBreak,
            trailingBreaks := breaks, leadingBlank := blank } next

/-- Reads a block scalar inside a block whose indentation is `outer`, minus one outside of all. -/
def blockScalar (folded : Bool) (outer : Int) (c : Cursor) : Reading := do
  let start := c.mark
  let header ← blockHeader start (c.advance 1)
  let c := header.2.2.passWhile isBlank
  let c := if c.rest.head? = some '#' then c.passWhile (!isBreak ·) else c
  if !breakNext c.rest then refuse c start "did not find expected comment or line break"
  else do
    c.need 1
    let c := c.passBreak
    let given : Nat :=
      if header.2.1 = 0 then 0 else if 0 ≤ outer then outer.toNat + header.2.1 else header.2.1
    let first ← blockBreaks start given (c.rest.length + 1) 0 [] c
    let indent := if given = 0 then max (max first.1 (outer + 1).toNat) 1 else given
    let body ← blockLines start folded indent (c.rest.length + 1)
      { trailingBreaks := first.2.1 } first.2.2
    body.2.need 1
    let b := body.1
    let text := match header.1 with
      | .strip => b.text
      | .clip => b.text ++ b.leadingBreak
      | .keep => b.text ++ b.leadingBreak ++ b.trailingBreaks
    return (.scalar text (if folded then .folded else .literal), body.2)

/-! ## Folding in flow and plain scalars -/

/-- White space inside a scalar: blanks before the first line break, that break, and those after
it. -/
structure Gap where
  blanks : List Char := []
  leadingBreak : List Char := []
  trailingBreaks : List Char := []
  /-- Whether a line break was passed. -/
  broken : Bool := false

/-- What a gap stands for between two pieces of a scalar: a single line break is a space. -/
def Gap.text (g : Gap) : List Char :=
  if g.broken then
    if g.leadingBreak.head? = some '\n' then
      if g.trailingBreaks.isEmpty then [' '] else g.trailingBreaks
    else g.leadingBreak ++ g.trailingBreaks
  else g.blanks

/-- Passes white space. In a plain scalar, a tab before the column `indent` of a later line is
refused. -/
def passGap (start : Mark) (indent : Nat) :
    (fuel : Nat) → Gap → Cursor → Except Problem (Gap × Cursor)
  | 0, g, c => .ok (g, c)
  | fuel + 1, g, c =>
    match c.rest with
    | [] => .ok (g, c)
    | d :: _ =>
      if isBlank d then
        if g.broken && c.mark.column < indent && d = '\t' then
          refuse c start "found a tab character that violates indentation"
        else passGap start indent fuel
          (if g.broken then g else { g with blanks := g.blanks ++ [d] }) (c.advance 1)
      else if isBreak d then
        passGap start indent fuel
          (if g.broken then { g with trailingBreaks := g.trailingBreaks ++ c.breakText }
            else { g with blanks := [], leadingBreak := c.breakText, broken := true })
          c.passBreak
      else .ok (g, c)

/-! ## Quoted scalars -/

/-- The character that a backslash and `c` stand for. -/
def escape? (c : Char) : Option Char :=
  [('0', Char.ofNat 0), ('a', Char.ofNat 7), ('b', Char.ofNat 8), ('t', '\t'), ('\t', '\t'),
    ('n', '\n'), ('v', Char.ofNat 11), ('f', Char.ofNat 12), ('r', '\r'), ('e', Char.ofNat 27),
    (' ', ' '), ('"', '"'), ('\'', '\''), ('\\', '\\'), ('N', Char.ofNat 0x85),
    ('_', Char.ofNat 0xA0), ('L', Char.ofNat 0x2028), ('P', Char.ofNat 0x2029)].lookup c

/-- How many hexadecimal digits follow a backslash and `c`. -/
def escapeLength? (c : Char) : Option Nat := [('x', 2), ('u', 4), ('U', 8)].lookup c

/-- The number that hexadecimal digits write. -/
def hexNumber? (digits : List Char) : Option Nat :=
  digits.foldlM (fun n d => do
    let v ← if d.toNat < 128 then Text.hexValue? d.toUInt8 else none
    return 16 * n + v) 0

/-- Reads an escape sequence. -/
def escaped (start : Mark) (c : Cursor) : Except Problem (List Char × Cursor) :=
  match c.rest with
  | _ :: d :: rest =>
    match escape? d with
    | some e => .ok ([e], c.advance 2)
    | none =>
      match escapeLength? d with
      | none => refuse c start "found unknown escape character"
      | some n =>
        let after := c.advance 2
        match if rest.length < n then none else hexNumber? (rest.take n) with
        | none => refuse after start "did not find expected hexdecimal number"
        | some v =>
          if (0xD800 ≤ v && v ≤ 0xDFFF) || 0x10FFFF < v then
            refuse after start "found invalid Unicode character escape code"
          else .ok ([Char.ofNat v], after.advance n)
  | _ => refuse c start "found unknown escape character"

/-- Reads the characters of a quoted scalar up to a blank, a line break, the closing quote or the
end. The result tells whether an escaped line break was passed last. -/
def quotedRun (start : Mark) (single : Bool) :
    (fuel : Nat) → (done : List Char) → Cursor → Except Problem (List Char × Bool × Cursor)
  | 0, done, c => .ok (done, false, c)
  | fuel + 1, done, c =>
    if blankNext c.rest then .ok (done, false, c)
    else match c.rest with
      | '\'' :: '\'' :: _ =>
        if single then quotedRun start single fuel (done ++ ['\'']) (c.advance 2)
        else quotedRun start single fuel (done ++ ['\'']) (c.advance 1)
      | d :: rest =>
        if single && d = '\'' || !single && d = '"' then .ok (done, false, c)
        else if !single && d = '\\' then
          if rest.head?.any isBreak then .ok (done, true, (c.advance 1).passBreak)
          else do
            c.need 2
            let e ← escaped start c
            quotedRun start single fuel (done ++ e.1) e.2
        else quotedRun start single fuel (done ++ [d]) (c.advance 1)
      | [] => .ok (done, false, c)

/-- Reads a quoted scalar from after its opening quote on. -/
def quotedBody (start : Mark) (single : Bool) :
    (fuel : Nat) → (done : List Char) → Cursor → Except Problem (List Char × Cursor)
  | 0, _, c => refuse c start "found unexpected end of stream"
  | fuel + 1, done, c => do
    c.need 1
    if c.mark.column = 0 && (markNext '-' c.rest || markNext '.' c.rest) then
      refuse c start "found unexpected document indicator"
    else if c.rest.isEmpty then refuse c start "found unexpected end of stream"
    else do
      let run ← quotedRun start single (c.rest.length + 1) done c
      let c := run.2.2
      if c.rest.head? = some (if single then '\'' else '"') then return (run.1, c.advance 1)
      else do
        let gap ← passGap start 0 (c.rest.length + 1) { broken := run.2.1 } c
        quotedBody start single fuel (run.1 ++ gap.1.text) gap.2

/-- Reads a quoted scalar. -/
def quotedScalar (single : Bool) (c : Cursor) : Reading := do
  let body ← quotedBody c.mark single (c.rest.length + 1) [] (c.advance 1)
  return (.scalar body.1 (if single then .singleQuoted else .doubleQuoted), body.2)

/-! ## Plain scalars -/

/-- Whether a plain scalar ends before the characters `rest`. -/
def endsPlain (inFlow : Bool) (rest : List Char) : Bool :=
  blankNext rest ||
    match rest with
    | [] => true
    | c :: more =>
      (c = ':' && blankNext more) || (inFlow && ",?[]\x7b\x7d".toList.contains c)

/-- The characters of a plain scalar up to where it may end. -/
def plainRun (inFlow : Bool) : List Char → List Char
  | [] => []
  | c :: rest => if endsPlain inFlow (c :: rest) then [] else c :: plainRun inFlow rest

/-- Reads a plain scalar after the text `done` and the gap `gap`. The result is the text, where it
ends, whether a line break was passed after it, and the cursor. -/
def plainBody (start : Mark) (inFlow : Bool) (indent : Nat) :
    (fuel : Nat) → (done : List Char) → (stop : Mark) → Gap → Cursor →
    Except Problem (List Char × Mark × Bool × Cursor)
  | 0, done, stop, gap, c => .ok (done, stop, gap.broken, c)
  | fuel + 1, done, stop, gap, c => do
    c.need 1
    if (c.mark.column = 0 && (markNext '-' c.rest || markNext '.' c.rest)) ||
        c.rest.head? = some '#' then
      return (done, stop, gap.broken, c)
    else do
      let run := plainRun inFlow c.rest
      let after := c.advance run.length
      let done := if run.isEmpty then done else done ++ gap.text ++ run
      let stop := if run.isEmpty then stop else after.mark
      let gap := if run.isEmpty then gap else {}
      if !(after.rest.head?.any fun d => isBlank d || isBreak d) then
        return (done, stop, gap.broken, after)
      else do
        let next ← passGap start indent (after.rest.length + 1) gap after
        if !inFlow && next.2.mark.column < indent then
          return (done, stop, next.1.broken, next.2)
        else plainBody start inFlow indent fuel done stop next.1 next.2

end Token

end Yaml
end LiquidLint
