import LiquidLint.Text.Basic

/-!
# Tokens of HTML

A forgiving reading of HTML as text, comments, doctypes, start tags and end tags, by the rules of
the HTML standard for tag, attribute, comment and script states. The tokens are consecutive pieces
of the input; a tag that the input ends in is no token, and neither is anything after it.
-/

namespace LiquidLint
namespace Markup

/-- What a token is. Tag names are in ASCII lower case. -/
inductive TokenKind where
  | text
  | comment
  | doctype
  | startTag (name : Text) (selfClosing : Bool)
  | endTag (name : Text)
deriving DecidableEq

/-- A token and the number of bytes it takes. -/
structure Token where
  kind : TokenKind
  size : Nat
deriving DecidableEq

/-- White space inside a tag. -/
def isTagSpace (b : UInt8) : Bool :=
  b = ' ' || b = '\t' || b = '\n' || b = '\r' || b = 0x0C

/-- Whether `b` ends the name of a tag. -/
def endsTagName (b : UInt8) : Bool := isTagSpace b || b = '/' || b = '>'

/-! ## Start and end tags -/

/-- The rest after the name of an attribute. An equals sign in the first place belongs to the
name. -/
def afterAttrName (t : Text) : Text :=
  match t with
  | [] => []
  | b :: rest =>
    if b = '=' then rest.dropWhile fun c => !(endsTagName c || c = '=')
    else (b :: rest).dropWhile fun c => !(endsTagName c || c = '=')

/-- Reads what follows the name of an attribute: how many bytes of input are left after the value,
and the rest after all that belongs to the attribute. `none` when the input ends first. -/
def attrValue? (t : Text) : Option (Nat × Text) :=
  match t.dropWhile isTagSpace with
  | [] => none
  | b :: rest =>
    if b = '/' then some (t.length, rest)
    else if b ≠ '=' then some (t.length, b :: rest)
    else match rest.dropWhile isTagSpace with
      | [] => none
      | q :: value =>
        if q = '>' then some (t.length, q :: value)
        else if q = '\'' || q = '"' then
          match value.dropWhile (· ≠ q) with
          | [] => none
          | after => some (after.length, after.tail)
        else
          match value.dropWhile fun c => !(isTagSpace c || c = '>') with
          | [] => none
          | c :: after =>
            some (after.length + 1, if c = '>' then c :: after else after)

/-- Reads attributes up to the end of the tag: how many bytes of input are left after the value of
the last attribute with a name, and the rest after the tag. `none` when the input ends first. -/
def attrsEnd? (last : Option Nat) (t : Text) : Option (Option Nat × Text) :=
  match t.dropWhile isTagSpace with
  | [] => none
  | b :: rest =>
    if b = '>' then some (last, rest)
    else
      let afterName := afterAttrName (b :: rest)
      match attrValue? afterName with
      | none => none
      | some (left, more) =>
        let last := if afterName.length < rest.length + 1 then some left else last
        if more.length < t.length then attrsEnd? last more else none
termination_by t.length

/-- The name of the tag at the start of `t`, the rest after the tag and whether the tag closes
itself: a slash stands before its bracket and is not the end of an attribute value. -/
def tag? (t : Text) : Option (Text × Text × Bool) :=
  let name := t.takeWhile fun b => !endsTagName b
  match attrsEnd? none (t.drop name.length) with
  | none => none
  | some (last, rest) =>
    let slash := (t.drop (t.length - rest.length - 2)).head? = some '/'
    some (name.map Text.lowerByte, rest, slash && last ≠ some (rest.length + 1))

/-! ## Comments and declarations -/

/-- The rest after a comment whose opening dashes were read. `dashes` counts the dashes just
before, and `opening` holds as long as nothing else was read. -/
def afterComment (dashes : Nat) (opening : Bool) : Text → Text
  | [] => []
  | b :: rest =>
    if b = '-' then afterComment (dashes + 1) opening rest
    else if b = '>' then
      if 2 ≤ dashes || opening then rest else afterComment 0 false rest
    else if b = '!' && 2 ≤ dashes then
      match rest with
      | [] => []
      | c :: more =>
        if c = '>' then more
        else if c = '-' then afterComment 1 false more
        else afterComment 0 false more
    else afterComment 0 false rest

/-- The rest after the next closing bracket. -/
def afterBracket : Text → Text
  | [] => []
  | b :: rest => if b = '>' then rest else afterBracket rest

/-- Whether `t` starts with the small letters of `word` in either case. -/
def startsWithWord (word t : Text) : Bool :=
  (t.take word.length).map Text.lowerByte = word

/-- The kind of the declaration after `<!` at the start of `t`, and the rest after it. -/
def declaration (t : Text) : TokenKind × Text :=
  if Text.startsWith t ['-', '-'] then (.comment, afterComment 0 true (t.drop 2))
  else if startsWithWord "doctype" t then (.doctype, afterBracket (t.drop 7))
  else (.comment, afterBracket t)

/-! ## Raw text -/

/-- The elements whose content is text up to their end tag. -/
def rawElements : List Text :=
  ["iframe", "noembed", "noframes", "noscript", "plaintext", "script", "style", "textarea",
    "title", "xmp"]

/-- Whether `t` starts with the end tag of the element `name`, up to the byte after its name. -/
def startsEndTag (name t : Text) : Bool :=
  match Text.dropStart? ['<', '/'] t with
  | none => false
  | some t => startsWithWord name t &&
    match t.drop name.length with
    | [] => false
    | b :: _ => endsTagName b

/-- The rest that starts with the end tag of `name`, or nothing. -/
def fromEndTag (name : Text) : Text → Text
  | [] => []
  | b :: rest => if startsEndTag name (b :: rest) then b :: rest else fromEndTag name rest

/-- Where a script stands: outside of comment marks, inside of them, or in a script tag inside of
them. The latter two count the dashes just before, up to two. -/
inductive ScriptState where
  | plain
  | escaped (dashes : Nat)
  | doubled (dashes : Nat)

/-- The rest that starts with the end tag of a script, or nothing. Comment marks hide a script tag
together with its end tag. -/
def scriptRest (state : ScriptState) (t : Text) : Text :=
  match t with
  | [] => []
  | b :: rest =>
    match state with
    | .plain =>
      if b = '<' then
        if startsEndTag "script" (b :: rest) then b :: rest
        else if Text.startsWith rest ['!', '-', '-'] then
          scriptRest (.escaped 2) (rest.drop 3)
        else scriptRest .plain rest
      else scriptRest .plain rest
    | .escaped dashes =>
      if b = '-' then scriptRest (.escaped (dashes + 1)) rest
      else if b = '>' && 2 ≤ dashes then scriptRest .plain rest
      else if b = '<' then
        if startsEndTag "script" (b :: rest) then b :: rest
        else if Text.startsWith rest ['/'] then scriptRest (.escaped 0) (rest.drop 1)
        else if startsWithWord "script" rest && (rest.drop 6).head?.any endsTagName then
          scriptRest (.doubled 0) (rest.drop 7)
        else if rest.head?.any Text.isLetter then scriptRest (.escaped 0) rest
        else scriptRest .plain rest
      else scriptRest (.escaped 0) rest
    | .doubled dashes =>
      if b = '-' then scriptRest (.doubled (dashes + 1)) rest
      else if b = '>' && 2 ≤ dashes then scriptRest .plain rest
      else if b = '<' then
        if startsEndTag "script" (b :: rest) then scriptRest (.escaped 0) (rest.drop 8)
        else if Text.startsWith rest ['/'] then scriptRest (.doubled 0) (rest.drop 1)
        else scriptRest (.doubled 0) rest
      else scriptRest (.doubled 0) rest
termination_by t.length
decreasing_by all_goals simp only [List.length_drop, List.length_cons]; omega

/-- What is left after the content of the raw element `name`. -/
def rawRest (name t : Text) : Text :=
  if name = "plaintext" then []
  else if name = "script" then scriptRest .plain t
  else fromEndTag name t

/-! ## The tokens -/

/-- How many bytes stand before the next tag or comment. -/
def textLength : Text → Nat
  | [] => 0
  | [_] => 1
  | b :: c :: rest =>
    if b = '<' && (Text.isLetter c || c = '/' || c = '!' || c = '?') then 0
    else textLength (c :: rest) + 1

/-- The token of a tag or comment at the start of `t`, and the rest after it. -/
def markupToken? (t : Text) : Option (TokenKind × Text) :=
  match t with
  | _ :: c :: rest =>
    if c = '/' then
      match rest with
      | [] => some (.text, [])
      | d :: more =>
        if d = '>' then some (.comment, more)
        else if Text.isLetter d then
          (tag? rest).map fun r => (.endTag r.1, r.2.1)
        else some (.comment, afterBracket rest)
    else if c = '!' then some (declaration rest)
    else if c = '?' then some (.comment, afterBracket (c :: rest))
    else (tag? (c :: rest)).map fun r => (.startTag r.1 r.2.2, r.2.1)
  | _ => none

/-- The next token and the rest after it, where `raw` names the element whose raw content comes
next. -/
def nextToken? (raw : Option Text) (t : Text) : Option (TokenKind × Text) :=
  let content := match raw with
    | none => 0
    | some name => t.length - (rawRest name t).length
  if 0 < content then some (.text, t.drop content)
  else
    let n := textLength t
    if 0 < n then some (.text, t.drop n) else markupToken? t

/-- The raw element that a token opens. -/
def rawAfter : TokenKind → Option Text
  | .startTag name _ => if rawElements.contains name then some name else none
  | _ => none

/-- The tokens of `t`. -/
def tokensFrom (raw : Option Text) (t : Text) : List Token :=
  match nextToken? raw t with
  | none => []
  | some (kind, rest) =>
    if rest.length < t.length then
      ⟨kind, t.length - rest.length⟩ :: tokensFrom (rawAfter kind) rest
    else []
termination_by t.length

/-- The tokens of an HTML text. -/
def tokens (t : Text) : List Token := tokensFrom none t

end Markup
end LiquidLint
