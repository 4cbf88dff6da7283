import LiquidLint.Text.Blank

/-!
# Tokens of a template

A template is cut into text, variables (`{{ … }}`) and tags (`{% … %}`). An opener without a closer
before the next opener is text as well, marked as such. The bodies of `raw` and `comment` tags are
one text each. Every byte of the source belongs to exactly one token, in order.
-/

namespace LiquidLint
namespace Liquid

/-- The two pairs of delimiters. -/
inductive Delimiter where
  | variable
  | tag
deriving DecidableEq

namespace Delimiter

/-- The byte after the brace of the opener, which is also the byte before the brace of the closer. -/
def mark : Delimiter → UInt8
  | .variable => '{'
  | .tag => '%'

/-- The two bytes that open. -/
def opener (d : Delimiter) : Text := ['{', d.mark]

/-- The byte that the closer starts with. -/
def closeMark : Delimiter → UInt8
  | .variable => '}'
  | .tag => '%'

end Delimiter

/-- What a token is. -/
inductive TokenKind where
  /-- Plain text. -/
  | text
  /-- An opener without a closer, and the text up to the next opener. -/
  | unterminated (d : Delimiter)
  /-- A variable. -/
  | variable
  /-- A tag. -/
  | tag
deriving DecidableEq

/-- A piece of a template with the offsets of its first byte and of the byte after its last one. -/
structure Token where
  kind : TokenKind
  start : Nat
  stop : Nat
  /-- The tag name; empty for other kinds. -/
  name : Text := []
  /-- The text itself, the expression of a variable, or what follows a tag name, without white
  space around it. -/
  markup : Text
  /-- Where `markup` stands in the source. -/
  markupStart : Nat
  /-- A dash after the opener. -/
  trimLeft : Bool := false
  /-- A dash before the closer. -/
  trimRight : Bool := false
  /-- The tag is a line of a `liquid` tag. -/
  inLiquid : Bool := false

/-! ## Openers and closers -/

/-- The delimiter that `t` starts with, and what follows it. -/
def opener? : Text → Option (Delimiter × Text)
  | a :: b :: rest =>
    if a = '{' then
      if b = '{' then some (.variable, rest)
      else if b = '%' then some (.tag, rest)
      else none
    else none
  | _ => none

/-- The text before the first opener, and the rest, which starts with it or is empty. -/
def untilOpener : Text → Text × Text
  | [] => ([], [])
  | b :: rest =>
    if (opener? (b :: rest)).isSome then ([], b :: rest)
    else (b :: (untilOpener rest).1, (untilOpener rest).2)

/-- The text before the closer of `d` and the rest after it, unless an opener or the end of the
input comes first. -/
def untilCloser (d : Delimiter) : Text → Option (Text × Text)
  | a :: b :: rest =>
    if a = d.closeMark ∧ b = '}' then some ([], rest)
    else if (opener? (a :: b :: rest)).isSome then none
    else (untilCloser d (b :: rest)).map fun p => (a :: p.1, p.2)
  | _ => none

/-! ## Inside a tag -/

/-- How many ASCII blanks `t` starts with. -/
def leadingBlanks (t : Text) : Nat := t.length - (Text.trimLeft Text.isAsciiBlank t).length

/-- The name of a tag, the markup after it and the offset of that markup. A `#` is a name by itself;
any other name ends at the first ASCII blank. -/
def splitTag (markup : Text) (start : Nat) : Text × Text × Nat :=
  match markup with
  | [] => ([], [], start)
  | b :: rest =>
    if b = '#' then (['#'], Text.trimSpace rest, start + 1 + leadingBlanks rest)
    else
      let name := markup.takeWhile (fun b => !Text.isAsciiBlank b)
      let more := markup.dropWhile (fun b => !Text.isAsciiBlank b)
      (name, Text.trimSpace more, start + name.length + leadingBlanks more)

/-- The token of the delimiters `d` at `start` around `inner`. A dash at either end of `inner` is a
white-space control mark; a lone dash is the left one. -/
def Token.delimited (d : Delimiter) (start : Nat) (inner : Text) : Token :=
  let left := inner.head? = some '-'
  let afterLeft := if left then inner.tail else inner
  let right := afterLeft.getLast? = some '-'
  let body := if right then afterLeft.dropLast else afterLeft
  let bodyStart := if left then start + 3 else start + 2
  let markup := Text.trimSpace body
  let markupStart := bodyStart + leadingBlanks body
  let stop := start + inner.length + 4
  match d with
  | .variable =>
    { kind := .variable, start, stop, markup, markupStart, trimLeft := left, trimRight := right }
  | .tag =>
    let parts := splitTag markup markupStart
    { kind := .tag, start, stop, name := parts.1, markup := parts.2.1, markupStart := parts.2.2,
      trimLeft := left, trimRight := right }

/-! ## Verbatim bodies -/

/-- Drops one dash. -/
def dropDash : Text → Text
  | [] => []
  | b :: rest => if b = '-' then rest else b :: rest

/-- The name of the tag that `t` starts with, when nothing but dashes and white space stands around
the name. -/
def bareTag? (t : Text) : Option Text :=
  match Text.dropStart? Delimiter.tag.opener t with
  | none => none
  | some t =>
    let t := (dropDash t).dropWhile Text.isTagBlank
    let name := t.takeWhile Text.isLower
    let t := dropDash ((t.dropWhile Text.isLower).dropWhile Text.isTagBlank)
    if Text.startsWith t ['%', '}'] then some name else none

/-- The text before the first bare `endraw` tag, or all of it. -/
def rawBody : Text → Text
  | [] => []
  | b :: rest => if bareTag? (b :: rest) = some "endraw" then [] else b :: rawBody rest

/-- The text before the bare `endcomment` tag that leaves `depth` nested comments behind, or all of
it. -/
def commentBody : (depth : Nat) → Text → Text
  | _, [] => []
  | depth, b :: rest =>
    if bareTag? (b :: rest) = some "comment" then b :: commentBody (depth + 1) rest
    else if bareTag? (b :: rest) = some "endcomment" then
      match depth with
      | 0 => []
      | depth + 1 => b :: commentBody depth rest
    else b :: commentBody depth rest

/-- The verbatim body at the start of `rest`, after the token `tok`; empty after most tokens. -/
def verbatimBody (tok : Token) (rest : Text) : Text :=
  if tok.kind = .tag then
    if tok.name = "raw" then rawBody rest
    else if tok.name = "comment" then commentBody 0 rest
    else []
  else []

/-! ## Lengths -/

theorem length_opener? {t body : Text} {d : Delimiter} (h : opener? t = some (d, body)) :
    t.length = body.length + 2 := by
  unfold opener? at h
  split at h
  · repeat' split at h
    all_goals simp_all
  · simp at h

theorem length_untilOpener (t : Text) :
    t.length = (untilOpener t).1.length + (untilOpener t).2.length := by
  induction t with
  | nil => rfl
  | cons b rest ih =>
    simp only [untilOpener]
    split
    · simp
    · simp only [List.length_cons]
      omega

theorem length_untilCloser {d : Delimiter} {t inner rest : Text}
    (h : untilCloser d t = some (inner, rest)) : t.length = inner.length + rest.length + 2 := by
  fun_induction untilCloser d t generalizing inner rest with
  | case1 a b more hclose => simp_all
  | case2 => simp at h
  | case3 a b more hclose hopen ih =>
    obtain ⟨⟨inner', rest'⟩, hq, hp⟩ := Option.map_eq_some_iff.1 h
    have := ih hq
    simp only [Prod.mk.injEq] at hp
    obtain ⟨rfl, rfl⟩ := hp
    simp only [List.length_cons] at *
    omega
  | case4 => simp at h

/-! ## The tokens -/

/-- A text token, or nothing for no text. -/
def textTokens (start : Nat) (t : Text) : List Token :=
  if t.isEmpty then []
  else [{ kind := .text, start, stop := start + t.length, markup := t, markupStart := start }]

/-- The tokens of `src`, whose first byte has the offset `start`. -/
def tokensFrom (start : Nat) (src : Text) : List Token :=
  let before := (untilOpener src).1
  let openAt := start + before.length
  textTokens start before ++
    match _hOpen : opener? (untilOpener src).2 with
    | none => []
    | some (d, body) =>
      match _hClose : untilCloser d body with
      | none =>
        let junk := (untilOpener body).1
        let stop := openAt + 2 + junk.length
        { kind := .unterminated d, start := openAt, stop, markup := d.opener ++ junk,
          markupStart := openAt } :: tokensFrom stop (untilOpener body).2
      | some (inner, rest) =>
        let tok := Token.delimited d openAt inner
        let body := verbatimBody tok rest
        tok :: (textTokens tok.stop body ++
          tokensFrom (tok.stop + body.length) (rest.drop body.length))
termination_by src.length
decreasing_by
  · have h1 := length_untilOpener src
    have h2 := length_opener? _hOpen
    have h3 := length_untilOpener body
    omega
  · have h1 := length_untilOpener src
    have h2 := length_opener? _hOpen
    have h3 := length_untilCloser _hClose
    simp only [List.length_drop]
    omega

/-- The tokens of a template. -/
def tokens (src : Text) : List Token := tokensFrom 0 src

/-! ## Lines of a `liquid` tag -/

/-- The tag tokens of `lines`, the first of which stands at the offset `start`; blank lines have
none. -/
def lineTokens (start : Nat) : List Text → List Token
  | [] => []
  | line :: rest =>
    let trimmed := Text.trimSpace line
    let more := lineTokens (start + line.length) rest
    if trimmed.isEmpty then more
    else
      let first := start + leadingBlanks line
      let parts := splitTag trimmed first
      { kind := .tag, start := first, stop := first + trimmed.length, name := parts.1,
        markup := parts.2.1, markupStart := parts.2.2, inLiquid := true } :: more

/-- One tag token for each line of the markup of a `liquid` tag that is not blank. -/
def liquidLines (markup : Text) (start : Nat) : List Token :=
  lineTokens start (Text.linesWithEnds markup)

/-- An upper bound on the work that a list of tokens stands for. -/
def weight (toks : List Token) : Nat := sumOf (toks.map fun tok => tok.markup.length + 1)

theorem length_splitTag_lt {b : UInt8} {t : Text} (start : Nat) (hb : Text.isAsciiBlank b = false) :
    (splitTag (b :: t) start).2.1.length < (b :: t).length := by
  simp only [splitTag]
  split
  · have := Text.length_trimSpace_le t
    simp only [List.length_cons]
    omega
  · have h := Text.length_trimSpace_le ((b :: t).dropWhile fun b => !Text.isAsciiBlank b)
    have h' : ((b :: t).dropWhile fun b => !Text.isAsciiBlank b).length ≤ t.length := by
      simp only [List.dropWhile_cons, hb]
      exact (List.dropWhile_sublist _).length_le
    simp only [List.length_cons]
    omega

theorem sumOf_length_linesWithEnds (t : Text) :
    sumOf ((Text.linesWithEnds t).map List.length) = t.length := by
  induction t with
  | nil => rfl
  | cons b rest ih =>
    simp only [Text.linesWithEnds]
    split
    · simp only [List.map_cons, sumOf_cons, ih, List.length_cons, List.length_nil]
      omega
    · split
      · rename_i h
        simp_all
      · rename_i h
        simp only [h, List.map_cons, sumOf_cons, List.length_cons] at *
        omega

theorem weight_lineTokens_le (start : Nat) (lines : List Text) :
    weight (lineTokens start lines) ≤ sumOf (lines.map List.length) := by
  induction lines generalizing start with
  | nil => simp [lineTokens, weight]
  | cons line rest ih =>
    have hrest := ih (start + line.length)
    simp only [lineTokens, List.map_cons, sumOf_cons]
    split
    · omega
    · rename_i hne
      have hle := Text.length_trimSpace_le line
      cases htrim : Text.trimSpace line with
      | nil => simp [htrim] at hne
      | cons b t =>
        have hlt := length_splitTag_lt (t := t) (start + leadingBlanks line)
          (Text.isAsciiBlank_of_trimSpace htrim)
        simp only [htrim] at hle
        simp only [weight, List.map_cons, sumOf_cons] at *
        omega

/-- The lines of a tag stand for less work than the tag itself. -/
theorem weight_liquidLines_le (markup : Text) (start : Nat) :
    weight (liquidLines markup start) ≤ markup.length := by
  have h := weight_lineTokens_le start (Text.linesWithEnds markup)
  rw [sumOf_length_linesWithEnds] at h
  exact h

end Liquid
end LiquidLint
