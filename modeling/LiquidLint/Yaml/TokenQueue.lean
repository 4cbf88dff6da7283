import LiquidLint.Yaml.Token

/-!
# The queue of tokens

Tokens are read on demand. Indentation opens and closes block collections, and a token that turns out
to start a simple key, one without a question mark, gets the tokens for the key put before it.
A token is therefore handed out only when it can no longer start such a key, and never before two
more tokens were read.
-/

namespace LiquidLint
namespace Yaml

/-- A place where a simple key may have started. -/
structure SimpleKey where
  possible : Bool := false
  /-- Whether the place must start a key, because of its indentation. -/
  required : Bool := false
  /-- The number of the token at the place, counted from the start of the stream. -/
  token : Nat := 0
  mark : Mark := {}

/-- The tokens read ahead and what is known about the place reached. -/
structure TokenQueue where
  cursor : Cursor
  started : Bool := false
  /-- The tokens that were read and not handed out. -/
  pending : List Token := []
  /-- How many tokens were handed out. -/
  taken : Nat := 0
  /-- The indentation of the innermost block collection; minus one outside of all. -/
  indent : Int := -1
  /-- The indentations of the collections around it. -/
  outer : List Int := []
  keyAllowed : Bool := true
  /-- The possible simple key of each flow level, innermost first. -/
  keys : List SimpleKey := [{}]
  /-- The numbers of the tokens that may start a key. -/
  keyTokens : List Nat := []

/-- The deepest nesting of collections. -/
def maxDepth : Nat := 10000

namespace TokenQueue

/-- How many flow collections are open. -/
def flowLevel (q : TokenQueue) : Nat := q.keys.length - 1

/-- Whether a flow collection is open. -/
def inFlow (q : TokenQueue) : Bool := 0 < q.flowLevel

/-- The problem `what` found at the cursor, of something that began at `start`. -/
def refuse {α : Type} (q : TokenQueue) (start : Mark) (what : Text) : Except Problem α :=
  .error (.lexical what start q.cursor.mark)

/-- Appends a token. -/
def append (q : TokenQueue) (kind : TokenKind) (start stop : Mark) : TokenQueue :=
  { q with pending := q.pending ++ [⟨kind, start, stop⟩] }

/-- Inserts a token without extent before the token with the number `number`. -/
def insert (q : TokenQueue) (number : Nat) (kind : TokenKind) (mark : Mark) : TokenQueue :=
  let i := number - q.taken
  { q with pending := q.pending.take i ++ ⟨kind, mark, mark⟩ :: q.pending.drop i }

/-- Appends the token of `n` characters at the cursor. -/
def appendChars (q : TokenQueue) (n : Nat) (kind : TokenKind) : TokenQueue :=
  let after := q.cursor.advance n
  { q.append kind q.cursor.mark after.mark with cursor := after }

/-! ## Simple keys -/

/-- Whether the key may still be completed: it is on the line of the cursor and not too far behind.
A key that can no longer be completed must not be required. -/
def keyIsValid (q : TokenQueue) (k : SimpleKey) : Except Problem Bool :=
  if !k.possible then .ok false
  else if k.mark.line < q.cursor.mark.line || k.mark.index + 1024 < q.cursor.mark.index then
    if k.required then q.refuse k.mark "could not find expected ':'" else .ok false
  else .ok true

/-- Gives up the possible key of the innermost flow level. -/
def removeKey (q : TokenQueue) : Except Problem TokenQueue :=
  match q.keys with
  | [] => .ok q
  | k :: more =>
    if k.possible then
      if k.required then q.refuse k.mark "could not find expected ':'"
      else .ok { q with
        keys := { k with possible := false } :: more
        keyTokens := q.keyTokens.filter (· ≠ k.token) }
    else .ok q

/-- Notes that a key may start at the cursor. -/
def saveKey (q : TokenQueue) : Except Problem TokenQueue :=
  if q.keyAllowed then do
    let number := q.taken + q.pending.length
    let q ← q.removeKey
    return { q with
      keys :=
        { possible := true
          required := !q.inFlow && q.indent = q.cursor.mark.column
          token := number
          mark := q.cursor.mark } :: q.keys.drop 1
      keyTokens := number :: q.keyTokens }
  else .ok q

/-! ## Indentation -/

/-- Opens a block collection at `column` when this is deeper than the innermost one. -/
def rollIndent (q : TokenQueue) (column : Nat) (number : Nat) (kind : TokenKind) (mark : Mark) :
    Except Problem TokenQueue :=
  if q.inFlow then .ok q
  else if q.indent < column then
    if maxDepth ≤ q.outer.length then
      q.refuse ((q.keys.head?.map (·.mark)).getD {}) ("exceeded max depth of " ++ Text.ofNat maxDepth)
    else .ok ({ q with outer := q.indent :: q.outer, indent := column }.insert number kind mark)
  else .ok q

/-- The number of the next token. -/
def nextNumber (q : TokenQueue) : Nat := q.taken + q.pending.length

/-- Closes the block collections whose indentation is not among those left open. -/
def unrollIndents (q : TokenQueue) (column : Int) (mark : Mark) : (outer : List Int) → TokenQueue
  | [] => q
  | below :: more =>
    if column < q.indent then
      { q.append .blockEnd mark mark with indent := below, outer := more }.unrollIndents column mark
        more
    else q

/-- Closes the block collections deeper than `column`. -/
def unrollIndent (q : TokenQueue) (column : Int) (mark : Mark) : TokenQueue :=
  if q.inFlow then q else q.unrollIndents column mark q.outer

/-! ## White space and comments -/

/-- Passes `n` characters of white space. -/
def passSpace : (n : Nat) → Cursor → Cursor
  | 0, c => c
  | n + 1, c =>
    match c.rest with
    | [] => c
    | '\r' :: '\n' :: _ => passSpace (n - 1) c.passBreak
    | d :: _ => passSpace n (if isBreak d then c.passBreak else c.advance 1)
termination_by n => n

/-- Passes a comment and the comments on the following lines that only white space separates. -/
def passComments : (fuel : Nat) → Cursor → Cursor
  | 0, c => c
  | fuel + 1, c =>
    let c := c.passWhile (!isBreak ·)
    let gap := c.rest.takeWhile fun d => isBlank d || isBreak d
    if gap.length < 512 && (c.rest.drop gap.length).head? = some '#' then
      passComments fuel (passSpace gap.length c)
    else c

/-- Passes white space and comments up to the next token. A line break in block context allows a
simple key. -/
def toNextToken : (fuel : Nat) → TokenQueue → TokenQueue
  | 0, q => q
  | fuel + 1, q =>
    let c := q.cursor
    let c := if c.mark.column = 0 && c.rest.head?.any (·.toNat = 0xFEFF) then c.advance 1 else c
    let c := c.passWhile fun d => d = ' ' || (d = '\t' && (q.inFlow || !q.keyAllowed))
    let c := if c.rest.head? = some '#' then passComments c.rest.length c else c
    if c.rest.head?.any isBreak then
      toNextToken fuel { q with cursor := c.passBreak, keyAllowed := q.keyAllowed || !q.inFlow }
    else { q with cursor := c }

/-- Passes a comment on the line of the token just read. -/
def passLineComment (q : TokenQueue) : TokenQueue :=
  if 0 < q.cursor.newlines || (q.pending.getLast?.any fun t => t.kind = .blockEntry) then q
  else
    let blanks := q.cursor.rest.takeWhile isBlank
    if blanks.length < 512 && (q.cursor.rest.drop blanks.length).head? = some '#' then
      { q with cursor := q.cursor.passWhile (!isBreak ·) }
    else q

/-! ## Single tokens -/

/-- The end of the stream: it lies on a line of its own. -/
def fetchStreamEnd (q : TokenQueue) : Except Problem TokenQueue := do
  let m := q.cursor.mark
  let m := if m.column = 0 then m else { m with column := 0, line := m.line + 1 }
  let q := { q with cursor := { q.cursor with mark := m } }.unrollIndent (-1) m
  let q ← q.removeKey
  return { q.append .streamEnd m m with keyAllowed := false }

/-- A directive or document mark: all block collections end before it. -/
def beforeDocument (q : TokenQueue) : Except Problem TokenQueue := do
  let q ← (q.unrollIndent (-1) q.cursor.mark).removeKey
  return { q with keyAllowed := false }

/-- Appends the token that a reader finds at the cursor. -/
def readToken (q : TokenQueue) (reader : Cursor → Token.Reading) : Except Problem TokenQueue := do
  let r ← reader q.cursor
  return { q.append r.1 q.cursor.mark r.2.mark with cursor := r.2 }

/-- `[` or an opening brace. -/
def fetchFlowStart (q : TokenQueue) (kind : TokenKind) : Except Problem TokenQueue := do
  let q ← q.saveKey
  let q := { q with keys := { token := q.nextNumber, mark := q.cursor.mark } :: q.keys }
  if maxDepth < q.flowLevel then
    q.refuse q.cursor.mark ("exceeded max depth of " ++ Text.ofNat maxDepth)
  else return { q with keyAllowed := true }.appendChars 1 kind

/-- `]` or a closing brace. -/
def fetchFlowEnd (q : TokenQueue) (kind : TokenKind) : Except Problem TokenQueue := do
  let q ← q.removeKey
  let q := match q.keys with
    | k :: below :: more =>
      { q with keys := below :: more, keyTokens := q.keyTokens.filter (· ≠ k.token) }
    | _ => q
  return { q with keyAllowed := false }.appendChars 1 kind

/-- A comma between entries. -/
def fetchFlowEntry (q : TokenQueue) : Except Problem TokenQueue := do
  let q ← q.removeKey
  return { q with keyAllowed := true }.appendChars 1 .flowEntry

/-- The dash of a sequence entry. -/
def fetchBlockEntry (q : TokenQueue) : Except Problem TokenQueue := do
  let m := q.cursor.mark
  if !q.inFlow && !q.keyAllowed then
    q.refuse m "block sequence entries are not allowed in this context"
  else do
    let q ← q.rollIndent m.column q.nextNumber .blockSequenceStart m
    let q ← q.removeKey
    return { q with keyAllowed := true }.appendChars 1 .blockEntry

/-- The question mark of a key. -/
def fetchKey (q : TokenQueue) : Except Problem TokenQueue := do
  let m := q.cursor.mark
  if !q.inFlow && !q.keyAllowed then q.refuse m "mapping keys are not allowed in this context"
  else do
    let q ← q.rollIndent m.column q.nextNumber .blockMappingStart m
    let q ← q.removeKey
    return { q with keyAllowed := !q.inFlow }.appendChars 1 .key

/-- The colon of a value, after a simple key or another one. -/
def fetchValue (q : TokenQueue) : Except Problem TokenQueue := do
  let k := q.keys.headD {}
  if ← q.keyIsValid k then do
    let q := q.insert k.token .key k.mark
    let q ← q.rollIndent k.mark.column k.token .blockMappingStart k.mark
    return { q with
      keys := { k with possible := false } :: q.keys.drop 1
      keyTokens := q.keyTokens.filter (· ≠ k.token)
      keyAllowed := false }.appendChars 1 .value
  else do
    let q := { q with keys := (if k.possible then { k with possible := false } else k) :: q.keys.drop 1 }
    let m := q.cursor.mark
    if !q.inFlow && !q.keyAllowed then
      q.refuse m "mapping values are not allowed in this context"
    else do
      let q ← q.rollIndent m.column q.nextNumber .blockMappingStart m
      return { q with keyAllowed := !q.inFlow }.appendChars 1 .value

/-- A plain scalar. -/
def fetchPlain (q : TokenQueue) : Except Problem TokenQueue := do
  let q ← q.saveKey
  let start := q.cursor.mark
  let r ← Token.plainBody start q.inFlow (q.indent + 1).toNat (q.cursor.rest.length + 1) [] start {}
    q.cursor
  return { q.append (.scalar r.1 .plain) start r.2.1 with
    cursor := r.2.2.2, keyAllowed := r.2.2.1 }

/-- A token after which no simple key may start, and which may start one itself. -/
def fetchAfterKey (q : TokenQueue) (reader : Cursor → Token.Reading) :
    Except Problem TokenQueue := do
  let q ← q.saveKey
  { q with keyAllowed := false }.readToken reader

/-- A block scalar. -/
def fetchBlockScalar (q : TokenQueue) (folded : Bool) : Except Problem TokenQueue := do
  let q ← q.removeKey
  { q with keyAllowed := true }.readToken (Token.blockScalar folded q.indent)

/-- Whether a plain scalar may start with the characters `rest`. -/
def startsPlain (inFlow : Bool) (rest : List Char) : Bool :=
  match rest with
  | [] => false
  | c :: more =>
    !(isBlank c || isBreak c || "-?:,[]\x7b\x7d#&*!|>'\"%@`".toList.contains c) ||
      (c = '-' && !(more.head?.any isBlank)) ||
      (!inFlow && (c = '?' || c = ':') && !blankNext more)

/-- Reads one of the tokens that a comment may follow on the same line. -/
def fetchContent (q : TokenQueue) : Except Problem TokenQueue :=
  match q.cursor.rest with
  | [] => q.fetchStreamEnd
  | c :: more =>
    if c = '[' then q.fetchFlowStart .flowSequenceStart
    else if c = '\x7b' then q.fetchFlowStart .flowMappingStart
    else if c = ']' then q.fetchFlowEnd .flowSequenceEnd
    else if c = '\x7d' then q.fetchFlowEnd .flowMappingEnd
    else if c = ',' then q.fetchFlowEntry
    else if c = '-' && blankNext more then q.fetchBlockEntry
    else if c = '?' && (q.inFlow || blankNext more) then q.fetchKey
    else if c = ':' && (q.inFlow || blankNext more) then q.fetchValue
    else if c = '*' then
      q.fetchAfterKey fun c => (Token.anchorName c).map fun r => (.alias r.1, r.2)
    else if c = '&' then
      q.fetchAfterKey fun c => (Token.anchorName c).map fun r => (.anchor r.1, r.2)
    else if c = '!' then q.fetchAfterKey Token.tag
    else if c = '|' && !q.inFlow then q.fetchBlockScalar false
    else if c = '>' && !q.inFlow then q.fetchBlockScalar true
    else if c = '\'' then q.fetchAfterKey (Token.quotedScalar true)
    else if c = '"' then q.fetchAfterKey (Token.quotedScalar false)
    else if startsPlain q.inFlow (c :: more) then q.fetchPlain
    else q.refuse q.cursor.mark "found character that cannot start any token"

/-- Reads the next token. -/
def fetch (q : TokenQueue) : Except Problem TokenQueue := do
  q.cursor.need 1
  if !q.started then
    return { q.append .streamStart q.cursor.mark q.cursor.mark with started := true }
  else do
    let before := q.cursor.mark
    let q := toNextToken (q.cursor.rest.length + 1) q
    q.cursor.need 1
    let q := q.unrollIndent q.cursor.mark.column before
    q.cursor.need 4
    if q.cursor.rest.isEmpty then q.fetchStreamEnd
    else if q.cursor.mark.column = 0 && q.cursor.rest.head? = some '%' then do
      let q ← q.beforeDocument
      q.readToken Token.directive
    else if q.cursor.mark.column = 0 && markNext '-' q.cursor.rest then do
      let q ← q.beforeDocument
      return q.appendChars 3 .documentStart
    else if q.cursor.mark.column = 0 && markNext '.' q.cursor.rest then do
      let q ← q.beforeDocument
      return q.appendChars 3 .documentEnd
    else do
      let q ← q.fetchContent
      return q.passLineComment

/-- Whether the first pending token may still turn out to start a simple key. -/
def headMayBeKey (q : TokenQueue) : Except Problem Bool :=
  if q.keyTokens.contains q.taken then
    match q.keys.find? fun k => k.token = q.taken && k.possible with
    | none => .ok false
    | some k => q.keyIsValid k
  else .ok false

/-- Reads tokens until the first pending one can be handed out; `fuel` bounds their number. -/
def fill : (fuel : Nat) → TokenQueue → Except Problem TokenQueue
  | 0, q => .ok q
  | fuel + 1, q => do
    let ready ← if 2 < q.pending.length then do
        let may ← q.headMayBeKey
        pure !may
      else pure false
    if ready then return q
    else do
      let q ← q.fetch
      fill fuel q

/-- The next token, which stays in the queue. -/
def peek (q : TokenQueue) : Except Problem (Token × TokenQueue) := do
  let q ← q.fill (q.cursor.rest.length + 8)
  return (q.pending.headD ⟨.streamEnd, q.cursor.mark, q.cursor.mark⟩, q)

/-- Takes the first token out of the queue. -/
def skip (q : TokenQueue) : TokenQueue :=
  { q with pending := q.pending.drop 1, taken := q.taken + 1 }

end TokenQueue

end Yaml
end LiquidLint
