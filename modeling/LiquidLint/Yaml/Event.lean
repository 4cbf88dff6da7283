import LiquidLint.Yaml.TokenQueue

/-!
# Events of a YAML stream

The tokens of a stream, read as the starts and ends of documents and collections with the scalars
and aliases between them. An `EventReader` knows what it waits for; `next` gives one event.
-/

namespace LiquidLint
namespace Yaml

/-- What an event is. -/
inductive EventKind where
  | streamEnd
  | documentStart
  | documentEnd
  | alias (name : List Char)
  | scalar (anchor tag value : List Char) (style : ScalarStyle)
  | sequenceStart (anchor tag : List Char)
  | sequenceEnd
  | mappingStart (anchor tag : List Char)
  | mappingEnd
deriving DecidableEq

/-- An event and where it starts. -/
structure Event where
  kind : EventKind
  start : Mark
deriving DecidableEq

/-- What a reader waits for. -/
inductive Expectation where
  | streamStart
  | firstDocument
  | document
  | documentContent
  | documentEnd
  | blockNode
  | blockSequenceEntry (first : Bool)
  | indentlessEntry
  | blockMappingKey (first : Bool)
  | blockMappingValue
  | flowSequenceEntry (first : Bool)
  | flowPairKey
  | flowPairValue
  | flowPairEnd
  | flowMappingKey (first : Bool)
  | flowMappingValue (empty : Bool)
  | nothing
deriving DecidableEq

/-- The handles that stand for the start of a tag, and that start. -/
abbrev TagHandles := List (List Char × List Char)

/-- The handles of every document. -/
def defaultHandles : TagHandles :=
  [(['!'], ['!']), (['!', '!'], "tag:yaml.org,2002:".toList)]

/-- A reader of events. -/
structure EventReader where
  queue : TokenQueue
  expect : Expectation := .streamStart
  /-- What comes after the node that is being read, innermost first. -/
  after : List Expectation := []
  /-- Where the open collections began, innermost first. -/
  opened : List Mark := []
  handles : TagHandles := []

namespace EventReader

/-- What one step gives. -/
abbrev Step := Except Problem (Event × EventReader)

/-- The next token, which is not taken. -/
def peek (r : EventReader) : Except Problem (Token × EventReader) := do
  let t ← r.queue.peek
  return (t.1, { r with queue := t.2 })

/-- Takes the next token. -/
def skip (r : EventReader) : EventReader := { r with queue := r.queue.skip }

/-- Goes on with what comes after the node. -/
def pop (r : EventReader) : EventReader :=
  { r with expect := r.after.headD .nothing, after := r.after.drop 1 }

/-- Forgets where the innermost collection began. -/
def leave (r : EventReader) : EventReader := { r with opened := r.opened.drop 1 }

/-- The event of an empty plain scalar. -/
def emptyScalar (m : Mark) : Event := ⟨.scalar [] [] [] .plain, m⟩

/-- The problem `what` at `place` in the innermost collection. -/
def refuse (r : EventReader) (what : Text) (place : Mark) : Step :=
  .error (.shape what (r.opened.headD {}) place)

/-! ## Nodes -/

/-- The anchor and tag in front of a node. -/
structure Properties where
  anchor : List Char := []
  tag : Option (List Char × List Char × Mark) := none

/-- Reads an anchor and a tag in either order. -/
def properties (r : EventReader) : Except Problem (Properties × EventReader) := do
  let t ← r.peek
  match t.1.kind with
  | .anchor a => do
    let u ← t.2.skip.peek
    match u.1.kind with
    | .tag h s => return ({ anchor := a, tag := some (h, s, u.1.start) }, u.2.skip)
    | _ => return ({ anchor := a }, u.2)
  | .tag h s => do
    let u ← t.2.skip.peek
    match u.1.kind with
    | .anchor a => return ({ anchor := a, tag := some (h, s, t.1.start) }, u.2.skip)
    | _ => return ({ tag := some (h, s, t.1.start) }, u.2)
  | _ => return ({}, t.2)

/-- The full tag of a node that starts at `start`. -/
def fullTag (r : EventReader) (start : Mark) (p : Properties) : Except Problem (List Char) :=
  match p.tag with
  | none => .ok []
  | some (handle, suffix, place) =>
    if handle.isEmpty then .ok suffix
    else match r.handles.lookup handle with
      | some head =>
        if (head ++ suffix).isEmpty then .error (.shape "found undefined tag handle" start place)
        else .ok (head ++ suffix)
      | none => .error (.shape "found undefined tag handle" start place)

/-- Reads a node: all of a scalar or alias, or the start of a collection. -/
def node (r : EventReader) (block indentless : Bool) : Step := do
  let first ← r.peek
  let start := first.1.start
  match first.1.kind with
  | .alias name => return (⟨.alias name, start⟩, first.2.skip.pop)
  | _ => do
    let p ← first.2.properties
    let t ← p.2.peek
    let r := t.2
    let anchor := p.1.anchor
    let tag ← r.fullTag start p.1
    let enter (kind : EventKind) (expect : Expectation) : Step :=
      .ok (⟨kind, start⟩, { r with expect })
    if indentless && t.1.kind = .blockEntry then
      enter (.sequenceStart anchor tag) .indentlessEntry
    else match t.1.kind with
      | .scalar value style => return (⟨.scalar anchor tag value style, start⟩, r.skip.pop)
      | .flowSequenceStart => enter (.sequenceStart anchor tag) (.flowSequenceEntry true)
      | .flowMappingStart => enter (.mappingStart anchor tag) (.flowMappingKey true)
      | kind =>
        if block && kind = .blockSequenceStart then
          enter (.sequenceStart anchor tag) (.blockSequenceEntry true)
        else if block && kind = .blockMappingStart then
          enter (.mappingStart anchor tag) (.blockMappingKey true)
        else if !anchor.isEmpty || !tag.isEmpty then
          return (⟨.scalar anchor tag [] .plain, start⟩, r.pop)
        else .error (.shape "did not find expected node content" start t.1.start)

/-- Reads a node and goes on with `next`. -/
def nodeThen (r : EventReader) (next : Expectation) (block indentless : Bool) : Step :=
  { r with after := next :: r.after }.node block indentless

/-- Gives an empty scalar at `m` and goes on with `next`. -/
def emptyThen (r : EventReader) (next : Expectation) (m : Mark) : Step :=
  .ok (emptyScalar m, { r with expect := next })

/-! ## Documents -/

/-- Adds the handles of the directives before a document; `fuel` bounds their number. -/
def directives (seenVersion : Bool) : (fuel : Nat) → EventReader → Except Problem EventReader
  | 0, r => .ok r
  | fuel + 1, r => do
    let t ← r.peek
    match t.1.kind with
    | .versionDirective major minor =>
      if seenVersion then .error (.shape "found duplicate %YAML directive" {} t.1.start)
      else if major ≠ 1 || minor ≠ 1 then
        .error (.shape "found incompatible YAML document" {} t.1.start)
      else directives true fuel t.2.skip
    | .tagDirective handle start =>
      if (t.2.handles.lookup handle).isSome then
        .error (.shape "found duplicate %TAG directive" {} t.1.start)
      else
        let r := { t.2.skip with handles := t.2.handles ++ [(handle, start)] }
        directives seenVersion fuel r
    | _ => return { t.2 with
      handles := t.2.handles ++
        defaultHandles.filter fun h => (t.2.handles.lookup h.1).isNone }

/-- Passes marks that end documents; `fuel` bounds their number. -/
def passDocumentEnds : (fuel : Nat) → EventReader → Except Problem EventReader
  | 0, r => .ok r
  | fuel + 1, r => do
    let t ← r.peek
    if t.1.kind = .documentEnd then passDocumentEnds fuel t.2.skip else return t.2

/-- Whether a token of this kind ends an implicit document before it starts. -/
def isDocumentToken : TokenKind → Bool
  | .versionDirective .. | .tagDirective .. | .documentStart | .streamEnd => true
  | _ => false

/-- The start of a document or the end of the stream. Only the first document may start without a
mark. -/
def documentStart (r : EventReader) (first : Bool) : Step := do
  let fuel := r.queue.cursor.rest.length + r.queue.pending.length + 8
  let r ← if first then pure r else passDocumentEnds fuel r
  let t ← r.peek
  let r := t.2
  if first && !isDocumentToken t.1.kind then do
    let r ← directives false fuel r
    return (⟨.documentStart, t.1.start⟩,
      { r with after := .documentEnd :: r.after, expect := .blockNode })
  else if t.1.kind ≠ .streamEnd then do
    let r ← directives false fuel r
    let u ← r.peek
    if u.1.kind ≠ .documentStart then
      .error (.shape "did not find expected <document start>" {} u.1.start)
    else return (⟨.documentStart, t.1.start⟩,
      { u.2.skip with after := .documentEnd :: u.2.after, expect := .documentContent })
  else return (⟨.streamEnd, t.1.start⟩, { r.skip with expect := .nothing })

/-! ## Collections -/

/-- Notes where a collection began and takes its first token. -/
def enter (r : EventReader) (first : Bool) : Except Problem EventReader := do
  if first then do
    let t ← r.peek
    return { t.2.skip with opened := t.1.start :: t.2.opened }
  else return r

/-- The next entry of a sequence in block style. -/
def blockSequenceEntry (r : EventReader) (first : Bool) : Step := do
  let r ← r.enter first
  let t ← r.peek
  match t.1.kind with
  | .blockEntry => do
    let u ← t.2.skip.peek
    if u.1.kind ≠ .blockEntry && u.1.kind ≠ .blockEnd then
      u.2.nodeThen (.blockSequenceEntry false) true false
    else u.2.emptyThen (.blockSequenceEntry false) t.1.stop
  | .blockEnd => return (⟨.sequenceEnd, t.1.start⟩, t.2.skip.pop.leave)
  | _ => t.2.refuse "did not find expected '-' indicator" t.1.start

/-- The next entry of a sequence that is not indented below its key. -/
def indentlessEntry (r : EventReader) : Step := do
  let t ← r.peek
  if t.1.kind = .blockEntry then do
    let u ← t.2.skip.peek
    if [.blockEntry, .key, .value, .blockEnd].contains u.1.kind then
      u.2.emptyThen .indentlessEntry t.1.stop
    else u.2.nodeThen .indentlessEntry true false
  else return (⟨.sequenceEnd, t.1.start⟩, t.2.pop)

/-- The next key of a mapping in block style. -/
def blockMappingKey (r : EventReader) (first : Bool) : Step := do
  let r ← r.enter first
  let t ← r.peek
  match t.1.kind with
  | .key => do
    let u ← t.2.skip.peek
    if [.key, .value, .blockEnd].contains u.1.kind then
      u.2.emptyThen .blockMappingValue t.1.stop
    else u.2.nodeThen .blockMappingValue true true
  | .blockEnd => return (⟨.mappingEnd, t.1.start⟩, t.2.skip.pop.leave)
  | _ => t.2.refuse "did not find expected key" t.1.start

/-- The value of a key in block style. -/
def blockMappingValue (r : EventReader) : Step := do
  let t ← r.peek
  if t.1.kind = .value then do
    let u ← t.2.skip.peek
    if [.key, .value, .blockEnd].contains u.1.kind then
      u.2.emptyThen (.blockMappingKey false) t.1.stop
    else u.2.nodeThen (.blockMappingKey false) true true
  else t.2.emptyThen (.blockMappingKey false) t.1.start

/-- The next entry of a sequence in brackets. -/
def flowSequenceEntry (r : EventReader) (first : Bool) : Step := do
  let r ← r.enter first
  let t ← r.peek
  let close (t : Token × EventReader) : Step :=
    .ok (⟨.sequenceEnd, t.1.start⟩, t.2.skip.pop.leave)
  if t.1.kind = .flowSequenceEnd then close t
  else if !first && t.1.kind ≠ .flowEntry then
    t.2.refuse "did not find expected ',' or ']'" t.1.start
  else do
    let u ← if first then pure t else t.2.skip.peek
    if u.1.kind = .key then
      return (⟨.mappingStart [] [], u.1.start⟩, { u.2.skip with expect := .flowPairKey })
    else if u.1.kind = .flowSequenceEnd then close u
    else u.2.nodeThen (.flowSequenceEntry false) false false

/-- The key of a single pair inside brackets. -/
def flowPairKey (r : EventReader) : Step := do
  let t ← r.peek
  if [.value, .flowEntry, .flowSequenceEnd].contains t.1.kind then
    t.2.skip.emptyThen .flowPairValue t.1.stop
  else t.2.nodeThen .flowPairValue false false

/-- The value of a single pair inside brackets. -/
def flowPairValue (r : EventReader) : Step := do
  let t ← r.peek
  if t.1.kind = .value then do
    let u ← t.2.skip.peek
    if [.flowEntry, .flowSequenceEnd].contains u.1.kind then u.2.emptyThen .flowPairEnd t.1.start
    else u.2.nodeThen .flowPairEnd false false
  else t.2.emptyThen .flowPairEnd t.1.start

/-- The next key of a mapping in braces. -/
def flowMappingKey (r : EventReader) (first : Bool) : Step := do
  let r ← r.enter first
  let t ← r.peek
  let close (t : Token × EventReader) : Step :=
    .ok (⟨.mappingEnd, t.1.start⟩, t.2.skip.pop.leave)
  if t.1.kind = .flowMappingEnd then close t
  else if !first && t.1.kind ≠ .flowEntry then
    t.2.refuse "did not find expected ',' or '\x7d'" t.1.start
  else do
    let u ← if first then pure t else t.2.skip.peek
    if u.1.kind = .key then do
      let v ← u.2.skip.peek
      if [.value, .flowEntry, .flowMappingEnd].contains v.1.kind then
        v.2.emptyThen (.flowMappingValue false) v.1.start
      else v.2.nodeThen (.flowMappingValue false) false false
    else if u.1.kind = .flowMappingEnd then close u
    else u.2.nodeThen (.flowMappingValue true) false false

/-- The value of a key in braces; `empty` for a key without a value. -/
def flowMappingValue (r : EventReader) (empty : Bool) : Step := do
  let t ← r.peek
  if !empty && t.1.kind = .value then do
    let u ← t.2.skip.peek
    if [.flowEntry, .flowMappingEnd].contains u.1.kind then
      u.2.emptyThen (.flowMappingKey false) u.1.start
    else u.2.nodeThen (.flowMappingKey false) false false
  else t.2.emptyThen (.flowMappingKey false) t.1.start

/-! ## The events -/

/-- The next event. After the end of the stream there is nothing more than its end. -/
def next (r : EventReader) : Step :=
  match r.expect with
  | .streamStart => do
    let t ← r.peek
    t.2.skip.documentStart true
  | .firstDocument => r.documentStart true
  | .document => r.documentStart false
  | .documentContent => do
    let t ← r.peek
    if isDocumentToken t.1.kind || t.1.kind = .documentEnd then
      return (emptyScalar t.1.start, t.2.pop)
    else t.2.node true false
  | .documentEnd => do
    let t ← r.peek
    let r := if t.1.kind = .documentEnd then t.2.skip else t.2
    return (⟨.documentEnd, t.1.start⟩, { r with expect := .document, handles := [] })
  | .blockNode => r.node true false
  | .blockSequenceEntry first => r.blockSequenceEntry first
  | .indentlessEntry => r.indentlessEntry
  | .blockMappingKey first => r.blockMappingKey first
  | .blockMappingValue => r.blockMappingValue
  | .flowSequenceEntry first => r.flowSequenceEntry first
  | .flowPairKey => r.flowPairKey
  | .flowPairValue => r.flowPairValue
  | .flowPairEnd => do
    let t ← r.peek
    return (⟨.mappingEnd, t.1.start⟩, { t.2 with expect := .flowSequenceEntry false })
  | .flowMappingKey first => r.flowMappingKey first
  | .flowMappingValue empty => r.flowMappingValue empty
  | .nothing => .ok (⟨.streamEnd, r.queue.cursor.mark⟩, r)

end EventReader

/-- The events that a reader gives up to the end of the stream, and the problem after them; `fuel`
bounds their number. -/
def eventsFrom : (fuel : Nat) → EventReader → List Event × Option Problem
  | 0, _ => ([], none)
  | fuel + 1, r =>
    match r.next with
    | .error p => ([], some p)
    | .ok (e, r) =>
      if e.kind = .streamEnd then ([e], none)
      else
        let more := eventsFrom fuel r
        (e :: more.1, more.2)

/-- The events of a stream. -/
def events (t : Text) : List Event × Option Problem :=
  let chars := decode t
  eventsFrom (8 * chars.1.length + 16)
    { queue := { cursor := { rest := chars.1, failure := chars.2 } } }

end Yaml
end LiquidLint
