import LiquidLint.Text.Base64
import LiquidLint.Text.Quoted
import LiquidLint.Yaml.Node

/-!
# Values of YAML nodes

Reads nodes as texts, truth values, lists and records. A node of the wrong kind is a complaint:
reading goes on, and in the end all complaints are reported together. Other problems end the reading.

A record may take fields over from other mappings by a merge key. Fields that the record itself has
come first, then those of the mappings in order.
-/

namespace LiquidLint
namespace Yaml

/-- Reading nodes, with the complaints so far. -/
abbrev Decode := StateT (List Text) (Except Problem)

/-- Ends the reading. -/
def refuse {α : Type} (what : Text) : Decode α := throw (.content what)

/-- Notes a complaint about a line. -/
def complain (line : Nat) (what : Text) : Decode Unit :=
  modify (· ++ ["line " ++ Text.ofNat line ++ ": " ++ what])

/-- The complaint that a node does not have the type `wanted`. -/
def mismatch (info : NodeInfo) (value : List Char) (wanted : Text) : Decode Unit :=
  let v := Text.ofChars value
  let shown : Text :=
    if info.tag = "!!seq".toList || info.tag = "!!map".toList then v
    else if 10 < v.length then " `" ++ v.take 7 ++ "...`"
    else " `" ++ v ++ "`"
  complain info.line
    ("cannot unmarshal " ++ Text.ofChars info.tag ++ shown ++ " into " ++ wanted)

/-- The node that an alias stands for. -/
def Node.target : Node → Decode Node
  | .alias name none _ => refuse ("anchor '" ++ Text.ofChars name ++ "' value contains itself")
  | .alias _ (some n) _ => Node.target n
  | n => pure n

/-! ## Scalars -/

/-- What a scalar means: its type and its text. -/
structure Meaning where
  type : ScalarType
  text : Text

/-- The type that a plain scalar has if it is not taken for a date. -/
def resolveUndated (value : List Char) : ScalarType :=
  if resolve value = .timestamp then .string else resolve value

/-- What a scalar means. One whose tag does not fit its value is refused. -/
def meaning (tag value : List Char) : Decode Meaning := do
  let text := Text.ofChars value
  if tag = ScalarType.string.tag then return ⟨.string, text⟩
  else if tag = "!!binary".toList then
    match Base64.decode? text with
    | some t => return ⟨.string, t⟩
    | none => refuse "!!binary value contains invalid base64 data"
  else if !isResolvable tag then return ⟨.string, text⟩
  else
    let type := if tag = ScalarType.timestamp.tag then resolve value else resolveUndated value
    if tag = type.tag || (tag = ScalarType.float.tag && type = .int) then return ⟨type, text⟩
    else refuse ("cannot decode " ++ Text.ofChars type.tag ++ " `" ++ text ++ "` as a " ++
      Text.ofChars tag)

/-! ## Mappings -/

/-- What two keys have in common when they are taken for the same: their kind and their text. -/
def Node.keyForm : Node → Nat × List Char
  | .scalar _ v _ => (0, v)
  | .sequence _ _ => (1, [])
  | .mapping _ _ => (2, [])
  | .alias name _ _ => (3, name)

/-- The keys of a mapping with their values. -/
def pairUp : List Node → List (Node × Node)
  | k :: v :: rest => (k, v) :: pairUp rest
  | _ => []

/-- Complains about keys that stand in a mapping more than once, and tells whether there are none. -/
def checkKeys (entries : List Node) : Decode Bool := do
  let keys := (pairUp entries).map (·.1)
  let pairs := keys.zipIdx.flatMap fun (a, i) => (keys.drop (i + 1)).map fun b => (a, b)
  let repeated := pairs.filter fun (a, b) => a.keyForm = b.keyForm
  repeated.forM fun (a, b) =>
    complain b.line ("mapping key " ++ Text.quoted (Text.ofChars b.keyForm.2) ++
      " already defined at line " ++ Text.ofNat a.line)
  return repeated.isEmpty

/-- Complains about a node that is no scalar, for which `wanted` was expected. -/
def mismatchCollection (n : Node) (wanted : Text) : Decode Unit := do
  match n with
  | .sequence info _ => mismatch info [] wanted
  | .mapping info entries => if ← checkKeys entries then mismatch info [] wanted
  | _ => pure ()

/-! ## Values -/

/-- Reads a text; null gives none. -/
def readText (wanted : Text) (n : Node) : Decode (Option Text) := do
  match ← n.target with
  | .scalar info value _ =>
    let m ← meaning info.tag value
    return if m.type = .null then none else some m.text
  | n =>
    mismatchCollection n wanted
    return none

/-- Reads a truth value; null gives none. -/
def readBool (n : Node) : Decode (Option Bool) := do
  match ← n.target with
  | .scalar info value _ =>
    let m ← meaning info.tag value
    match m.type with
    | .null => return none
    | .bool b => return some b
    | type =>
      let word := String.ofList value
      if type = .string && ["y", "Y", "yes", "on"].contains word then return some true
      else if type = .string && ["n", "N", "no", "off"].contains word then return some false
      else
        mismatch info value "bool"
        return none
  | n =>
    mismatchCollection n "bool"
    return none

/-- Reads a list of texts; null gives none, and null items are left out. -/
def readTexts (n : Node) : Decode (Option (List Text)) := do
  let wanted : Text := "[]string"
  match ← n.target with
  | .sequence _ items =>
    let ts ← items.mapM (readText "string")
    return some (ts.filterMap id)
  | .scalar info value _ =>
    let m ← meaning info.tag value
    if m.type ≠ .null then mismatch info value wanted
    return none
  | n =>
    mismatchCollection n wanted
    return none

/-! ## Records -/

/-- A kind of record: its name, the names of its fields and how a field is read. -/
structure RecordType (σ : Type) where
  name : Text
  fields : List Text
  read : σ → Text → Node → Decode σ

/-- Whether a key merges other mappings into its own. -/
def Node.isMergeKey : Node → Bool
  | .scalar info value _ => value = ['<', '<'] && info.tag = ScalarType.merge.tag
  | _ => false

/-- The problem of a merge key whose value is no mapping. -/
def mergeProblem : Text := "map merge requires map or sequence of maps as the value"

/-- How far a record is read: its value, the fields that mappings to be merged no longer set (`none`
outside merges), and the fields of the mapping at hand. -/
structure Progress (σ : Type) where
  value : σ
  taken : Option (List Text)
  done : List Text := []

/-- Reads one key and its value. -/
def readField {σ : Type} (r : RecordType σ) (p : Progress σ) (key value : Node) :
    Decode (Progress σ) := do
  match ← readText "string" key with
  | none => return p
  | some name =>
    if (p.taken.getD []).contains name then return p
    let p := { p with taken := p.taken.map (name :: ·) }
    if p.done.contains name && r.fields.contains name then
      complain key.line ("field " ++ name ++ " already set in type " ++ r.name)
      return p
    return { p with value := ← r.read p.value name value, done := name :: p.done }

/-- The names that the keys of a mapping keep mappings to be merged from setting. -/
def ownNames (entries : List Node) : Decode (List Text) := do
  let names ← (pairUp entries).mapM fun (k, _) => do
    match ← k.target with
    | .scalar info value _ =>
      let m ← meaning info.tag value
      return if m.type = .string then some m.text else none
    | _ => return none
  return names.filterMap id

/-- Reads the keys and values of a mapping, and what it merges; `fuel` bounds the depth of merges. -/
def readEntries {σ : Type} (r : RecordType σ) :
    (fuel : Nat) → Progress σ → List Node → Decode (Progress σ)
  | 0, p, _ => pure p
  | fuel + 1, p, entries => do
    if !(← checkKeys entries) then return p
    let pairs := pairUp entries
    let own := pairs.filter fun (k, _) => !k.isMergeKey
    let p ← own.foldlM (fun p (k, v) => readField r p k v) { p with done := [] }
    match (pairs.filter fun (k, _) => k.isMergeKey).getLast? with
    | none => return p
    | some (_, merged) =>
      let taken ← match p.taken with
        | some ts => pure ts
        | none => ownNames entries
      let outer := p.taken
      let mergeOne (p : Progress σ) (n : Node) : Decode (Progress σ) := do
        match ← n.target with
        | .mapping _ more => readEntries r fuel p more
        | _ => refuse mergeProblem
      let p := { p with taken := some taken }
      let p ← match merged with
        | .sequence _ items => items.foldlM mergeOne p
        | n => mergeOne p n
      return { p with taken := outer.map fun _ => p.taken.getD [] }

/-- Reads a record on top of `s`; null leaves it as it is. -/
def readRecord {σ : Type} (fuel : Nat) (r : RecordType σ) (s : σ) (n : Node) : Decode σ := do
  match ← n.target with
  | .mapping _ entries => return (← readEntries r fuel { value := s, taken := none } entries).value
  | .scalar info value _ =>
    let m ← meaning info.tag value
    if m.type ≠ .null then mismatch info value r.name
    return s
  | n =>
    mismatchCollection n r.name
    return s

/-- Reads the first document of a text. -/
def decodeFirst {σ : Type} (t : Text) (s : σ) (read : σ → Node → Decode σ) : Except Text σ :=
  match firstDocument t with
  | .error p => .error p.message
  | .ok none => .ok s
  | .ok (some n) =>
    match (read s n).run [] with
    | .error p => .error p.message
    | .ok (s, []) => .ok s
    | .ok (_, complaints) =>
      .error ("unmarshal errors:\n  " ++ Text.joinWith "\n  " complaints)

end Yaml
end LiquidLint
