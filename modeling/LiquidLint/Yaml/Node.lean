import LiquidLint.Yaml.Event
import LiquidLint.Yaml.Scalar

/-!
# Nodes of a YAML document

The events of a stream, put together as documents. An alias holds the node that its anchor names, or
nothing when it stands inside that node.
-/

namespace LiquidLint
namespace Yaml

/-- What all nodes have. -/
structure NodeInfo where
  /-- The short tag: the one written, or the one that follows from the kind and value. -/
  tag : List Char
  /-- The one-based line where the node starts. -/
  line : Nat
deriving DecidableEq

/-- A node of a document. -/
inductive Node where
  | scalar (info : NodeInfo) (value : List Char) (style : ScalarStyle)
  | sequence (info : NodeInfo) (items : List Node)
  /-- The keys and values take turns. -/
  | mapping (info : NodeInfo) (entries : List Node)
  | alias (name : List Char) (target : Option Node) (line : Nat)

/-- The one-based line where the node starts. -/
def Node.line : Node → Nat
  | .scalar i _ _ | .sequence i _ | .mapping i _ => i.line
  | .alias _ _ line => line

/-- The tag of a node, given the one written and the one it has otherwise. -/
def nodeTag (written otherwise : List Char) : List Char :=
  if written.isEmpty || written = ['!'] then otherwise else shortTag written

/-- The tag of a scalar. -/
def scalarTag (written value : List Char) (style : ScalarStyle) : List Char :=
  nodeTag written
    (if style = .plain then (resolve value).tag else ScalarType.string.tag)

/-- The anchors seen so far, the latest first; an anchor whose node is not finished has none. -/
abbrev Anchors := List (List Char × Option Node)

/-- What reading events gives: a value, the anchors after it and the events that are left. -/
abbrev Composed (α : Type) := Except Problem (α × Anchors × List Event)

/-- The problem of an alias without an anchor. -/
def unknownAnchor (name : List Char) : Problem :=
  .content ("unknown anchor '" ++ Text.ofChars name ++ "' referenced")

/-- Notes an anchor. -/
def noteAnchor (anchors : Anchors) (name : List Char) (n : Option Node) : Anchors :=
  if name.isEmpty then anchors else (name, n) :: anchors

/-- Gives the node of an anchor that was noted when the node started, unless the name was taken
again inside the node. -/
def finishAnchor (anchors : Anchors) (name : List Char) (n : Node) : Anchors :=
  match anchors with
  | [] => []
  | (a, target) :: more =>
    if a = name then
      match target with
      | none => (a, some n) :: more
      | some _ => (a, target) :: more
    else (a, target) :: finishAnchor more name n

mutual

/-- Puts one node together. The events end in `problem`; `fuel` bounds the depth and length. -/
def composeNode (problem : Problem) :
    (fuel : Nat) → Anchors → List Event → Composed Node
  | 0, _, _ => .error problem
  | _, _, [] => .error problem
  | fuel + 1, anchors, e :: rest =>
    let line := e.start.line + 1
    match e.kind with
    | .alias name =>
      match anchors.lookup name with
      | none => .error (unknownAnchor name)
      | some target => .ok (.alias name target line, anchors, rest)
    | .scalar anchor tag value style =>
      let n := Node.scalar ⟨scalarTag tag value style, line⟩ value style
      .ok (n, noteAnchor anchors anchor (some n), rest)
    | .sequenceStart anchor tag =>
      match composeItems problem .sequenceEnd fuel (noteAnchor anchors anchor none) rest with
      | .error p => .error p
      | .ok (items, anchors, rest) =>
        let n := Node.sequence ⟨nodeTag tag "!!seq".toList, line⟩ items
        .ok (n, finishAnchor anchors anchor n, rest)
    | .mappingStart anchor tag =>
      match composeItems problem .mappingEnd fuel (noteAnchor anchors anchor none) rest with
      | .error p => .error p
      | .ok (entries, anchors, rest) =>
        let n := Node.mapping ⟨nodeTag tag "!!map".toList, line⟩ entries
        .ok (n, finishAnchor anchors anchor n, rest)
    | _ => .error problem

/-- Puts the nodes of a collection together, up to the event `last`. -/
def composeItems (problem : Problem) (last : EventKind) :
    (fuel : Nat) → Anchors → List Event → Composed (List Node)
  | 0, _, _ => .error problem
  | _, _, [] => .error problem
  | fuel + 1, anchors, e :: rest =>
    if e.kind = last then .ok ([], anchors, rest)
    else match composeNode problem fuel anchors (e :: rest) with
      | .error p => .error p
      | .ok (n, anchors, rest) =>
        match composeItems problem last fuel anchors rest with
        | .error p => .error p
        | .ok (items, anchors, rest) => .ok (n :: items, anchors, rest)

end

/-- Puts documents together until the stream ends or has a problem. -/
def composeDocuments (problem : Problem) :
    (fuel : Nat) → Anchors → List Event → List Node × Option Problem
  | 0, _, _ => ([], none)
  | _, _, [] => ([], some problem)
  | fuel + 1, anchors, e :: rest =>
    if e.kind = .streamEnd then ([], none)
    else match composeNode problem fuel anchors rest with
      | .error p => ([], some p)
      | .ok (_, _, []) => ([], some problem)
      | .ok (n, anchors, _ :: rest) =>
        let more := composeDocuments problem fuel anchors rest
        (n :: more.1, more.2)

/-- The documents of a stream up to its first problem, and that problem. -/
def documents (t : Text) : List Node × Option Problem :=
  let es := events t
  composeDocuments (es.2.getD (.content "unexpected end of events")) (es.1.length + 1) [] es.1

/-- The first document of a stream; `none` for a stream without any. -/
def firstDocument (t : Text) : Except Problem (Option Node) :=
  match documents t with
  | (n :: _, _) => .ok (some n)
  | ([], some p) => .error p
  | ([], none) => .ok none

end Yaml
end LiquidLint
