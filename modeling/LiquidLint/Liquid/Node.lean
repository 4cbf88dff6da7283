import LiquidLint.Liquid.Token

/-!
# The tree of a template

A node keeps the span it was read from. The root is the document; block tags and their branches hold
the nodes between their tags, and a `liquid` tag holds one node for each of its lines.
-/

namespace LiquidLint
namespace Liquid

/-- The shape of a node. -/
inductive NodeKind where
  | document
  | raw
  | variable
  | tag
deriving DecidableEq

namespace NodeKind

/-- The word for a shape. -/
def label : NodeKind → Text
  | .document => "document"
  | .raw => "raw"
  | .variable => "variable"
  | .tag => "tag"

end NodeKind

/-- What a node says about itself, its children apart. -/
structure Head where
  kind : NodeKind
  /-- The tag name; empty for other kinds. -/
  name : Text := []
  /-- The trimmed text after the tag name, the expression of a variable, or the text of a raw node. -/
  markup : Text := []
  /-- The offset of the first byte. -/
  start : Nat
  /-- The offset after the last byte; for a block this is after its end tag. -/
  stop : Nat
  /-- Where `markup` stands in the source. -/
  markupStart : Nat := 0
  /-- Where the opening tag ends; `stop` for a node without a body. -/
  openEnd : Nat
  /-- Where the end tag of a block starts, once it was seen. -/
  closeStart : Option Nat := none
  /-- Whether the end tag of the block was seen. -/
  closed : Bool := false
  /-- Whether the tag takes a body and an end tag. -/
  block : Bool := false
  trimLeft : Bool := false
  trimRight : Bool := false
  /-- Whether the tag is a line of a `liquid` tag. -/
  inLiquid : Bool := false

/-- A node of the tree. -/
inductive Node where
  | mk (head : Head) (children : List Node)

namespace Node

/-- The node without its children. -/
def head : Node → Head
  | mk h _ => h

/-- The nodes directly below, in document order. -/
def children : Node → List Node
  | mk _ cs => cs

/-- A node without children. -/
def leaf (h : Head) : Node := mk h []

mutual

/-- The node and its descendants in document order, leaving out what lies below a node that
`descend` refuses. -/
def walk (descend : Head → Bool) : Node → List Head
  | mk h cs => h :: if descend h then walkAll descend cs else []

/-- `walk` of each node, one after the other. -/
def walkAll (descend : Head → Bool) : List Node → List Head
  | [] => []
  | n :: rest => walk descend n ++ walkAll descend rest

end

end Node

/-- A problem that the reader recovered from, and the offset where it stands. -/
structure Warning where
  message : Text
  offset : Nat
deriving DecidableEq

end Liquid
end LiquidLint
