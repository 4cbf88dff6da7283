import LiquidLint.Liquid.Tree
import LiquidLint.Markup.Tree
import LiquidLint.Source.Position
import LiquidLint.Yaml.Node

/-!
# Nodes of a source file

One kind of node for the trees of templates, of HTML and of data files, so that a check walks all of
them alike. Walking a tree fires events: before and after the children of each node, for every node,
for every Liquid tag, and for the node's own kind.
-/

namespace LiquidLint
namespace Source

/-- What a node was read from. -/
inductive Shape where
  | liquid (head : Liquid.Head)
  | html (head : Markup.Head)
  | yaml (document : Option Yaml.Node)
  | graphql

/-- The languages that trees are read from. -/
inductive Family where
  | liquid
  | html
  | data
deriving DecidableEq

/-- The word for a family. -/
def Family.label : Family → Text
  | .liquid => "liquid"
  | .html => "html"
  | .data => "data"

namespace Shape

/-- The family of a node. -/
def family : Shape → Family
  | .liquid _ => .liquid
  | .html _ => .html
  | .yaml _ | .graphql => .data

/-- The kind of a node; a Liquid tag has its name as its kind. -/
def kind : Shape → Text
  | .liquid h =>
    match h.kind with
    | .document => "document"
    | .raw => "raw"
    | .variable => "variable"
    | .tag => if h.name = "comment" || h.name = "#" then "comment" else h.name
  | .html h =>
    match h.kind with
    | .document => "html_document"
    | .element => "html_element"
    | .text => "html_text"
    | .comment => "html_comment"
    | .doctype => "html_doctype"
  | .yaml _ => "yaml_document"
  | .graphql => "graphql_document"

/-- Whether the node is a Liquid tag. -/
def isTag : Shape → Bool
  | .liquid h => h.kind = .tag
  | _ => false

/-- The name of the tag or element. -/
def tag : Shape → Text
  | .liquid h => h.name
  | .html h => h.tag
  | _ => []

/-- The markup of a Liquid node, or the text of an HTML node. -/
def markup : Shape → Text
  | .liquid h => h.markup
  | .html h => h.data
  | _ => []

end Shape

/-- A node of a file and where it stands. -/
inductive Node where
  | mk (shape : Shape) (span : Span) (children : List Node)

namespace Node

/-- What the node was read from. -/
def shape : Node → Shape
  | mk s _ _ => s

/-- Where the node stands. -/
def span : Node → Span
  | mk _ s _ => s

/-- The nodes directly below, in document order. -/
def children : Node → List Node
  | mk _ _ cs => cs

/-- The kind of the node. -/
def kind (n : Node) : Text := n.shape.kind

/-- Whether the node is a Liquid tag. -/
def isTag (n : Node) : Bool := n.shape.isTag

/-- The name of the tag or element. -/
def tag (n : Node) : Text := n.shape.tag

/-- The markup of a Liquid node, or the text of an HTML node. -/
def markup (n : Node) : Text := n.shape.markup

/-- Where the markup of the node stands in a source of `size` bytes. -/
def markupSpan (n : Node) (size : Nat) : Span :=
  match n.shape with
  | .liquid h => Range.within ⟨h.markupStart, h.markupStart + h.markup.length⟩ size
  | _ => n.span

mutual

/-- The node of a Liquid node in a source of `size` bytes. -/
def ofLiquid (size : Nat) : Liquid.Node → Node
  | .mk h cs => mk (.liquid h) (Range.within ⟨h.start, h.stop⟩ size) (ofLiquidAll size cs)

/-- `ofLiquid` of each node. -/
def ofLiquidAll (size : Nat) : List Liquid.Node → List Node
  | [] => []
  | n :: rest => ofLiquid size n :: ofLiquidAll size rest

end

mutual

/-- The node of an HTML node in a source of `size` bytes. -/
def ofHtml (size : Nat) : Markup.Node → Node
  | .mk h cs => mk (.html h) (Range.within ⟨h.start, h.stop⟩ size) (ofHtmlAll size cs)

/-- `ofHtml` of each node. -/
def ofHtmlAll (size : Nat) : List Markup.Node → List Node
  | [] => []
  | n :: rest => ofHtml size n :: ofHtmlAll size rest

end

mutual

/-- The node and its descendants in document order. -/
def walk : Node → List Node
  | mk s sp cs => mk s sp cs :: walkAll cs

/-- `walk` of each node, one after the other. -/
def walkAll : List Node → List Node
  | [] => []
  | n :: rest => walk n ++ walkAll rest

end

end Node

/-! ## Events -/

/-- Whether an event fires before or after the children of its node. -/
inductive Phase where
  | on
  | after
deriving DecidableEq

/-- The word for a phase. -/
def Phase.label : Phase → Text
  | .on => "on"
  | .after => "after"

/-- What a check may wait for: a phase, and a kind of node, `node` for all of them or `tag` for all
Liquid tags. -/
structure Event where
  phase : Phase
  kind : Text
deriving DecidableEq

/-- The name of an event. -/
def Event.label (e : Event) : Text := e.phase.label ++ "_" ++ e.kind

/-- The event with that name. -/
def Event.ofLabel? (t : Text) : Option Event :=
  match Text.dropStart? "on_" t with
  | some kind => some ⟨.on, kind⟩
  | none => (Text.dropStart? "after_" t).map fun kind => ⟨.after, kind⟩

namespace Node

/-- The kinds under which a node fires. -/
def eventKinds (n : Node) : List Text :=
  ("node" : Text) :: ((if n.isTag then [("tag" : Text)] else []) ++ [n.kind])

/-- The events of a node in one phase; those after its children come in reverse. -/
def events (n : Node) : Phase → List Event
  | .on => n.eventKinds.map fun k => ⟨.on, k⟩
  | .after => n.eventKinds.reverse.map fun k => ⟨.after, k⟩

mutual

/-- Everything that a walk over the tree fires, in order. -/
def firings : Node → List (Event × Node)
  | mk s sp cs =>
    let n := mk s sp cs
    (n.events .on).map (·, n) ++ firingsAll cs ++ (n.events .after).map (·, n)

/-- `firings` of each node, one after the other. -/
def firingsAll : List Node → List (Event × Node)
  | [] => []
  | n :: rest => firings n ++ firingsAll rest

end

end Node

end Source
end LiquidLint
