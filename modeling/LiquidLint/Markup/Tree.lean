import LiquidLint.Markup.Attribute
import LiquidLint.Markup.Mask

/-!
# The tree of HTML elements

Start tags open elements and end tags close them, together with everything opened inside them that
is still open. Void elements and self-closing tags have no content. An end tag that closes nothing
is reported; an element that is never closed runs to the end of the source.
-/

namespace LiquidLint
namespace Markup

/-- The shape of a node. -/
inductive NodeKind where
  | document
  | element
  | text
  | comment
  | doctype
deriving DecidableEq

/-- The word for a shape. -/
def NodeKind.label : NodeKind → Text
  | .document => "document"
  | .element => "element"
  | .text => "text"
  | .comment => "comment"
  | .doctype => "doctype"

/-- What a node says about itself, its children apart. -/
structure Head where
  kind : NodeKind
  /-- The name of an element in lower case. -/
  tag : Text := []
  attrs : List Attribute := []
  /-- The source of a text, comment or doctype. -/
  data : Text := []
  start : Nat
  stop : Nat
  /-- Where the start tag ends. -/
  openEnd : Nat
  selfClosing : Bool := false

/-- A node of the tree. -/
inductive Node where
  | mk (head : Head) (children : List Node)

namespace Node

/-- The node without its children. -/
def head : Node → Head
  | mk h _ => h

/-- The nodes directly below, in document order. -/
def children : Node → List Node
  | mk _ cs => cs

mutual

/-- The node and its descendants in document order. -/
def walk : Node → List Head
  | mk h cs => h :: walkAll cs

/-- `walk` of each node, one after the other. -/
def walkAll : List Node → List Head
  | [] => []
  | n :: rest => walk n ++ walkAll rest

end

end Node

/-- The first attribute called `name`. -/
def Head.attribute? (h : Head) (name : Text) : Option Attribute :=
  h.attrs.find? fun a => a.name = name

/-- The elements that have neither content nor an end tag. -/
def voidElements : List Text :=
  ["area", "base", "br", "col", "embed", "hr", "img", "input", "link", "meta", "source", "track",
    "wbr"]

/-- Whether the element called `tag`, in any case, is void. -/
def isVoid (tag : Text) : Bool := voidElements.contains (Text.toLower tag)

/-- A problem that the reader recovered from, and the offset where it stands. -/
structure Warning where
  message : Text
  offset : Nat
deriving DecidableEq

/-- The warning for an end tag `tag` at `offset` that closes nothing. -/
def unexpectedClosing (tag : Text) (offset : Nat) : Warning :=
  ⟨"Unexpected closing tag </" ++ tag ++ ">", offset⟩

/-- An element whose end tag was not seen yet, and its children so far. -/
structure Frame where
  head : Head
  done : List Node := []

/-- The node of an element that ends at `stop`. -/
def Frame.closeAt (f : Frame) (stop : Nat) : Node := .mk { f.head with stop := stop } f.done

/-- The tree under construction. -/
structure Builder where
  /-- The finished children of the document. -/
  done : List Node := []
  /-- The open elements, innermost first. -/
  frames : List Frame := []
  warnings : List Warning := []

namespace Builder

/-- Puts a node into the innermost open element. -/
def push (b : Builder) (n : Node) : Builder :=
  match b.frames with
  | [] => { b with done := b.done ++ [n] }
  | f :: outer => { b with frames := { f with done := f.done ++ [n] } :: outer }

/-- Ends the innermost open element at `stop`. -/
def closeInnermost (b : Builder) (stop : Nat) : Builder :=
  match b.frames with
  | [] => b
  | f :: outer => { b with frames := outer }.push (f.closeAt stop)

theorem length_frames_push (b : Builder) (n : Node) :
    (b.push n).frames.length = b.frames.length := by
  unfold push
  split <;> simp_all

theorem length_frames_closeInnermost (b : Builder) (stop : Nat) :
    (b.closeInnermost stop).frames.length = b.frames.length - 1 := by
  unfold closeInnermost
  split <;> simp_all [length_frames_push]

/-- Ends every open element at `stop`. -/
def finish (b : Builder) (stop : Nat) : Builder :=
  if b.frames.isEmpty then b else (b.closeInnermost stop).finish stop
termination_by b.frames.length
decreasing_by
  rename_i h
  rw [length_frames_closeInnermost]
  have : b.frames.length ≠ 0 := by simpa using h
  omega

/-- Ends the elements inside the innermost `tag` at `start`, and that one at `stop`. -/
def closeThrough (b : Builder) (tag : Text) (start stop : Nat) : Builder :=
  match _h : b.frames with
  | [] => b
  | f :: _ =>
    if f.head.tag = tag then b.closeInnermost stop
    else (b.closeInnermost start).closeThrough tag start stop
termination_by b.frames.length
decreasing_by
  rw [length_frames_closeInnermost, _h]
  simp

/-- The end tag `tag` from `start` to `stop`. -/
def close (b : Builder) (tag : Text) (start stop : Nat) : Builder :=
  if voidElements.contains tag then b
  else if b.frames.any fun f => f.head.tag = tag then b.closeThrough tag start stop
  else { b with warnings := b.warnings ++ [unexpectedClosing tag start] }

/-- The start tag of `head`. -/
def start (b : Builder) (head : Head) : Builder :=
  if head.selfClosing || voidElements.contains head.tag then b.push (.mk head [])
  else { b with frames := { head } :: b.frames }

/-- Adds the token `tok` that stands at `start`. -/
def add (masked src : Text) (b : Builder) (start : Nat) (tok : Token) : Builder :=
  let stop := start + tok.size
  let leaf (kind : NodeKind) : Builder :=
    b.push (.mk { kind, data := Text.slice src start stop, start, stop, openEnd := stop } [])
  match tok.kind with
  | .text => leaf .text
  | .comment => leaf .comment
  | .doctype => leaf .doctype
  | .startTag name selfClosing =>
    b.start
      { kind := .element
        tag := name
        attrs := attributes masked src start stop
        start := start
        stop := stop
        openEnd := stop
        selfClosing := selfClosing }
  | .endTag name => b.close name start stop

/-- Adds tokens that follow each other, the first one at `start`. -/
def addAll (masked src : Text) (b : Builder) (start : Nat) : List Token → Builder
  | [] => b
  | tok :: rest => (b.add masked src start tok).addAll masked src (start + tok.size) rest

end Builder

/-- What a source reads as. -/
structure Document where
  root : Node
  warnings : List Warning

/-- The tree of `src` for the tokens `toks` of its mask. -/
def ofTokens (masked src : Text) (toks : List Token) : Document :=
  let b := (Builder.addAll masked src {} 0 toks).finish src.length
  { root := .mk { kind := .document, start := 0, stop := src.length, openEnd := 0 } b.done
    warnings := b.warnings }

/-- Reads a template as HTML. -/
def parse (src : Text) : Document :=
  let masked := mask src
  ofTokens masked src (tokens masked)

end Markup
end LiquidLint
