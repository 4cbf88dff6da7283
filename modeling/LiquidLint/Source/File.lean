import LiquidLint.Project.Category
import LiquidLint.Source.Node
import LiquidLint.Text.Utf8

/-!
# Source files

A stored file may start with a byte order mark and may break its lines with a carriage return and a
line feed. Everything that looks at a file sees it without the mark and with plain line feeds;
`SourceFile.encode` goes back to the stored form.

Reading a file never fails: what its category asks for is read into trees, and problems are kept as
warnings.
-/

namespace LiquidLint
namespace Source

/-- How a stored file breaks its lines. -/
inductive LineBreak where
  | lf
  | crlf
deriving DecidableEq

/-- The bytes of a line break. -/
def LineBreak.text : LineBreak → Text
  | .lf => "\n"
  | .crlf => "\r\n"

/-- The byte order mark. -/
def byteOrderMark : Text := [0xEF, 0xBB, 0xBF]

/-- Which reader a warning comes from. -/
inductive WarningOrigin where
  | liquid
  | html
  | yaml
deriving DecidableEq

/-- The word for an origin. -/
def WarningOrigin.label : WarningOrigin → Text
  | .liquid => "liquid"
  | .html => "html"
  | .yaml => "yaml"

/-- A problem that a reader recovered from. -/
structure Warning where
  origin : WarningOrigin
  message : Text
  offset : Nat
deriving DecidableEq

/-- The line break of a stored content: one carriage return before a line feed is enough. -/
def LineBreak.of (content : Text) : LineBreak :=
  if Text.hasText content "\r\n" then .crlf else .lf

/-- The content without a byte order mark. A marked content is decoded, so that it holds no invalid
bytes. -/
def unmarked (content : Text) : Text :=
  match Text.dropStart? byteOrderMark content with
  | some rest => Text.replaceInvalid rest
  | none => content

/-- The content as everything else sees it. -/
def sourceOf (content : Text) : Text := Text.replaceText (unmarked content) "\r\n" "\n"

end Source

open Source

/-- A file of a project as it was read. -/
structure SourceFile where
  /-- The slash-separated path in the project. -/
  path : Text
  /-- The content without a byte order mark and with plain line feeds. -/
  source : Text
  lineBreak : LineBreak
  /-- Whether the stored content starts with a byte order mark. -/
  marked : Bool
  info : Project.FileInfo
  /-- The version of the stored content. -/
  version : Int
  lines : List Span
  warnings : List Warning
  trees : List Node

namespace SourceFile

/-- A content in the stored form of the file. -/
def encode (f : SourceFile) (content : Text) : Text :=
  let broken :=
    match f.lineBreak with
    | .crlf => Text.replaceText content "\n" "\r\n"
    | .lf => content
  if f.marked then byteOrderMark ++ broken else broken

/-- The place of an offset, which is moved into the source first. -/
def position (f : SourceFile) (offset : Int) : Position :=
  positionIn f.lines (clamp offset 0 f.source.length)

/-- The offset of a line and column. -/
def offset (f : SourceFile) (line column : Int) : Nat := offsetIn f.lines line column

/-- The text of a line; empty when there is no such line. -/
def line (f : SourceFile) (n : Int) : Text :=
  if n < 0 then []
  else match f.lines[n.toNat]? with
    | some l => Text.slice f.source l.start l.stop
    | none => []

/-- The text of the nearest line without the blanks around it. -/
def excerpt (f : SourceFile) (n : Int) : Text :=
  Text.trimSpace (f.line (clamp n 0 (f.lines.length - 1)))

/-- The text of a range. -/
def slice (f : SourceFile) (r : Range) : Text :=
  let s := r.within f.source.length
  Text.slice f.source s.start s.stop

/-- The source of a node. -/
def sourceOfNode (f : SourceFile) (n : Node) : Text := f.slice n.span.toRange

/-- The warnings of one reader. -/
def warningsFrom (f : SourceFile) (origin : WarningOrigin) : List Warning :=
  f.warnings.filter fun w => w.origin = origin

/-- What reading the source as HTML gives. -/
def htmlPart (source : Text) : List Warning × List Node :=
  let doc := Markup.parse source
  (doc.warnings.map fun w => ⟨.html, w.message, w.offset⟩, [.ofHtml source.length doc.root])

/-- What reading the source as a template gives, HTML aside. -/
def liquidPart (source : Text) : List Warning × List Node :=
  let doc := Liquid.parse source
  (doc.warnings.map fun w => ⟨.liquid, w.message, w.offset⟩, [.ofLiquid source.length doc.root])

/-- The number after the first `line ` of a message that a number follows. -/
def lineNamed? : Text → Option Nat
  | [] => none
  | b :: rest =>
    match Text.dropStart? "line " (b :: rest) with
    | none => lineNamed? rest
    | some after =>
      match Text.toNat? (after.takeWhile Text.isDigit) with
      | none => lineNamed? rest
      | some n => if n < Nat.pow 2 63 then some n else none

/-- What reading the source as YAML gives: the first document, and a warning at the line that the
message of the first problem names. -/
def yamlPart (source : Text) (lines : List Span) : List Warning × List Node :=
  let docs := Yaml.documents source
  let warning (p : Yaml.Problem) : Warning :=
    { origin := .yaml
      message := p.message
      offset := match lineNamed? p.message with
        | some n => offsetIn lines ((n : Int) - 1) 0
        | none => 0 }
  (docs.2.toList.map warning, [.mk (.yaml docs.1.head?) ⟨0, source.length⟩ []])

/-- The warnings and trees of a source of category `c`. -/
def parts (c : Project.Category) (source : Text) (lines : List Span) : List Warning × List Node :=
  match c with
  | .liquid =>
    let liquid := liquidPart source
    let html := htmlPart source
    (liquid.1 ++ html.1, liquid.2 ++ html.2)
  | .html => htmlPart source
  | .yaml => yamlPart source lines
  | .graphql => ([], [.mk .graphql ⟨0, source.length⟩ []])
  | .asset | .other => ([], [])

/-- Reads a stored content. -/
def parse (path content : Text) (version : Int) : SourceFile :=
  let info := Project.classify path
  let source := sourceOf content
  let lines := lineTable source
  let read := parts info.category source lines
  { path, source, lineBreak := .of content, marked := Text.startsWith content byteOrderMark, info,
    version, lines, warnings := read.1, trees := read.2 }

/-- Whether the file was read into trees. -/
def isParsed (f : SourceFile) : Bool := !f.trees.isEmpty

/-- Every node of the file, tree by tree in document order. -/
def nodes (f : SourceFile) : List Node := f.trees.flatMap Node.walk

end SourceFile

end LiquidLint
