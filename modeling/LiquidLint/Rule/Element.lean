import LiquidLint.Check.Basic

/-!
# HTML elements

Scripts from elsewhere do not block the reading of a page, and images say how large they are.
-/

namespace LiquidLint
namespace Rule
namespace Element

open Source

/-- Whether the element has an attribute called `name`. -/
def has (h : Markup.Head) (name : Text) : Bool := (h.attribute? name).isSome

/-- The report `message` on the start tag of an element. -/
def onStartTag (h : Markup.Head) (message : Text) : Report :=
  { message, range := some ⟨h.start, h.openEnd⟩ }

/-- Whether an element is a script that is read before the page goes on. -/
def isBlockingScript (h : Markup.Head) : Bool :=
  h.tag = "script" && has h "src" && !has h "defer" && !has h "async" &&
    !(h.attribute? "type").any fun a => Text.asciiLower (Text.trimSpace a.value) = "module"

/-- The report on a script. -/
def scriptReport? (h : Markup.Head) : Option Report :=
  if isBlockingScript h then
    some (onStartTag h "Avoid parser blocking scripts by adding `defer` or `async` on this tag")
  else none

/-- The report on an image. -/
def imageReport? (h : Markup.Head) : Option Report :=
  if h.tag = "img" && has h "src" then
    match has h "width", has h "height" with
    | true, true => none
    | false, true => some (onStartTag h "Missing width attribute")
    | true, false => some (onStartTag h "Missing height attribute")
    | false, false => some (onStartTag h "Missing width and height attributes")
  else none

/-- The check that looks at each element by itself. -/
def elementCheck (info : CheckInfo) (report? : Markup.Head → Option Report) : Check :=
  { info
    subscriptions := [⟨.on, "html_element"⟩]
    onVisit := fun _ visit =>
      match visit with
      | .node _ _ n =>
        match n.shape with
        | .html h => .reports (report? h).toList
        | _ => {}
      | .endFile _ => {} }

end Element

/-- Reports scripts that block the reading of a page. -/
def parserBlockingJavascript : Check :=
  Element.elementCheck
    { code := "ParserBlockingJavascript"
      severity := .error
      categories := [.html]
      doc := "Reports <script src> tags without defer or async" }
    Element.scriptReport?

/-- Reports images without a size. -/
def imgWidthAndHeight : Check :=
  Element.elementCheck
    { code := "ImgWidthAndHeight"
      severity := .error
      categories := [.html]
      doc := "Reports <img> tags without width and height attributes" }
    Element.imageReport?

end Rule
end LiquidLint
