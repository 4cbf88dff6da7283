import LiquidLint.Liquid.Node
import LiquidLint.Liquid.Tag

/-!
# Building the tree

The tokens of a template are put into a tree with a stack of open blocks, innermost first. Nothing
is refused: a tag that does not fit is kept as a plain node or, for an end tag without its block,
left out, and each such case leaves a warning.
-/

namespace LiquidLint
namespace Liquid

/-- The head of a node for the token `tok`. -/
def Token.head (kind : NodeKind) (tok : Token) : Head :=
  { kind, name := tok.name, markup := tok.markup, start := tok.start, stop := tok.stop,
    markupStart := tok.markupStart, openEnd := tok.stop, trimLeft := tok.trimLeft,
    trimRight := tok.trimRight, inLiquid := tok.inLiquid }

/-- The raw node with the text `markup` from `start` to `stop`. -/
def rawNode (start stop : Nat) (markup : Text) : Node :=
  .leaf { kind := .raw, markup, start, stop, markupStart := start, openEnd := stop }

/-! ## Warnings -/

/-- What the reader reports and goes on from. -/
inductive Defect where
  | unterminated (d : Delimiter)
  | nameless
  | unknownTag (name : Text)
  | unexpectedEnd (name block : Text)
  | neverClosed (name : Text)
deriving DecidableEq

/-- The wording of a defect. -/
def Defect.message : Defect → Text
  | .unterminated .variable =>
    "Variable '\x7b\x7b' was not properly terminated with '\x7d\x7d'"
  | .unterminated .tag => "Tag '\x7b%' was not properly terminated with '%\x7d'"
  | .nameless => "Tag name is missing"
  | .unknownTag name => "Unknown tag '" ++ name ++ "'"
  | .unexpectedEnd name block =>
    "Unexpected '" ++ name ++ "' tag, no '" ++ block ++ "' tag is open"
  | .neverClosed name => "'" ++ name ++ "' tag was never closed"

/-- The warning for a defect at `offset`. -/
def Defect.at (d : Defect) (offset : Nat) : Warning := ⟨d.message, offset⟩

/-- The warnings of the openers without a closer. -/
def unterminatedWarnings (toks : List Token) : List Warning :=
  toks.filterMap fun tok =>
    match tok.kind with
    | .unterminated d => some ((Defect.unterminated d).at tok.start)
    | _ => none

/-! ## Open blocks -/

/-- A block whose end tag was not seen yet. -/
structure Frame where
  /-- The opening tag. -/
  block : Head
  /-- The finished children of the block. -/
  done : List Node := []
  /-- The open branch and its children so far. -/
  branch : Option (Head × List Node) := none

namespace Frame

/-- Puts a node into the open branch, or into the block itself when it has none yet. -/
def push (f : Frame) (n : Node) : Frame :=
  match f.branch with
  | none => { f with done := f.done ++ [n] }
  | some (h, cs) => { f with branch := some (h, cs ++ [n]) }

/-- The children of the block with the open branch ended at `stop`. -/
def childrenAt (f : Frame) (stop : Nat) : List Node :=
  match f.branch with
  | none => f.done
  | some (h, cs) => f.done ++ [.mk { h with stop := stop } cs]

/-- Ends the open branch at the start of `tok` and opens the next one. -/
def openBranch (f : Frame) (tok : Token) : Frame :=
  { f with done := f.childrenAt tok.start, branch := some (tok.head .tag, []) }

/-- The node of a block that ends at `stop` without an end tag. -/
def cutShort (f : Frame) (stop : Nat) : Node :=
  .mk { f.block with stop := stop } (f.childrenAt stop)

/-- The node of a block that the end tag `tok` closes. -/
def closeWith (f : Frame) (tok : Token) : Node :=
  .mk { f.block with stop := tok.stop, closeStart := some tok.start, closed := true }
    (f.childrenAt tok.start)

end Frame

/-- The tree under construction. -/
structure Builder where
  /-- The finished children of the root. -/
  done : List Node := []
  /-- The open blocks, innermost first. -/
  frames : List Frame := []
  /-- The warnings in the order in which they arose. -/
  warnings : List Warning := []

namespace Builder

/-- Puts a node into the innermost open block. -/
def push (b : Builder) (n : Node) : Builder :=
  match b.frames with
  | [] => { b with done := b.done ++ [n] }
  | f :: outer => { b with frames := f.push n :: outer }

/-- Adds a warning. -/
def warn (b : Builder) (d : Defect) (offset : Nat) : Builder :=
  { b with warnings := b.warnings ++ [d.at offset] }

/-- Whether a line stands inside a comment block and does not end it. -/
def inComment (b : Builder) (tok : Token) : Bool :=
  match b.frames with
  | [] => false
  | f :: _ => f.block.name = "comment" && tok.name ≠ "endcomment"

/-- Ends the innermost open block at `stop` without its end tag. -/
def cutInnermost (b : Builder) (stop : Nat) : Builder :=
  match b.frames with
  | [] => b
  | f :: outer =>
    ({ b with frames := outer }.warn (.neverClosed f.block.name) f.block.start).push
      (f.cutShort stop)

theorem length_frames_push (b : Builder) (n : Node) :
    (b.push n).frames.length = b.frames.length := by
  unfold push
  split <;> simp_all

theorem length_frames_cutInnermost (b : Builder) (stop : Nat) :
    (b.cutInnermost stop).frames.length = b.frames.length - 1 := by
  unfold cutInnermost
  split
  · simp_all
  · simp_all [length_frames_push, warn]

/-- Ends every open block at `stop`, innermost first. -/
def finish (b : Builder) (stop : Nat) : Builder :=
  if b.frames.isEmpty then b else (b.cutInnermost stop).finish stop
termination_by b.frames.length
decreasing_by
  rename_i h
  rw [length_frames_cutInnermost]
  have : b.frames.length ≠ 0 := by simpa using h
  omega

/-- Ends the open blocks inside the innermost `name`, then that block with the end tag `tok`. -/
def closeThrough (b : Builder) (name : Text) (tok : Token) : Builder :=
  match _h : b.frames with
  | [] => b
  | f :: outer =>
    if f.block.name = name then { b with frames := outer }.push (f.closeWith tok)
    else (b.cutInnermost tok.start).closeThrough name tok
termination_by b.frames.length
decreasing_by
  rw [length_frames_cutInnermost, _h]
  simp

/-- The end tag `tok` of the block `name`: it closes the innermost open block of that name, or
nothing. -/
def closeBlock (b : Builder) (name : Text) (tok : Token) : Builder :=
  if b.frames.any fun f => f.block.name = name then b.closeThrough name tok
  else b.warn (.unexpectedEnd tok.name name) tok.start

/-- The branch tag `tok`: it opens a branch of the innermost open block, or is unknown there. -/
def branch (b : Builder) (tok : Token) : Builder :=
  match b.frames with
  | f :: outer =>
    if isBranchOf f.block.name tok.name then { b with frames := f.openBranch tok :: outer }
    else (b.warn (.unknownTag tok.name) tok.start).push (.leaf (tok.head .tag))
  | [] => (b.warn (.unknownTag tok.name) tok.start).push (.leaf (tok.head .tag))

/-- Adds the tokens one after the other. The lines of a `liquid` tag are added to a tree of their
own, which ends with the tag. -/
def addTokens (src : Text) (b : Builder) : List Token → Builder
  | [] => b
  | tok :: rest =>
    match tok.kind with
    | .text => addTokens src (b.push (rawNode tok.start tok.stop tok.markup)) rest
    | .unterminated _ => addTokens src (b.push (rawNode tok.start tok.stop tok.markup)) rest
    | .variable => addTokens src (b.push (.leaf (tok.head .variable))) rest
    | .tag =>
      if tok.inLiquid && b.inComment tok then
        addTokens src
          (b.push (rawNode tok.start tok.stop (Text.slice src tok.start tok.stop))) rest
      else match tagRole tok.name with
        | .nameless =>
          addTokens src ((b.warn .nameless tok.start).push (.leaf (tok.head .tag))) rest
        | .closes block => addTokens src (b.closeBlock block tok) rest
        | .branch => addTokens src (b.branch tok) rest
        | .opens =>
          addTokens src
            { b with frames := { block := { tok.head .tag with block := true } } :: b.frames } rest
        | .lines =>
          let inner :=
            (addTokens src { warnings := b.warnings }
              (liquidLines tok.markup tok.markupStart)).finish tok.stop
          addTokens src
            ({ b with warnings := inner.warnings }.push (.mk (tok.head .tag) inner.done)) rest
        | .inline => addTokens src (b.push (.leaf (tok.head .tag))) rest
        | .unknown =>
          addTokens src
            ((b.warn (.unknownTag tok.name) tok.start).push (.leaf (tok.head .tag))) rest
termination_by toks => weight toks
decreasing_by
  all_goals simp only [weight, List.map_cons, sumOf_cons]
  all_goals first
    | omega
    | have := weight_liquidLines_le tok.markup tok.markupStart
      simp only [weight] at this
      omega

end Builder

/-- What a source reads as. -/
structure Document where
  root : Node
  warnings : List Warning

/-- Reads a template. There is always a tree; problems are reported as warnings in order of their
offsets. -/
def parse (src : Text) : Document :=
  let toks := tokens src
  let b := (Builder.addTokens src { warnings := unterminatedWarnings toks } toks).finish src.length
  { root := .mk { kind := .document, start := 0, stop := src.length, openEnd := 0 } b.done
    warnings := b.warnings.mergeSort fun v w => v.offset ≤ w.offset }

end Liquid
end LiquidLint
