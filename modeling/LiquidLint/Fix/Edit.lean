import LiquidLint.Failure
import LiquidLint.Source.File
import LiquidLint.Text.Quoted

/-!
# Edits

An edit replaces some bytes of a source by a text. Edits are numbered in the order in which they were
asked for; one whose bytes do not lie in the source is refused.
-/

namespace LiquidLint

open Source

/-- The replacement of the bytes from `start` up to `stop`. -/
structure Edit where
  start : Nat
  stop : Nat
  text : Text
  /-- The code of the check that asked for the edit. -/
  check : Text
  /-- How many edits were asked for before, refused ones included. -/
  seq : Nat
deriving DecidableEq

namespace Edit

/-- Whether nothing is replaced. -/
def isInsertion (e : Edit) : Bool := e.start = e.stop

/-- How an edit with these parts is shown. -/
def describe (e : Edit) : Text :=
  "[" ++ Text.ofNat e.start ++ ":" ++ Text.ofNat e.stop ++ "]" ++ Text.quoted e.text ++ " by " ++
    e.check

/-- Whether two edits cannot both be applied. Two insertions can, and an insertion and a replacement
can unless the insertion falls strictly inside. -/
def overlaps (a b : Edit) : Bool :=
  if a.isInsertion && b.isInsertion then false
  else if a.isInsertion then b.start < a.start && a.start < b.stop
  else if b.isInsertion then a.start < b.start && b.start < a.stop
  else a.start < b.stop && b.start < a.stop

/-- Whether two edits replace the same bytes by the same text. -/
def same (a b : Edit) : Bool := a.start = b.start && a.stop = b.stop && a.text = b.text

/-- The order in which accepted edits are applied: from the end of the source to its start, and the
latest first where several stand at one place. -/
def applyOrder (a b : Edit) : Ordering :=
  (compare b.start a.start).then <| (compare b.stop a.stop).then <| compare b.seq a.seq

/-- The source with one edit applied. -/
def apply (source : Text) (e : Edit) : Text := source.take e.start ++ e.text ++ source.drop e.stop

end Edit

/-- Why an edit is refused. -/
inductive EditFault where
  | negativeStart
  | stopBeforeStart
  | beyondEnd (stop : Int) (size : Nat)
deriving DecidableEq

/-- The wording of a fault. -/
def EditFault.message : EditFault → Text
  | .negativeStart => "start offset is negative"
  | .stopBeforeStart => "end offset is before start offset"
  | .beyondEnd stop size =>
    "end offset " ++ Text.ofInt stop ++ " exceeds content length " ++ Text.ofNat size

/-- The fault of an edit of the range `r` in a source of `size` bytes. -/
def EditFault.of? (r : Range) (size : Nat) : Option EditFault :=
  if r.start < 0 then some .negativeStart
  else if r.stop < r.start then some .stopBeforeStart
  else if (size : Int) < r.stop then some (.beyondEnd r.stop size)
  else none

/-- An edit that was refused. -/
structure RefusedEdit where
  range : Range
  check : Text
  fault : EditFault
deriving DecidableEq

/-- The failure that a refused edit is reported as. -/
def RefusedEdit.failure (e : RefusedEdit) : Failure :=
  { causes := [.invalidEdit]
    message := "invalid edit [" ++ Text.ofInt e.range.start ++ ":" ++ Text.ofInt e.range.stop ++
      "] from " ++ e.check ++ ": " ++ e.fault.message }

end LiquidLint
