import LiquidLint.Fix.Edit

/-!
# Correctors

A corrector collects the edits of one file and applies them. Edits are accepted in the order in which
they were asked for: one that overlaps an accepted edit is dropped, and one that repeats an accepted
edit is passed over. Accepted edits are applied from the end of the source backwards, so that every
offset stays valid, and the result is put into the stored form of the file.
-/

namespace LiquidLint

open Source

/-- An edit that was dropped, and the accepted one that it overlaps. -/
structure Conflict where
  dropped : Edit
  kept : Edit
deriving DecidableEq

/-- How a conflict is shown. -/
def Conflict.describe (c : Conflict) : Text :=
  "edit " ++ c.dropped.describe ++ " dropped: overlaps " ++ c.kept.describe

/-- The edits asked for in one file. -/
structure Corrector where
  file : SourceFile
  /-- The code of the check that edits are attributed to. -/
  check : Text := []
  /-- The edits that fit the source. -/
  edits : List Edit := []
  refused : List RefusedEdit := []
  /-- How many edits were asked for. -/
  seq : Nat := 0

/-- What applying a corrector gives. -/
structure Outcome where
  /-- The new content in its stored form. -/
  content : Text
  /-- Whether it differs from the content before. -/
  changed : Bool := false
  applied : List Edit := []
  conflicts : List Conflict := []

namespace Corrector

/-- Asks for a replacement. -/
def replace (c : Corrector) (r : Range) (text : Text) : Corrector :=
  match EditFault.of? r c.file.source.length with
  | some fault =>
    { c with refused := c.refused ++ [⟨r, c.check, fault⟩], seq := c.seq + 1 }
  | none =>
    { c with
      edits := c.edits ++ [⟨r.start.toNat, r.stop.toNat, text, c.check, c.seq⟩]
      seq := c.seq + 1 }

/-- Asks for an insertion. -/
def insert (c : Corrector) (offset : Int) (text : Text) : Corrector :=
  c.replace ⟨offset, offset⟩ text

/-- Asks for a removal. -/
def remove (c : Corrector) (r : Range) : Corrector := c.replace r []

/-- How an edit stands to those accepted before it. -/
inductive Verdict where
  | accept
  | repeated
  | clash (kept : Edit)

/-- The first accepted edit that `e` repeats or overlaps decides. -/
def judge (e : Edit) : (accepted : List Edit) → Verdict
  | [] => .accept
  | a :: rest =>
    if a.same e then .repeated else if a.overlaps e then .clash a else judge e rest

/-- Accepts or drops the edits one after the other. -/
def settle (accepted : List Edit) (conflicts : List Conflict) : List Edit → List Edit × List Conflict
  | [] => (accepted, conflicts)
  | e :: rest =>
    match judge e accepted with
    | .accept => settle (accepted ++ [e]) conflicts rest
    | .repeated => settle accepted conflicts rest
    | .clash kept => settle accepted (conflicts ++ [⟨e, kept⟩]) rest

/-- The source with accepted edits applied, from the end backwards. -/
def splice (source : Text) (edits : List Edit) : Text :=
  (edits.mergeSort fun a b => Edit.applyOrder a b != .gt).foldl Edit.apply source

/-- Applies the edits to a file whose content is `stored`. -/
def apply (c : Corrector) (stored : Text) : Outcome :=
  let settled := settle [] [] c.edits
  let content :=
    if settled.1.isEmpty then stored else c.file.encode (splice c.file.source settled.1)
  { content, changed := content ≠ stored, applied := settled.1, conflicts := settled.2 }

/-- The refused edits as one failure. -/
def failure? (c : Corrector) : Option Failure :=
  Failure.joined? (c.refused.map RefusedEdit.failure)

/-- The failures of the edits that were refused so far, and the corrector without them. -/
def takeFailures (c : Corrector) : List Failure × Corrector :=
  (c.refused.map RefusedEdit.failure, { c with refused := [] })

end Corrector
end LiquidLint
