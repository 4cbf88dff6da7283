import LiquidLint.Text.CaseRuns
import LiquidLint.Text.Utf8

/-!
# Lower and upper case

Texts change case character by character. A stray byte becomes the replacement character.
-/

namespace LiquidLint
namespace Text

/-- The image of `c` in the first run that has it, or `c` itself. -/
def mapCase (runs : List CaseRun) (c : Char) : Char :=
  match runs.findSome? (·.map? c.toNat) with
  | some n => Char.ofNat n
  | none => c

/-- The text in lower case. -/
def toLower (t : Text) : Text := ofChars ((chars t).map (mapCase lowerRuns))

/-- The text in upper case. -/
def toUpper (t : Text) : Text := ofChars ((chars t).map (mapCase upperRuns))

/-- The text with its ASCII capitals made small. -/
def asciiLower (t : Text) : Text := t.map lowerByte

end Text
end LiquidLint
