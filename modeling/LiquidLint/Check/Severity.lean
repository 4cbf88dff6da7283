import LiquidLint.Failure
import LiquidLint.Text.Blank
import LiquidLint.Text.Case
import LiquidLint.Text.Quoted

/-!
# Severities

How much an offense matters. Three names have a rank of their own; any other name is carried along
and ranks with the least severe.
-/

namespace LiquidLint

/-- The importance of an offense, by name. -/
structure Severity where
  name : Text
deriving DecidableEq

namespace Severity

/-- The project does not work. -/
def error : Severity := ⟨"error"⟩

/-- The project could be better. -/
def suggestion : Severity := ⟨"suggestion"⟩

/-- The project could look better. -/
def style : Severity := ⟨"style"⟩

/-- The place of a severity in the order, the most severe first. -/
def rank (s : Severity) : Nat := if s = error then 0 else if s = suggestion then 1 else 2

/-- The severity with a name in any case and with blanks around it. -/
def ofName (t : Text) : Except Failure Severity :=
  let s : Severity := ⟨Text.toLower (Text.trimSpace t)⟩
  if s = error || s = suggestion || s = style then .ok s
  else .error (.plain
    ("unknown severity " ++ Text.quoted t ++ " (want error, suggestion or style)"))

end Severity
end LiquidLint
