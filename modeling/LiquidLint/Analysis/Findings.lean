import LiquidLint.Check.Offense
import LiquidLint.Table

/-!
# Findings of a run

What an analysis found: the offenses of single files and those of the project, in the order in which
they were raised, and which version of which file was looked at.
-/

namespace LiquidLint

/-- The code of the offense that a broken check leaves. -/
def internalErrorCode : Text := "InternalError"

/-- The code of the offense that an unreadable file leaves. -/
def storageErrorCode : Text := "StorageError"

/-- The path of offenses that belong to no file. -/
def projectPath : Text := "."

/-- What a run found. -/
structure Findings where
  /-- The files that were looked at one by one, in order. -/
  paths : List Text := []
  /-- The version of each of them. -/
  versions : Table Int := {}
  /-- The offenses of single files. -/
  single : List Offense := []
  /-- The offenses of the project. -/
  project : List Offense := []
  /-- Whether the project was looked at as a whole. -/
  projectPass : Bool := false

namespace Findings

/-- Every offense, as it was raised. -/
def raised (f : Findings) : List Offense := f.single ++ f.project

/-- Every offense in order. -/
def offenses (f : Findings) : List Offense := Offense.sort f.raised

/-- The offenses of one path in order. -/
def offensesOf (f : Findings) (path : Text) : List Offense :=
  f.offenses.filter fun o => o.path = path

/-- Whether an offense tells of a failure of the run itself. -/
def isInternal (o : Offense) : Bool := o.code = internalErrorCode || o.code = storageErrorCode

/-- Whether something failed during the run. -/
def hasInternalErrors (f : Findings) : Bool := f.raised.any isInternal

end Findings
end LiquidLint
