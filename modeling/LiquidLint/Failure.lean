import LiquidLint.Text.Basic

/-!
# Failures

A failure has a wording and the causes it is rooted in. Wrapping a failure changes the wording and
keeps the causes, so that a caller can tell, say, a missing file from a cancelled run however far
down it happened.
-/

namespace LiquidLint

/-- What a failure is rooted in. -/
inductive Cause where
  /-- The command ends with this status. -/
  | exitStatus (code : Nat)
  /-- There is no such path in the project. -/
  | notFound
  /-- A directory stands where a file was wanted. -/
  | isDirectory
  /-- Nothing is known about the file that was asked about. -/
  | noFileInfo
  /-- The range of an edit does not fit the source. -/
  | invalidEdit
  /-- An analyzer was asked to run twice. -/
  | alreadyRun
  /-- Results were asked for before there were any. -/
  | notAnalyzed
  /-- A configuration was refused. -/
  | invalidConfig
  /-- The run was cancelled. -/
  | cancelled
  /-- The disk has no such file. -/
  | missingFile
  /-- The disk does not permit it. -/
  | permission
  /-- A check found offenses. -/
  | offensesFound
deriving DecidableEq

/-- A failure: its causes and its wording. -/
structure Failure where
  causes : List Cause := []
  message : Text
deriving DecidableEq

namespace Failure

/-- A failure without a particular cause. -/
def plain (message : Text) : Failure := { message }

/-- The failure seen from a wider context. -/
def within (context : Text) (f : Failure) : Failure :=
  { f with message := context ++ ": " ++ f.message }

/-- Several failures as one, a line for each. -/
def joined (fs : List Failure) : Failure :=
  { causes := fs.flatMap causes, message := Text.joinWith "\n" (fs.map message) }

/-- Several failures as one, if there are any. -/
def joined? : List Failure → Option Failure
  | [] => none
  | fs => some (joined fs)

/-- Whether the failure is rooted in a cancellation. -/
def isCancelled (f : Failure) : Bool := f.causes.contains .cancelled

/-- A cancellation. -/
def cancelled : Failure := { causes := [.cancelled], message := "context canceled" }

end Failure
end LiquidLint
