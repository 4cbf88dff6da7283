import LiquidLint.Text.Width

/-!
# Styles of texts on a terminal

Every part of a report has a role, and with colours each role has codes that stand around its text.
Tabs become four spaces in either case.
-/

namespace LiquidLint
namespace Report

/-- What a piece of a report is. -/
inductive Role where
  | error
  | suggestion
  | style
  | filePath
  | checkCode
  | message
  | correctable
  | sourceLine
  | caret
  | diffHeader
  | diffHunk
  | diffAdd
  | diffRemove
  | diffContext
  | title
  | value
  | success
  | failure
  | dim
  | helpCommand
  | helpHeading
  | helpName
  | helpFlag
deriving DecidableEq

/-- The codes of a role; without any, a text has no style. -/
def Role.codes : Role → List Nat
  | .error | .failure => [1, 91]
  | .suggestion => [1, 93]
  | .style => [1, 94]
  | .filePath | .diffHeader | .title => [1]
  | .checkCode | .diffContext | .dim => [90]
  | .message | .value => []
  | .correctable => [3, 92]
  | .sourceLine => [37]
  | .caret | .diffRemove => [91]
  | .diffHunk => [96]
  | .diffAdd => [92]
  | .success => [1, 92]
  | .helpCommand => [1, 96]
  | .helpHeading => [1, 93]
  | .helpName => [92]
  | .helpFlag => [94]

/-- A line between its codes. -/
def paintLine (codes : List Nat) (line : Text) : Text :=
  "\x1b[" ++ Text.joinWith ";" (codes.map Text.ofNat) ++ "m" ++ line ++ "\x1b[0m"

/-- The lines of a text between codes, filled up with spaces to the widest one. -/
def paintLines (codes : List Nat) (t : Text) : Text :=
  let lines := Text.splitAtByte t '\n'
  let width := lines.foldl (fun w l => max w (Text.cellWidth l)) 0
  Text.joinWith "\n" (lines.map fun l =>
    paintLine codes l ++ List.replicate (width - Text.cellWidth l) 0x20)

/-- A text in a role. -/
def paint (colored : Bool) (role : Role) (t : Text) : Text :=
  let t := Text.replaceText t "\t" "    "
  if !colored || role.codes.isEmpty then t
  else paintLines role.codes (Text.replaceText t "\r\n" "\n")

/-- Whether a report that is not written to a terminal is coloured. -/
def wantsColor (mode : Text) : Bool := mode = "always"

end Report
end LiquidLint
