import LiquidLint.Rule.Assignment
import LiquidLint.Rule.Deprecation
import LiquidLint.Rule.Element
import LiquidLint.Rule.Reference
import LiquidLint.Rule.Spacing
import LiquidLint.Rule.Syntax

/-!
# The built-in checks
-/

namespace LiquidLint
namespace Rule

/-- Every built-in check. -/
def all : List Check :=
  [syntaxError, spaceInsideBraces, unusedAssign, deprecatedTag, parserBlockingJavascript,
    imgWidthAndHeight, htmlParsingError, validYaml, missingTemplate, unusedPartial]

/-- The registry of the built-in checks. -/
def registry : Registry := .ofList all

end Rule
end LiquidLint
