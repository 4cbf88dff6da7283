import LiquidLint.Check.Basic

/-!
# Problems of the readers

Three checks pass on the warnings with which a file was read: those of templates, of HTML and of
YAML.
-/

namespace LiquidLint
namespace Rule

open Source

/-- The check that reports the warnings of one reader at the end of each file, their messages
after `lead`. -/
def warningCheck (info : CheckInfo) (origin : WarningOrigin) (lead : Text) : Check :=
  { info
    onVisit := fun _ visit =>
      match visit with
      | .node _ _ _ => {}
      | .endFile f =>
        .reports ((f.warningsFrom origin).map fun w =>
          { message := lead ++ w.message, range := some ⟨w.offset, w.offset⟩ }) }

/-- Reports problems of templates. -/
def syntaxError : Check :=
  warningCheck
    { code := "SyntaxError"
      severity := .error
      categories := [.liquid]
      doc := "Reports Liquid syntax errors" }
    .liquid []

/-- Reports problems of HTML. -/
def htmlParsingError : Check :=
  warningCheck
    { code := "HTMLParsingError"
      severity := .error
      categories := [.html]
      doc := "Reports HTML that cannot be parsed into a well-formed tree" }
    .html []

/-- Reports problems of YAML. -/
def validYaml : Check :=
  warningCheck
    { code := "ValidYaml"
      severity := .error
      categories := [.yaml]
      doc := "Reports invalid YAML" }
    .yaml "Invalid YAML: "

end Rule
end LiquidLint
