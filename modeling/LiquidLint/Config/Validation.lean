import LiquidLint.Check.Basic
import LiquidLint.Config.Basic
import LiquidLint.Glob.Compile

/-!
# Validation of configurations

A configuration is refused for what would fail at run time: a word that is not known, a negative
number of jobs, an unknown severity or a pattern that cannot be read. A check that is not known is
only a warning.
-/

namespace LiquidLint

/-- What is said about a field of a configuration. -/
structure Finding where
  /-- The field; empty where there is none. -/
  field : Text := []
  message : Text
  /-- The file of the configuration, if it is known. -/
  file : Text := []

/-- The wording of a finding. -/
def Finding.line (f : Finding) : Text :=
  Text.joinWith ": " ([f.file, f.field].filter (· ≠ []) ++ [f.message])

/-- What a validation finds. -/
structure Validation where
  errors : List Finding := []
  warnings : List Finding := []

namespace Validation

/-- Whether there are no errors. -/
def isValid (v : Validation) : Bool := v.errors.isEmpty

/-- All findings as lines. -/
def lines (v : Validation) : List Text :=
  (v.errors.map fun f => ("error: " ++ f.line : Text)) ++
    v.warnings.map fun f => ("warning: " ++ f.line : Text)

/-- The findings with the file that they are about. -/
def inFile (v : Validation) (file : Text) : Validation where
  errors := v.errors.map fun f => { f with file }
  warnings := v.warnings.map fun f => { f with file }

/-- The first error as a failure. -/
def failure? (v : Validation) : Option Failure :=
  v.errors.head?.map fun f => { causes := [.invalidConfig], message := f.line }

end Validation

namespace Config

/-- The finding that a word is not one of those allowed; the empty word always is. -/
def wordFinding (field what : Text) (allowed : List Text) (word : Text) : List Finding :=
  if word.isEmpty || allowed.contains word then []
  else [{ field
          message := "invalid " ++ what ++ " " ++ Text.quoted word ++ "; must be one of: " ++
            Text.joinWith ", " allowed }]

/-- The findings that patterns cannot be read. -/
def patternFindings (field : Text) (patterns : List Text) : List Finding :=
  patterns.zipIdx.flatMap fun (p, i) =>
    match PathPatterns.readOne p with
    | .ok _ => []
    | .error e => [{ field := field ++ "[" ++ Text.ofNat i ++ "]", message := e.message }]

/-- The finding that a severity is not known. -/
def severityFinding (field : Text) (severity : Option Text) : List Finding :=
  match severity.map Severity.ofName with
  | some (.error e) => [{ field, message := e.message }]
  | _ => []

/-- Validates a configuration. With a registry, checks that it does not have are warned about. -/
def validate (c : Config) (registry : Option Registry) : Validation where
  errors :=
    wordFinding "extends" "extends" ["default", "nothing"] c.baseline ++
    wordFinding "format" "format" ["text", "json", "diff"] c.format ++
    (if c.jobs < 0 then [{ field := "jobs", message := "jobs must be >= 0 (0 means auto)" }]
      else []) ++
    wordFinding "backups.mode" "backup mode" ["sidecar", "none"] c.backups.mode ++
    patternFindings "ignore" (c.ignore.getD []) ++
    c.checks.entries.flatMap fun (code, s) =>
      severityFinding (code ++ ".severity") s.severity ++
        patternFindings (code ++ ".ignore") (s.ignore.getD [])
  warnings :=
    let isKnown (code : Text) : Bool := registry.all fun r => r.checks.contains code
    ((c.checks.keys.filter fun code => !isKnown code).map fun code =>
      { field := code
        message := "unknown check " ++ Text.quoted code ++ "; it will be ignored" }) ++
    (((c.enable.getD [] ++ c.disable.getD []).filter fun code => !isKnown code).map fun code =>
      { message := "unknown check " ++ Text.quoted code ++ " on the command line" })

end Config
end LiquidLint
