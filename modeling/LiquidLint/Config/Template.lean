import LiquidLint.Text.Blank

/-!
# Templates of configurations

The files that a new project starts with: a short one, and one that lists the checks with their
documentation.
-/

namespace LiquidLint
namespace Template

/-- What a template says about a check. -/
structure Section where
  code : Text
  doc : Text := []
  severity : Text := []
  categories : List Text := []
  wholeProject : Bool := false
  correctable : Bool := false

/-- The words of a comment on lines of at most `width` bytes; a longer word has a line of its own. -/
def wrapWords (width : Nat) (line : Text) : List Text → List Text
  | [] => if line.isEmpty then [] else [line]
  | word :: rest =>
    if line.isEmpty then wrapWords width word rest
    else if line.length + 1 + word.length ≤ width then
      wrapWords width (line ++ " " ++ word) rest
    else line :: wrapWords width word rest

/-- A comment, on several lines if it is longer than `width`. -/
def wrapComment (width : Nat) (t : Text) : Text :=
  if t.length ≤ width then t else Text.joinWith "\n# " (wrapWords width [] (Text.words t))

/-- The section of a check. -/
def Section.render (s : Section) : Text :=
  let categories : Text :=
    if s.categories.isEmpty then []
    else "# Applies to: " ++ Text.joinWith ", " s.categories ++ "\n"
  let scope : Text := if s.wholeProject then "# Whole project: yes\n" else []
  let fixes : Text := if s.correctable then "# Auto-fix: yes\n" else []
  "\n# " ++ wrapComment 70 s.doc ++ "\n" ++ categories ++ scope ++ fixes ++ s.code ++ ":\n  enabled: true\n  severity: " ++ s.severity ++
    "\n  # ignore:\n  #   - \"app/views/partials/legacy/**\"\n"

/-- The short template. -/
def short : Text :=
  "# poscheck configuration\n" ++
  "# See: https://github.com/yaklabco/poscheck\n\n" ++
  "# Baseline: \"default\" enables every check, \"nothing\" enables none.\n" ++
  "extends: default\n\n" ++
  "# File patterns no check looks at (glob patterns, ** matches directories)\n" ++
  "ignore:\n  - \"node_modules/**\"\n\n" ++
  "# Per-check configuration, keyed by check code\n" ++
  "# SpaceInsideBraces:\n" ++
  "#   enabled: true\n" ++
  "#   severity: style\n" ++
  "#   ignore:\n" ++
  "#     - \"app/views/partials/legacy/**\"\n"

/-- What the full template starts with. -/
def fullHead : Text :=
  "# poscheck configuration - Full Template\n" ++
  "# See: https://github.com/yaklabco/poscheck\n#\n" ++
  "# This template lists every check with its default settings.\n\n" ++
  "# Baseline: \"default\" enables every check, \"nothing\" enables none.\n" ++
  "extends: default\n\n" ++
  "# File patterns no check looks at (glob patterns, ** matches directories)\n" ++
  "ignore:\n  - \"node_modules/**\"\n\n" ++
  "# Sidecar backups written next to fixed files\n" ++
  "backups:\n  enabled: false\n  mode: sidecar\n"

/-- The full template: the sections sorted by code, or those of `only` when it names some. -/
def full (sections : List Section) (only : List Text) : Text :=
  let chosen := if only.isEmpty then sections else sections.filter fun s => only.contains s.code
  fullHead ++ (chosen.mergeSort fun a b => Text.le a.code b.code).flatMap Section.render

end Template
end LiquidLint
