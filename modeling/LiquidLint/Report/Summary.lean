import LiquidLint.Report.Style
import LiquidLint.Run.Result

/-!
# Offenses and numbers for a reader

How single offenses, the lines of source they point at and the numbers of a run are shown.
-/

namespace LiquidLint
namespace Report

/-- The word for one thing or for several. -/
def plural (n : Int) (one many : Text) : Text := if n = 1 then one else many

/-- A number and the word for what it counts. -/
def counted (n : Int) (one many : Text) : Text := Text.ofInt n ++ " " ++ plural n one many

/-! ## Offenses -/

/-- A severity; one that is not known has no style. -/
def severityText (colored : Bool) (s : Severity) : Text :=
  if s = .error then paint colored .error s.name
  else if s = .suggestion then paint colored .suggestion s.name
  else if s = .style then paint colored .style s.name
  else s.name

/-- A line of source with a caret under a one-based column. -/
def sourceText (colored : Bool) (line : Text) (column : Int) : Text :=
  let indent : Text := "        "
  let shown := indent ++ paint colored .sourceLine line ++ "\n"
  if 0 < column then
    shown ++ indent ++ Text.times (column - 1).toNat " " ++ paint colored .caret "^" ++ "\n"
  else shown

/-- An offense, with the line of source that it points at if there is one to show. -/
def offenseText (colored : Bool) (o : Offense) (source : Option Text) : Text :=
  let place := ":" ++ Text.ofInt (o.start.line + 1) ++ ":" ++ Text.ofInt (o.start.column + 1)
  let head := "  " ++ paint colored .filePath o.path ++ place ++ "  " ++
    severityText colored o.severity ++ "  " ++ paint colored .message o.message ++ "  " ++
    paint colored .checkCode ("(" ++ o.code ++ ")") ++ "\n"
  let context := match source with
    | none | some [] => []
    | some line => sourceText colored line (o.start.column + 1)
  let hint : Text :=
    if o.correctable then "    " ++ paint colored .correctable "correctable with --fix" ++ "\n"
    else []
  head ++ context ++ hint

/-- The line above the offenses of a file. -/
def fileHeader (colored : Bool) (path : Text) (count : Int) : Text :=
  let note : Text :=
    if count ≤ 0 then []
    else paint colored .dim (" (" ++ counted count "offense" "offenses" ++ ")")
  paint colored .filePath path ++ note

/-! ## Numbers -/

/-- What became of corrections that did not go through. -/
def fixNotes (colored : Bool) (s : Run.Stats) : List Text :=
  (if 0 < s.editsDropped then
    [paint colored .suggestion (counted s.editsDropped "edit" "edits" ++ " dropped")] else []) ++
  (if 0 < s.fixErrors then
    [paint colored .failure (counted s.fixErrors "fix" "fixes" ++ " failed")] else [])

/-- What was corrected. -/
def correctedNote (colored : Bool) (s : Run.Stats) : List Text :=
  if 0 < s.filesCorrected then
    [paint colored .success (Text.ofInt s.editsApplied ++ " corrected in " ++
      counted s.filesCorrected "file" "files")]
  else []

/-- The numbers of the severities that there are offenses of. -/
def severityNotes (colored : Bool) (s : Run.Stats) : List Text :=
  let note (role : Role) (n : Int) (words : Text) : List Text :=
    if 0 < n then [paint colored role (Text.ofInt n ++ " " ++ words)] else []
  let errors := s.count .error
  let suggestions := s.count .suggestion
  note .error errors (plural errors "error" "errors") ++
    note .suggestion suggestions (plural suggestions "suggestion" "suggestions") ++
    note .style (s.count .style) "style"

/-- The numbers of a run on one line. -/
def oneLine (colored : Bool) (s : Run.Stats) : Text :=
  let first : Text :=
    if s.offenses = 0 then
      paint colored .success "No offenses found" ++
        paint colored .dim (" (" ++ Text.ofInt s.filesAnalyzed ++ " files inspected)")
    else
      let severities : Text := match severityNotes colored s with
        | [] => []
        | notes => " (" ++ Text.joinWith ", " notes ++ ")"
      counted s.offenses "offense" "offenses" ++ severities ++ " in " ++
        counted s.filesWithOffenses "file" "files"
  let correctable : List Text :=
    if s.offenses ≠ 0 && decide (0 < s.correctable) then
      [paint colored .success (Text.ofInt s.correctable ++ " correctable")]
    else []
  Text.joinWith ", "
    (first :: correctable ++ correctedNote colored s ++ fixNotes colored s) ++ "\n"

/-- A line of the summary, unless its number is zero. -/
def summaryLine (colored : Bool) (label : Text) (role : Role) (n : Int) : Text :=
  if 0 < n then label ++ paint colored role (Text.ofInt n) ++ "\n" else []

/-- How a run ended, in words. -/
def verdict (colored : Bool) (s : Run.Stats) : Text :=
  if 0 < s.count .error then paint colored .failure "Check failed with errors"
  else if 0 < s.offenses then paint colored .suggestion "Check completed with offenses"
  else paint colored .success "Check passed"

/-- The numbers of a run as a block. -/
def summary (colored : Bool) (s : Run.Stats) : Text :=
  "\n" ++ paint colored .title "Summary" ++ "\n" ++ Text.times 40 "-" ++ "\n" ++
    "  Files inspected:      " ++ paint colored .value (Text.ofInt s.filesAnalyzed) ++ "\n" ++
    summaryLine colored "  Files with offenses:  " .failure s.filesWithOffenses ++
    summaryLine colored "  Files corrected:      " .success s.filesCorrected ++
    summaryLine colored "  Files skipped:        " .dim s.filesSkipped ++
    summaryLine colored "  Edits dropped:        " .suggestion s.editsDropped ++
    summaryLine colored "  Fixes failed:         " .failure s.fixErrors ++
    "\n  Total offenses:       " ++ paint colored .value (Text.ofInt s.offenses) ++ "\n" ++
    summaryLine colored "    Errors:             " .error (s.count .error) ++
    summaryLine colored "    Suggestions:        " .suggestion (s.count .suggestion) ++
    summaryLine colored "    Style:              " .style (s.count .style) ++
    "\n" ++ verdict colored s ++ "\n"

end Report
end LiquidLint
