import LiquidLint.Run.Result

/-!
# Reports as JSON

Characters that mean something to HTML and the line separators of Unicode are escaped, so that a
report can stand inside a page. What is not well-formed UTF-8 becomes the replacement character.
-/

namespace LiquidLint
namespace Report

/-- A JSON value; the fields of an object keep their order. -/
inductive Json where
  | text (t : Text)
  | number (n : Int)
  | bool (b : Bool)
  | array (items : List Json)
  | object (fields : List (Text × Json))

namespace Json

/-- The escapes of one letter. -/
def shortEscapes : List (Nat × Char) :=
  [(0x22, '"'), (0x5C, '\\'), (0x08, 'b'), (0x0C, 'f'), (0x0A, 'n'), (0x0D, 'r'), (0x09, 't')]

/-- A character of a text. -/
def charText (c : Char) : Text :=
  match shortEscapes.lookup c.toNat with
  | some letter => ['\\', letter]
  | none =>
    if c.toNat < 0x20 || ['<', '>', '&'].contains c || c.toNat = 0x2028 || c.toNat = 0x2029 then
      "\\u" ++ Text.hex 4 c.toNat
    else Text.ofChar c

/-- A text between quotes. -/
def quote (t : Text) : Text := "\"" ++ (Text.chars t).flatMap charText ++ "\""

/-- A line break and the indentation of a level; nothing when no levels are shown. -/
def newLine : Option Nat → Text
  | none => []
  | some level => "\n" ++ Text.times level "  "

mutual

/-- A value at a level of indentation, or without line breaks. -/
def renderAt (level : Option Nat) : Json → Text
  | .text t => quote t
  | .number n => Text.ofInt n
  | .bool b => if b then "true" else "false"
  | .array [] => "[]"
  | .array items => "[" ++ renderItems (level.map (· + 1)) items ++ newLine level ++ "]"
  | .object [] => "\x7b\x7d"
  | .object fields => "\x7b" ++ renderFields (level.map (· + 1)) fields ++ newLine level ++ "\x7d"

/-- The items of an array. -/
def renderItems (level : Option Nat) : List Json → Text
  | [] => []
  | [j] => newLine level ++ renderAt level j
  | j :: rest => newLine level ++ renderAt level j ++ "," ++ renderItems level rest

/-- The fields of an object. -/
def renderFields (level : Option Nat) : List (Text × Json) → Text
  | [] => []
  | (name, j) :: rest =>
    let gap : Text := if level.isSome then ": " else ":"
    let comma : Text := if rest.isEmpty then [] else ","
    newLine level ++ quote name ++ gap ++ renderAt level j ++ comma ++ renderFields level rest

end

/-- A value with a line break after it, on one line or indented. -/
def render (compact : Bool) (j : Json) : Text :=
  renderAt (if compact then none else some 0) j ++ "\n"

end Json

open Json

/-! ## Reports -/

/-- Counts by name. -/
def countsJson (counts : List (Text × Nat)) : Json :=
  .object (counts.map fun c => (c.1, .number c.2))

/-- An offense. -/
def offenseJson (o : Offense) : Json :=
  .object
    [("check", .text o.code), ("severity", .text o.severity.name), ("message", .text o.message),
      ("startLine", .number (o.start.line + 1)), ("startColumn", .number (o.start.column + 1)),
      ("endLine", .number (o.stop.line + 1)), ("endColumn", .number (o.stop.column + 1)),
      ("correctable", .bool o.correctable)]

/-- A file and its offenses. -/
def fileJson (r : Run.Result) (path : Text) : Json :=
  let offenses := (r.offenses.filter fun o => o.path = path).map offenseJson
  let modified : List (Text × Json) :=
    if r.written.contains path then [("modified", .bool true)] else []
  .object ([(("path" : Text), Json.text path), ("offenses", .array offenses)] ++ modified)

/-- The totals of a check. -/
def checkTotalsJson (t : Totals.CheckTotals) : Json :=
  .object
    [("code", .text t.code), ("offenses", .number t.offenses),
      ("correctable", .number t.correctable), ("bySeverity", countsJson t.bySeverity),
      ("files", .array (t.files.map .text))]

/-- The numbers of a run. -/
def summaryJson (r : Run.Result) : Json :=
  .object
    [("filesInspected", .number r.stats.filesAnalyzed),
      ("filesWithOffenses", .number r.stats.filesWithOffenses),
      ("filesCorrected", .number r.stats.filesCorrected),
      ("editsDropped", .number r.stats.editsDropped),
      ("fixErrors", .number r.stats.fixErrors),
      ("totalOffenses", .number r.offenses.length),
      ("correctable", .number r.stats.correctable),
      ("bySeverity", countsJson (Totals.severityCounts r.offenses)),
      ("exitStatus", .number r.exitCode),
      ("byCheck", .array ((Totals.byCheck {} r.offenses).map checkTotalsJson))]

/-- The paths with offenses in their order, then those that were written, each once. -/
def reportedPaths (r : Run.Result) : List Text :=
  (r.offenses.map (·.path) ++ r.written).foldl (fun seen p =>
    if seen.contains p then seen else seen ++ [p]) []

/-- The report of a run. -/
def resultJson (r : Run.Result) : Json :=
  let id : List (Text × Json) := if r.runId.isEmpty then [] else [("runId", .text r.runId)]
  let failures : List (Text × Json) :=
    if r.failures.isEmpty then []
    else [("errors", .array (r.failures.map fun f => Json.text f.message))]
  .object ([(("version" : Text), Json.text "1.0.0")] ++ id ++
    [(("files" : Text), Json.array ((reportedPaths r).map (fileJson r)))] ++ failures ++
    [(("summary" : Text), summaryJson r)])

end Report
end LiquidLint
