import LiquidLint.Report.Json
import LiquidLint.Report.Summary

/-!
# Reports

The result of a run as text for a reader, as JSON, or as the differences that corrections make.
-/

namespace LiquidLint
namespace Report

/-- The form of a report. -/
inductive Format where
  | text
  | json
  | diff
deriving DecidableEq

namespace Format

/-- The name of a form. -/
def name : Format → Text
  | .text => "text"
  | .json => "json"
  | .diff => "diff"

/-- The form with exactly this name. -/
def ofName? (t : Text) : Option Format := [.text, .json, .diff].find? fun f => f.name = t

/-- The form that a user asks for; an empty name stands for text. -/
def parse (t : Text) : Except Failure Format :=
  if t.isEmpty then .ok .text
  else
    match ofName? t with
    | some f => .ok f
    | none =>
      .error (.plain ("unknown format " ++ Text.quoted t ++ "; valid formats: text, json, diff"))

/-- The form with a name, which has been checked before; an empty name stands for text. -/
def require (t : Text) : Except Failure Format :=
  if t.isEmpty then .ok .text
  else
    match ofName? t with
    | some f => .ok f
    | none => .error (.plain ("unsupported format: " ++ t))

end Format

/-- How a report looks. -/
structure Options where
  format : Format := .text
  colored : Bool := false
  /-- Whether the lines of source are shown. -/
  context : Bool := false
  /-- Whether the numbers of the run are shown. -/
  summary : Bool := false
  /-- Whether offenses stand under the name of their file. -/
  grouped : Bool := false
  /-- Whether JSON is written on one line. -/
  compact : Bool := false
  /-- Whether the totals of checks are shown. -/
  byCheck : Bool := false

/-! ## Text -/

/-- One offense. -/
def writeOffense (o : Options) (r : Run.Result) (x : Offense) : Text :=
  offenseText o.colored x (if o.context then some (r.sourceLine x.path x.start.line) else none)

/-- The offenses of one file after the other. -/
def writeGroups (o : Options) (r : Run.Result) : Text :=
  (r.offenses.splitBy fun a b => a.path = b.path).flatMap fun group =>
    match group with
    | [] => []
    | x :: _ =>
      fileHeader o.colored x.path group.length ++ "\n" ++ group.flatMap (writeOffense o r) ++ "\n"

/-- The totals of the checks. -/
def writeTotals (o : Options) (r : Run.Result) : Text :=
  let totals := Totals.byCheck {} r.offenses
  let width := totals.foldl (fun w t => max w t.code.length) 0
  let line (t : Totals.CheckTotals) : Text :=
    let pad := List.replicate (width - (Text.units t.code).length) (0x20 : UInt8)
    let note : Text :=
      if 0 < t.correctable then
        paint o.colored .dim (", " ++ Text.ofNat t.correctable ++ " correctable")
      else []
    "  " ++ t.code ++ pad ++ "  " ++ Text.ofNat t.offenses ++ " in " ++
      counted t.files.length "file" "files" ++ note ++ "\n"
  paint o.colored .title "By check" ++ "\n" ++ totals.flatMap line ++ "\n"

/-- The report as text. -/
def writeText (o : Options) (r : Run.Result) : Text :=
  let offenses := if o.grouped then writeGroups o r else r.offenses.flatMap (writeOffense o r)
  let totals := if o.byCheck && r.hasIssues then writeTotals o r else []
  let failures := r.failures.flatMap fun f =>
    (paint o.colored .error ("error: " ++ f.message) ++ "\n" : Text)
  let numbers := if o.summary then oneLine o.colored r.stats else []
  offenses ++ totals ++ failures ++ numbers

/-! ## Differences -/

/-- The role of a line of a difference. -/
def diffRole (line : Text) : Role :=
  if Text.startsWith line "@@" then .diffHunk
  else if Text.startsWith line "+" then .diffAdd
  else if Text.startsWith line "-" then .diffRemove
  else .diffContext

/-- The difference that one correction makes. -/
def writeDiff (o : Options) (d : Diff) : Text :=
  let header := paint o.colored .diffHeader ("diff --git a/" ++ d.path ++ " b/" ++ d.path)
  let lines := Text.splitAtByte (Text.trimEndText d.render "\n") '\n'
  header ++ "\n" ++
    lines.flatMap (fun l => (paint o.colored (diffRole l) l ++ "\n" : Text)) ++ "\n"

/-- The numbers of differences. -/
def diffSummary (o : Options) (ds : List Diff) : Text :=
  let additions := sumOf (ds.map (·.additions))
  let deletions := sumOf (ds.map (·.deletions))
  let part (role : Role) (n : Nat) (word mark : Text) : List Text :=
    if 0 < n then [paint o.colored role (counted n word (word ++ "s") ++ mark)] else []
  Text.joinWith ", "
    ((counted ds.length "file" "files" ++ " changed") ::
      part .diffAdd additions "insertion" "(+)" ++ part .diffRemove deletions "deletion" "(-)") ++
    "\n"

/-- The differences that the corrections of a run make. -/
def diffs (r : Run.Result) : List Diff :=
  (r.corrections.filter (·.changed)).filterMap Correction.diff?

/-- The report as differences. -/
def writeDiffs (o : Options) (r : Run.Result) : Text :=
  let ds := diffs r
  ds.flatMap (writeDiff o) ++ if !ds.isEmpty && o.summary then diffSummary o ds else []

/-! ## Writing -/

/-- A report and how many things it tells of. -/
structure Written where
  count : Nat
  text : Text

/-- The report of a run; without a result, only JSON says anything. -/
def write (o : Options) (result : Option Run.Result) : Written :=
  match o.format with
  | .json =>
    let r := result.getD {}
    ⟨r.offenses.length, (resultJson r).render o.compact⟩
  | .text =>
    match result with
    | none => ⟨0, []⟩
    | some r => ⟨r.offenses.length, writeText o r⟩
  | .diff =>
    match result with
    | none => ⟨0, []⟩
    | some r => ⟨(diffs r).length, writeDiffs o r⟩

/-- How many bytes are collected before they are passed on. -/
def bufferSize : Nat := 65536

/-- The report of a run, handed to a receiver that takes nothing if `broken` is its failure. An empty
report never meets the failure. -/
def deliver (o : Options) (broken : Option Failure) (result : Option Run.Result) :
    Except Failure Written :=
  let w := write o result
  match broken with
  | none => .ok w
  | some f =>
    if w.text.isEmpty then .ok w
    else
      match o.format with
      | .text => .error f
      | .json => .error (if bufferSize < w.text.length then f.within "encode JSON" else f)
      | .diff => .error (f.within "write diff")

end Report
end LiquidLint
