import LiquidLint.Analysis.Findings

/-!
# Sessions

A session keeps the latest offenses of each path for an editor, and tells what changed since it was
last asked. Results may arrive out of order: one that was found in an older version of a file never
replaces one that was found in a newer version, and none comes back for a version that was removed.
-/

namespace LiquidLint
namespace Session

/-- What is known of a path. -/
structure Record where
  version : Int
  single : List Offense := []
  project : List Offense := []

/-- The offenses of a record in order. -/
def Record.offenses (r : Record) : List Offense := Offense.sort (r.single ++ r.project)

end Session

/-- The latest offenses of each path. -/
structure Session where
  records : Table Session.Record := {}
  /-- What was told last of each path. -/
  published : Table (List Offense) := {}
  /-- The last version of each path that was removed. -/
  forgotten : Table Int := {}

namespace Session

/-- Whether a result for a version of a path comes too late. -/
def isStale (s : Session) (path : Text) (version : Int) : Bool :=
  (s.records.get? path).any (fun r => version < r.version) ||
    (s.forgotten.get? path).any fun gone => version ≤ gone

/-- Sets the record of a path. -/
def setRecord (s : Session) (path : Text) (r : Record) : Session :=
  { s with records := s.records.insert path r, forgotten := s.forgotten.erase path }

/-- Takes `offenses` as all those of a version of a path; whether this was accepted comes with it. -/
def record (s : Session) (path : Text) (version : Int) (offenses : List Offense) :
    Session × Bool :=
  if s.isStale path version then (s, false)
  else (s.setRecord path { version, single := offenses }, true)

/-- Drops a path, whose last version is known to be at least `version`. -/
def forgetAt (s : Session) (path : Text) (version : Int) : Session :=
  let version := match s.records.get? path with
    | some r => max version r.version
    | none => version
  let version := max version ((s.forgotten.get? path).getD 0)
  { s with
    records := s.records.erase path
    forgotten := if 0 < version then s.forgotten.insert path version else s.forgotten }

/-- Drops a path. -/
def forget (s : Session) (path : Text) : Session := s.forgetAt path 0

/-- The version that a path had when it was dropped, or zero. -/
def forgottenVersion (s : Session) (path : Text) : Int := (s.forgotten.get? path).getD 0

/-! ## Runs -/

/-- The offenses of one path among many. -/
def offensesAt (os : List Offense) (path : Text) : List Offense := os.filter fun o => o.path = path

/-- The version of a path that a run looked at: the one it names, else that of an offense, else the
recorded one. -/
def versionOf (f : Findings) (cur : Option Record) (path : Text) : Int :=
  match f.versions.get? path with
  | some v => v
  | none =>
    match (offensesAt f.single path ++ offensesAt f.project path).find? fun o => 0 < o.version with
    | some o => o.version
    | none => (cur.map (·.version)).getD 0

/-- The record of a path after a run. Offenses of the project are kept where the run did not look at
it, and offenses of the file where it did not visit the file, as long as the version is the same. -/
def recordAfter (f : Findings) (cur : Option Record) (path : Text) (version : Int) : Record :=
  let same := (cur.filter fun r => r.version = version)
  let single := offensesAt f.single path
  { version := version
    single :=
      if f.paths.contains path then single
      else ((same.map (·.single)).getD []) ++ single
    project :=
      if f.projectPass then offensesAt f.project path else (same.map (·.project)).getD [] }

/-- The paths that a run may change. -/
def touched (s : Session) (f : Findings) : List Text :=
  Text.sortDedup (f.paths ++ f.single.map (·.path) ++ f.project.map (·.path) ++
    if f.projectPass then (s.records.filter fun _ r => !r.project.isEmpty).keys else [])

/-- Records a run for one path; whether it was accepted comes with it. -/
def recordPath (s : Session) (f : Findings) (path : Text) : Session × Bool :=
  let cur := s.records.get? path
  let version := versionOf f cur path
  if s.isStale path version then (s, false)
  else (s.setRecord path (recordAfter f cur path version), true)

/-- Records a run; how many paths were updated comes with it. -/
def recordRun (s : Session) (f : Findings) : Session × Nat :=
  (s.touched f).foldl (fun (s, n) path =>
    let (s, updated) := s.recordPath f path
    (s, if updated then n + 1 else n)) (s, 0)

/-! ## Publishing -/

/-- Whether the offenses of a record are news. -/
def isNews (s : Session) (path : Text) (offenses : List Offense) : Bool :=
  match s.published.get? path with
  | some told => offenses ≠ told
  | none => !offenses.isEmpty

/-- What changed since this was last asked, by path; an empty list clears a path. -/
def publish (s : Session) : Session × Table (List Offense) :=
  let news := (s.records.map Record.offenses).filter s.isNews
  let gone := s.published.filter fun path _ => !s.records.contains path
  let cleared := gone.filter fun _ told => !told.isEmpty
  let published := news.entries.foldl (fun t e => t.insert e.1 e.2)
    (s.published.filter fun path _ => s.records.contains path)
  ({ s with published }, cleared.entries.foldl (fun t e => t.insert e.1 []) news)

/-- An offense as editors take it. -/
structure Diagnostic where
  startLine : Nat
  startCharacter : Nat
  stopLine : Nat
  stopCharacter : Nat
  severity : Nat
  code : Text
  source : Text
  message : Text

/-- A number as editors take it; what does not fit 32 bits counts as zero. -/
def wordOf (n : Int) : Nat := if 0 ≤ n && n.toNat < Nat.pow 2 32 then n.toNat else 0

/-- An offense as editors take it. -/
def diagnostic (o : Offense) : Diagnostic :=
  { startLine := wordOf o.start.line
    startCharacter := wordOf o.start.column
    stopLine := wordOf o.stop.line
    stopCharacter := wordOf o.stop.column
    severity := o.severity.rank + 1
    code := o.code
    source := "poscheck"
    message := o.message }

end Session
end LiquidLint
