import LiquidLint.Analysis.Analyzer
import LiquidLint.Disk.Store
import LiquidLint.Report.Summary
import LiquidLint.Run.Selection
import LiquidLint.Session
import LiquidLint.Store.Memory

/-!
# Watching a project

A watcher keeps a copy of the files of a project, with a version for each, and a session with their
offenses. When files change on the disk, the copy is refreshed, the changed files are analysed, and
what is new is printed. Checks of the whole project run again only once something changed.

Removed files are forgotten with their version. A file that comes back goes on above that version,
so that late results for its previous life are not taken for the new one.
-/

namespace LiquidLint

open Analysis

/-- The state of watching a project. -/
structure Watcher where
  /-- The directory of the project. -/
  root : Text
  selection : Selection
  checks : List Check
  options : AnalyzerOptions
  colored : Bool := false
  /-- The copy of the project. -/
  store : VersionedStore := {}
  session : Session := {}
  /-- Whether something changed since the last analysis of the whole project. -/
  dirty : Bool := false
  runId : Text := []

namespace Watcher

/-- What a step of a watcher came to: its result, the watcher after it, what it printed, and the
surroundings. -/
structure Step (α : Type) where
  outcome : Except Failure α
  watcher : Watcher
  printed : Text := []
  around : Surroundings := {}

/-- A watcher of a project, unless the configuration cannot be used. -/
def ofConfig (root : Text) (c : Config) (registry : Registry) (colored : Bool) (runId : Text) :
    Except Failure Watcher :=
  match Selection.ofConfig c with
  | .error f => .error f
  | .ok selection =>
    match Run.analyzerOptions c registry selection with
    | .error f => .error f
    | .ok options =>
      .ok { root, selection, options, checks := Run.checksOf c registry, colored, runId }

/-- The project on a disk. -/
def project (w : Watcher) (d : Disk) : DiskStore := { disk := d, root := w.root }

/-- The content of a path as far as it is needed; otherwise it is only known that the path is
there. -/
def contentOf (w : Watcher) (d : Disk) (path : Text) : Except Failure Text :=
  if w.selection.loads path then (w.project d).read path else .ok []

/-- The line for a file that cannot be read. -/
def readEntry (path : Text) (f : Failure) : Log.Entry :=
  ⟨.warn, "read failed", [("path", path), ("error", f.message)]⟩

/-! ## Taking over files -/

/-- Takes over files one after the other; those that cannot be read are left out. -/
def loadAll (w : Watcher) (d : Disk) (around : Surroundings) : List Text → Step Unit
  | [] => ⟨.ok (), w, [], around⟩
  | path :: rest =>
    if around.cancelled then ⟨.error (Failure.cancelled.within "load cancelled"), w, [], around⟩
    else
      match w.contentOf d path with
      | .error f => loadAll w d { around with log := around.log ++ [readEntry path f] } rest
      | .ok content => loadAll { w with store := w.store.write path content } d around rest

/-- Takes over every file of the project. -/
def load (w : Watcher) (d : Disk) (around : Surroundings) : Step Unit :=
  w.loadAll d around (w.project d).paths

/-- Whether a path lies below another one. -/
def isBelow (path above : Text) : Bool := Text.startsWith path (above ++ "/")

/-- The paths that may have changed with a path: itself, what the copy has below it, and what the
disk has below it. -/
def candidatesOf (w : Watcher) (d : Disk) (path : Text) : List Text :=
  let onDisk := if d.isDirectory ((w.project d).absolute path) then (w.project d).paths else []
  path :: (w.store.docs.keys ++ onDisk).filter fun p => isBelow p path

/-- Lets go of a path that is no longer there. -/
def forget (w : Watcher) (path : Text) : Watcher :=
  { w with
    session := w.session.forgetAt path (w.store.version path)
    store := w.store.remove path
    dirty := true }

/-- Takes over a new content of a path. -/
def update (w : Watcher) (path content : Text) : Watcher :=
  if w.store.docs.contains path then
    { w with
      store := w.store.write path content
      dirty := w.dirty || w.selection.loads path }
  else
    let gone := w.session.forgottenVersion path
    { w with
      store :=
        if 0 < gone then w.store.writeVersion path content (gone + 1)
        else w.store.write path content
      dirty := true }

/-- Brings one path in line with the disk. The result tells whether it is to be analysed. -/
def refreshPath (w : Watcher) (d : Disk) (path : Text) : Watcher × Bool × List Log.Entry :=
  if Disk.isBackup path then (w, false, [])
  else if !(w.project d).has path then
    if w.store.docs.contains path then
      (w.forget path, false, [⟨.debug, "file removed", [("path", path)]⟩])
    else (w, false, [])
  else
    match w.contentOf d path with
    | .error f => (w, false, [readEntry path f])
    | .ok content =>
      match w.store.read path with
      | .ok old =>
        if old = content then (w, false, [])
        else (w.update path content, w.selection.loads path, [])
      | .error _ => (w.update path content, w.selection.loads path, [])

/-- Brings paths in line with the disk one after the other; `changed` are those to be analysed. -/
def refreshAll (w : Watcher) (d : Disk) (around : Surroundings) (changed : List Text) :
    List Text → Step (List Text)
  | [] => ⟨.ok changed, w, [], around⟩
  | path :: rest =>
    let (w, isChanged, entries) := w.refreshPath d path
    refreshAll w d { around with log := around.log ++ entries }
      (if isChanged then changed ++ [path] else changed) rest

/-- Brings paths, and all below them, in line with the disk. The result is the paths that are to be
analysed. -/
def refresh (w : Watcher) (d : Disk) (around : Surroundings) (paths : List Text) :
    Step (List Text) :=
  w.refreshAll d around [] (Text.sortDedup (paths.flatMap (w.candidatesOf d)))

/-! ## Analysing -/

/-- What is printed of the offenses of a path; a path without any is clean. -/
def printPath (colored : Bool) (path : Text) (offenses : List Offense) : Text :=
  if offenses.isEmpty then
    Report.paint colored .filePath path ++ " " ++ Report.paint colored .success "clean" ++ "\n"
  else
    Report.fileHeader colored path offenses.length ++ "\n" ++
      offenses.flatMap fun o => Report.offenseText colored o none

/-- Records what an analyzer found, and prints what is new. -/
def record (w : Watcher) (call : Call Unit) : Step Unit :=
  match call.outcome with
  | .error f => ⟨.error (f.within "analyze"), w, [], call.around⟩
  | .ok () =>
    let found := call.analyzer.findings
    let (session, updated) := w.session.recordRun found
    let (session, news) := session.publish
    let entry : Log.Entry := ⟨.debug, "run recorded",
      [("run_id", w.runId), ("files", Text.ofNat found.paths.length),
        ("scope", if found.projectPass then "project" else "files"),
        ("updated", Text.ofNat updated)]⟩
    ⟨.ok (), { w with session },
      news.entries.flatMap fun (path, offenses) => printPath w.colored path offenses,
      { call.around with log := call.around.log ++ [entry] }⟩

/-- An analyzer over the copy. -/
def analyzer (w : Watcher) : Analyzer :=
  { snapshot := w.store.snapshot, checks := w.checks, options := w.options, runId := w.runId }

/-- Analyses some files. -/
def analyzeFiles (w : Watcher) (around : Surroundings) (paths : List Text) : Step Unit :=
  if paths.isEmpty then ⟨.ok (), w, [], around⟩
  else w.record (w.analyzer.analyzeFiles around paths true)

/-- Analyses the whole project. -/
def analyzeProject (w : Watcher) (around : Surroundings) : Step Unit :=
  { w with dirty := false }.record (w.analyzer.analyzeProject around)

/-! ## Following changes -/

/-- Takes the project over and analyses it. -/
def begin (w : Watcher) (d : Disk) (around : Surroundings) : Step Unit :=
  match d.look "lstat" w.root with
  | .error f => ⟨.error (f.within ("watch " ++ w.root)), w, [], around⟩
  | .ok _ =>
    let loaded := w.load d around
    match loaded.outcome with
    | .error f => { loaded with outcome := .error f }
    | .ok () =>
      let step := loaded.watcher.analyzeProject loaded.around
      match step.outcome with
      | .error f => { step with outcome := .error f }
      | .ok () =>
        { step with
          around := { step.around with
            log := step.around.log ++ [⟨.info, "watching for changes", []⟩] } }

/-- Whether a change at a path counts. -/
def follows (path : Text) : Bool :=
  path ≠ "." && !(Text.splitAtByte path '/').any Disk.skippedDirectories.contains

/-- Reacts to changes: changed files are analysed, and the whole project too if `whole` allows it
and something changed. -/
def react (w : Watcher) (d : Disk) (around : Surroundings) (whole : Bool) (paths : List Text) :
    Step Unit :=
  let refreshed := w.refresh d around (paths.filter follows)
  let changed := match refreshed.outcome with
    | .ok paths => paths
    | .error _ => []
  let single := refreshed.watcher.analyzeFiles refreshed.around changed
  if whole && single.watcher.dirty then
    let step := single.watcher.analyzeProject single.around
    { step with printed := single.printed ++ step.printed }
  else single

end Watcher
end LiquidLint
