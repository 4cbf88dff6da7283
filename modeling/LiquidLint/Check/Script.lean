import LiquidLint.Check.Basic

/-!
# Scripted checks

A check given as data: lists of actions for events, for the end of a file and for the end of a run.
Such checks show what an analysis does with checks that report, break down, cancel the run or attach
fixes.
-/

namespace LiquidLint
namespace Script

open Source

/-- One thing that a scripted fix does. -/
inductive FixItem where
  | replace (range : Range) (text : Text)
  | replaceNode (text : Text)
  | insertBefore (text : Text)
  | insertAfter (text : Text)
  /-- Puts the markup of the node into upper case. -/
  | upper
  | crash (message : Text)
  | cancel
  | nothing

/-- What an action does. -/
inductive Verb where
  | crash
  | cancel
  | trace
  | report
  | probe
  | nothing

/-- An action of a scripted check. -/
structure Action where
  /-- The event that an action on nodes waits for. -/
  event : Option Event := none
  verb : Verb
  message : Text := []
  range : Option Range := none
  /-- Whether the report leaves its node out. -/
  noNode : Bool := false
  severity : Option Severity := none
  /-- The action is skipped where the source starts with this text, if it is not empty. -/
  unlessPrefix : Text := []
  /-- The file of a project report. -/
  path : Text := []
  /-- The paths that a probe asks about. -/
  paths : List Text := []
  fix : List FixItem := []

/-- What an action looks at. -/
structure Scene where
  /-- The event, or what stands for it. -/
  event : Text
  file : Option SourceFile
  node : Option Node := none

namespace Scene

/-- The source that the scene shows: that of its node, else that of its file. -/
def source? (s : Scene) : Option Text :=
  match s.file, s.node with
  | some f, some n => some (f.sourceOfNode n)
  | some f, none => some f.source
  | none, _ => none

/-- The words that messages may hold and what they stand for. -/
def words (s : Scene) : List (Text × Text) :=
  [(("\x7bevent\x7d" : Text), s.event)] ++
  (match s.file, s.node with
    | some f, some n =>
      [("\x7bkind\x7d", n.kind), ("\x7btag\x7d", n.tag), ("\x7bmarkup\x7d", n.markup),
        ("\x7bsource\x7d", f.sourceOfNode n)]
    | _, _ => []) ++
  (match s.file with
    | some f => [("\x7bpath\x7d", f.path)]
    | none => [])

end Scene

/-- The text with each word from left to right replaced; the first `skip` bytes belong to a word
that was replaced already. -/
def expandFrom (words : List (Text × Text)) : (skip : Nat) → Text → Text
  | _, [] => []
  | skip + 1, _ :: rest => expandFrom words skip rest
  | 0, b :: rest =>
    match words.find? fun w => Text.startsWith (b :: rest) w.1 with
    | some (word, value) => value ++ expandFrom words (word.length - 1) rest
    | none => b :: expandFrom words 0 rest

/-- The steps of a scripted fix. -/
def fixSteps (s : Scene) (item : FixItem) : List FixStep :=
  let onNode (g : SourceFile → Node → FixStep) : List FixStep :=
    match s.file, s.node with
    | some f, some n => [g f n]
    | _, _ => []
  match item with
  | .replace r text => [.edit r text]
  | .replaceNode text => onNode fun _ n => .edit n.span.toRange text
  | .insertBefore text => onNode fun _ n => .edit ⟨n.span.start, n.span.start⟩ text
  | .insertAfter text => onNode fun _ n => .edit ⟨n.span.stop, n.span.stop⟩ text
  | .upper => onNode fun f n =>
    .edit (n.markupSpan f.source.length).toRange (Text.toUpper n.markup)
  | .crash message => [.crash message]
  | .cancel => [.cancel]
  | .nothing => []

/-- The line that an action leaves in the trace. -/
def traceLine (code : Text) (s : Scene) (message : Text) : Text :=
  let place : List Text :=
    match s.node with
    | some n => [n.kind, Text.ofNat n.span.start ++ "-" ++ Text.ofNat n.span.stop]
    | none => []
  Text.joinWith " " ([code, s.event] ++ place ++ [message])

/-- The report of an action. -/
def report (a : Action) (s : Scene) (message : Text) : Report :=
  { message
    node := if a.noNode then none else s.node
    range := a.range
    severity := a.severity
    fix := if a.fix.isEmpty then none else some (a.fix.flatMap (fixSteps s)) }

/-- The lines of a probe. -/
def probeLines (code : Text) (v : ProjectView) (paths : List Text) : List Text :=
  let truth (b : Bool) : Text := if b then "true" else "false"
  [code ++ " files [" ++ Text.joinWith " " (v.files.map (·.path)) ++ "]",
    code ++ " paths [" ++ Text.joinWith " " v.paths ++ "]"] ++
  paths.map fun p =>
    code ++ " probe " ++ p ++ " parsed=" ++ truth (v.file? p).isSome ++ " exists=" ++
      truth (v.has p)

/-- What one action does in a scene; `view` is the project at the end of a run. -/
def act {ρ : Type} (wrap : Report → ρ) (code : Text) (view : Option ProjectView) (s : Scene)
    (a : Action) : Reaction ρ :=
  let skipped := !a.unlessPrefix.isEmpty && s.source?.any (Text.startsWith · a.unlessPrefix)
  if skipped then {}
  else
    let message := expandFrom s.words 0 a.message
    match a.verb with
    | .crash => { crash := some message }
    | .cancel => { effects := [.cancel] }
    | .trace => { effects := [.trace (traceLine code s message)] }
    | .report => { effects := [.report (wrap (report a s message))] }
    | .probe =>
      match view with
      | some v => { effects := (probeLines code v a.paths).map .trace }
      | none => {}
    | .nothing => {}

/-- Reactions one after the other, up to the first crash. -/
def inOrder {ρ : Type} : List (Reaction ρ) → Reaction ρ
  | [] => {}
  | r :: rest =>
    match r.crash with
    | some _ => r
    | none =>
      let more := inOrder rest
      { more with effects := r.effects ++ more.effects }

end Script

/-- A check given as data. -/
structure Script where
  info : CheckInfo
  onNode : List Script.Action := []
  onEnd : List Script.Action := []
  onProject : List Script.Action := []

namespace Script

/-- What a script does when a file is visited. -/
def visit (s : Script) : Visit → Reaction Report
  | .node f e n =>
    inOrder ((s.onNode.filter fun a => a.event = some e).map
      (act id s.info.code none { event := e.label, file := some f, node := some n }))
  | .endFile f => inOrder (s.onEnd.map (act id s.info.code none { event := "end_file", file := some f }))

/-- What a script does at the end of a run. -/
def project (s : Script) (v : ProjectView) : Reaction ProjectReport :=
  inOrder (s.onProject.map fun a =>
    let file := if a.path.isEmpty then none else v.file? a.path
    act (⟨file, ·⟩) s.info.code (some v) { event := "project", file } a)

/-- The check of a script. -/
def check (s : Script) : Check :=
  { info := s.info
    subscriptions := s.onNode.filterMap (·.event)
    onVisit := fun _ v => s.visit v
    onProject := some fun _ v => s.project v }

end Script
end LiquidLint
