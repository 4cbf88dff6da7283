import LiquidLint.Analysis.Visit
import LiquidLint.Fix.Corrector
import LiquidLint.Fix.Diff

/-!
# Corrections

The fixes of a file are replayed against a corrector of its own. A fix that breaks down keeps the
edits it asked for before.
-/

namespace LiquidLint

open Source Analysis

/-- What correcting one file came to. -/
structure Correction where
  path : Text
  /-- The content that the analysis read. -/
  stored : Text
  /-- The corrected content in its stored form. -/
  content : Text
  changed : Bool := false
  /-- How many passes changed the content. -/
  passes : Nat := 0
  /-- How many edits were applied. -/
  applied : Nat := 0
  conflicts : List Conflict := []
  failures : List Failure := []
  /-- Whether the content was written back. -/
  written : Bool := false
  /-- Why the content was not written back. -/
  skipped : Text := []

namespace Correction

/-- The difference that the correction makes. -/
def diff? (c : Correction) : Option Diff := Diff.of? c.path c.stored c.content

/-- The correction after one more pass. -/
def merge (c : Correction) (o : Outcome) (failures : List Failure) : Correction :=
  let c :=
    { c with
      applied := c.applied + o.applied.length
      conflicts := c.conflicts ++ o.conflicts
      failures := c.failures ++ failures }
  if o.changed then { c with content := o.content, passes := c.passes + 1, changed := true } else c

end Correction

namespace Analysis

/-- A corrector while fixes are replayed. -/
structure Replay where
  corrector : Corrector
  failures : List Failure := []
  cancelled : Bool := false

/-- Follows the steps of one fix up to a breakdown. -/
def Replay.follow (code : Text) : Fix → Replay → Replay
  | [], r => r
  | .edit range text :: rest, r =>
    follow code rest { r with corrector := r.corrector.replace range text }
  | .cancel :: rest, r => follow code rest { r with cancelled := true }
  | .crash message :: _, r =>
    { r with failures := r.failures ++ [.plain ("fix of " ++ code ++ " failed: " ++ message)] }

/-- Replays one fix. -/
def Replay.add (r : Replay) (p : PendingFix) : Replay :=
  follow p.code p.fix { r with corrector := { r.corrector with check := p.code } }

/-- What the log says about conflicts and failures in a file. -/
def replayLog (path : Text) (conflicts : List Conflict) (failures : List Failure) :
    List Log.Entry :=
  conflicts.map (fun c => ⟨.debug, "edit dropped",
    [("path", path), ("check", c.dropped.check), ("error", c.describe)]⟩) ++
  match Failure.joined? failures with
  | some f => [⟨.warn, "invalid fixes", [("path", path), ("error", f.message)]⟩]
  | none => []

/-- What replaying fixes came to. -/
structure Replayed where
  outcome : Outcome
  failures : List Failure := []
  around : Surroundings

/-- Replays the fixes of a file, whose content is `stored`. -/
def replay (file : Option SourceFile) (stored : Text) (fixes : List PendingFix)
    (around : Surroundings) : Replayed :=
  match file, fixes with
  | none, _ | _, [] => { outcome := { content := stored }, around }
  | some f, fixes =>
    let r := fixes.foldl Replay.add { corrector := { file := f } }
    let outcome := r.corrector.apply stored
    let failures := r.failures ++ r.corrector.failure?.toList
    { outcome := outcome
      failures := failures
      around :=
        { around with
          cancelled := around.cancelled || r.cancelled
          log := around.log ++ replayLog f.path outcome.conflicts failures } }

end Analysis
end LiquidLint
