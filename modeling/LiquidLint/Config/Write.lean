import LiquidLint.Config.Basic
import LiquidLint.Yaml.Writer

/-!
# Writing configurations

Only what belongs to a file is written: the baseline, the patterns to ignore, the backups and the
sections of the checks. Lists that are empty are left out.
-/

namespace LiquidLint

open Yaml

/-- A list, unless it is empty. -/
def listBlock (name : Text) (ts : Option (List Text)) : List (Text × Block) :=
  if (ts.getD []).isEmpty then [] else [(name, .list (ts.getD []))]

/-- The section of a check. -/
def CheckSettings.block (s : CheckSettings) : Block :=
  .record <|
    (s.enabled.toList.map fun b => (("enabled" : Text), Block.bool b)) ++
    (s.severity.toList.map fun t => (("severity" : Text), Block.text t)) ++
    listBlock "ignore" s.ignore

namespace Config

/-- The entries of the file. -/
def blocks (c : Config) : List (Text × Block) :=
  let baseline : List (Text × Block) :=
    if c.baseline.isEmpty then [] else [("extends", .text c.baseline)]
  let backups : List (Text × Block) :=
    [("enabled", .bool c.backups.enabled), ("mode", .text c.backups.mode)]
  baseline ++ listBlock "ignore" c.ignore ++ [(("backups" : Text), Block.record backups)] ++
    sortEntries (c.checks.entries.map fun (code, s) => (code, s.block))

/-- The file. -/
def toYaml (c : Config) : Text := renderDocument c.blocks

/-- A file with a header in front, which an empty line divides from the rest. -/
def withHeader (header file : Text) : Text :=
  if header.isEmpty then file else endLine header ++ "\n" ++ file

end Config
end LiquidLint
