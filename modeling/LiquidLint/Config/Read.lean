import LiquidLint.Config.Basic
import LiquidLint.Failure
import LiquidLint.Yaml.Decode

/-!
# Reading configurations

The sections of checks stand at the top level of the file, beside the fields of the configuration.
-/

namespace LiquidLint
namespace Config

open Yaml

/-- The section of a check. -/
def settingsRecord : RecordType CheckSettings where
  name := "config.CheckConfig"
  fields := ["enabled", "severity", "ignore"]
  read s name n := do
    if name = "enabled" then return { s with enabled := ← readBool n }
    else if name = "severity" then return { s with severity := ← readText "string" n }
    else if name = "ignore" then return { s with ignore := ← readTexts n }
    else return s

/-- The section on backups. -/
def backupsRecord : RecordType Backups where
  name := "config.BackupsConfig"
  fields := ["enabled", "mode"]
  read s name n := do
    if name = "enabled" then return { s with enabled := (← readBool n).getD s.enabled }
    else if name = "mode" then return { s with mode := (← readText "string" n).getD s.mode }
    else return s

/-- A whole file; what is no other field is the section of a check. -/
def configRecord (fuel : Nat) : RecordType Config where
  name := "config.Config"
  fields := ["extends", "ignore", "backups"]
  read c name n := do
    if name = "extends" then
      return { c with baseline := (← readText "config.Extends" n).getD c.baseline }
    else if name = "ignore" then return { c with ignore := ← readTexts n }
    else if name = "backups" then
      return { c with backups := ← readRecord fuel backupsRecord c.backups n }
    else return { c with checks := c.checks.insert name (← readRecord fuel settingsRecord {} n) }

/-- Reads a file; an empty one sets nothing. -/
def ofYaml (t : Text) : Except Failure Config :=
  let fuel := t.length + 1
  match decodeFirst t {} (readRecord fuel (configRecord fuel)) with
  | .ok c => .ok c
  | .error message => .error (.plain ("parse yaml: yaml: " ++ message))

end Config
end LiquidLint
