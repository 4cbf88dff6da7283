import LiquidLint.Table

/-!
# Configurations

Which checks run, how severe their offenses are, which files they leave alone, and how fixes are
written. A configuration is also a layer of one: what a layer leaves unset is decided by the layers
below it. An empty text, zero and `none` mean that something is unset.
-/

namespace LiquidLint

/-- What a configuration says about one check. -/
structure CheckSettings where
  enabled : Option Bool := none
  severity : Option Text := none
  ignore : Option (List Text) := none
deriving DecidableEq

/-- What is kept of files that fixes change. -/
structure Backups where
  enabled : Bool := false
  mode : Text := []
deriving DecidableEq

/-- A configuration. -/
structure Config where
  /-- The checks to start from: `default` or `nothing`. -/
  baseline : Text := []
  /-- The patterns of files that no check looks at. -/
  ignore : Option (List Text) := none
  backups : Backups := {}
  /-- The settings of single checks by code. -/
  checks : Table CheckSettings := {}
  /-- Whether fixes are made. -/
  fix : Bool := false
  /-- Whether fixes are only shown. -/
  dryRun : Bool := false
  /-- The form of the report. -/
  format : Text := []
  /-- How many files are read at a time; zero leaves it open. -/
  jobs : Int := 0
  /-- The codes of checks that run in any case. -/
  enable : Option (List Text) := none
  /-- The codes of checks that never run. -/
  disable : Option (List Text) := none
  /-- Whether backups are left out whatever the rest says. -/
  noBackups : Bool := false

namespace Config

/-- The name of the file that configures a project. -/
def fileName : Text := ".platformos-check.yml"

/-- The configuration to start from. -/
def standard : Config :=
  { baseline := "default", backups := { mode := "sidecar" }, format := "text" }

/-- Whether the check with the given code runs. The lists of codes decide before the settings of the
check, and those before the baseline. -/
def isEnabled (c : Config) (code : Text) : Bool :=
  if (c.disable.getD []).contains code then false
  else if (c.enable.getD []).contains code then true
  else
    match (c.checks.get? code).bind (·.enabled) with
    | some b => b
    | none => c.baseline ≠ "nothing"

/-- The severity that is set for the offenses of a check. -/
def severity? (c : Config) (code : Text) : Option Text :=
  (c.checks.get? code).bind (·.severity)

/-- The patterns of files that are set to be left alone by a check. -/
def ignore? (c : Config) (code : Text) : Option (List Text) :=
  (c.checks.get? code).bind (·.ignore)

/-- Whether fixes leave a copy of each file beside it. -/
def keepsBackups (c : Config) : Bool :=
  !c.noBackups && c.backups.enabled && c.backups.mode ≠ "none"

end Config
end LiquidLint
