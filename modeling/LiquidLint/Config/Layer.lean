import LiquidLint.Config.Basic

/-!
# Layers of configurations

A layer decides what it sets and leaves the rest to the layers below it. A truth value that is not
set cannot be told from one that is false, so a layer can switch something on and not off.
-/

namespace LiquidLint

namespace Layer

/-- The upper text, unless it is empty. -/
def text (lower upper : Text) : Text := if upper.isEmpty then lower else upper

/-- The upper number, unless it is zero. -/
def number (lower upper : Int) : Int := if upper = 0 then lower else upper

/-- The upper value, if there is one. -/
def option {α : Type} (lower upper : Option α) : Option α := upper.or lower

end Layer

/-- The settings of a check with those of a layer above them. -/
def CheckSettings.overlay (lower upper : CheckSettings) : CheckSettings where
  enabled := Layer.option lower.enabled upper.enabled
  severity := Layer.option lower.severity upper.severity
  ignore := Layer.option lower.ignore upper.ignore

namespace Config

/-- The settings of all checks with those of a layer above them. -/
def overlayChecks (lower upper : Table CheckSettings) : Table CheckSettings :=
  upper.entries.foldl (fun t (code, s) =>
    t.insert code (match t.get? code with
      | some old => old.overlay s
      | none => s)) lower

/-- A configuration with a layer above it. -/
def overlay (lower upper : Config) : Config where
  baseline := Layer.text lower.baseline upper.baseline
  ignore := Layer.option lower.ignore upper.ignore
  backups :=
    { enabled := lower.backups.enabled || upper.backups.enabled
      mode := Layer.text lower.backups.mode upper.backups.mode }
  checks := overlayChecks lower.checks upper.checks
  fix := lower.fix || upper.fix
  dryRun := lower.dryRun || upper.dryRun
  format := Layer.text lower.format upper.format
  jobs := Layer.number lower.jobs upper.jobs
  enable := Layer.option lower.enable upper.enable
  disable := Layer.option lower.disable upper.disable
  noBackups := lower.noBackups || upper.noBackups

/-- Layers one above the other, the lowest first; missing layers do not count. -/
def overlayAll (layers : List (Option Config)) : Option Config :=
  match layers.filterMap id with
  | [] => none
  | lowest :: rest => some (rest.foldl overlay lowest)

end Config
end LiquidLint
