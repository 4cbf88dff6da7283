import LiquidLint.Config.Basic
import LiquidLint.Failure
import LiquidLint.Text.Blank
import LiquidLint.Text.Quoted

/-!
# Configuration by environment variables

Each variable sets one field of a configuration. A variable that is empty sets nothing.
-/

namespace LiquidLint
namespace Config

/-- How the value of a variable is read, and which field it sets. -/
inductive VariableKind where
  | text (set : Config → Text → Config)
  | bool (set : Config → Bool → Config)
  | int (set : Config → Int → Config)
  | texts (set : Config → Option (List Text) → Config)

/-- A variable of the environment. -/
structure Variable where
  name : Text
  description : Text
  kind : VariableKind

/-- Every variable, sorted by name. -/
def «variables» : List Variable :=
  [⟨"POSCHECK_DISABLE_CHECKS", "Comma-separated check codes to disable",
      .texts fun c v => { c with disable := v }⟩,
    ⟨"POSCHECK_DRY_RUN", "Dry-run mode: true or false", .bool fun c v => { c with dryRun := v }⟩,
    ⟨"POSCHECK_ENABLE_CHECKS", "Comma-separated check codes to enable",
      .texts fun c v => { c with enable := v }⟩,
    ⟨"POSCHECK_EXTENDS", "Baseline: default or nothing",
      .text fun c v => { c with baseline := v }⟩,
    ⟨"POSCHECK_FIX", "Enable auto-fix: true or false", .bool fun c v => { c with fix := v }⟩,
    ⟨"POSCHECK_FORMAT", "Output format: text, json, or diff",
      .text fun c v => { c with format := v }⟩,
    ⟨"POSCHECK_IGNORE", "Comma-separated list of ignore globs",
      .texts fun c v => { c with ignore := v }⟩,
    ⟨"POSCHECK_JOBS", "Number of parallel parsers (0 = auto)",
      .int fun c v => { c with jobs := v }⟩,
    ⟨"POSCHECK_NO_BACKUPS", "Disable backups: true or false",
      .bool fun c v => { c with noBackups := v }⟩]

/-- The truth value that a word stands for. -/
def readBool? (t : Text) : Option Bool :=
  if (["1", "t", "T", "TRUE", "true", "True"].map Text.ofString).contains t then some true
  else if (["0", "f", "F", "FALSE", "false", "False"].map Text.ofString).contains t then some false
  else none

/-- The integer of 64 bits that decimal digits, perhaps with a sign, stand for. -/
def readInt? (t : Text) : Option Int :=
  match t with
  | 0x2D :: digits => do
    let n ← Text.toNat? digits
    if n ≤ Nat.pow 2 63 then some (-(n : Int)) else none
  | 0x2B :: digits => inRange digits
  | digits => inRange digits
where
  inRange (digits : Text) : Option Int := do
    let n ← Text.toNat? digits
    if n < Nat.pow 2 63 then some (n : Int) else none

/-- The texts between commas without blanks around them; a list of nothing but blanks is none. -/
def readTexts? (t : Text) : Option (List Text) :=
  match ((Text.splitAtByte t ',').map Text.trimSpace).filter (· ≠ []) with
  | [] => none
  | ts => some ts

/-- The configuration with a variable applied to it. -/
def applyVariable (v : Variable) (value : Text) (c : Config) : Except Failure Config :=
  match v.kind with
  | .text set => .ok (set c value)
  | .bool set =>
    match readBool? value with
    | some b => .ok (set c b)
    | none => .error (.plain ("invalid boolean for " ++ v.name ++ ": " ++ Text.quoted value ++
        " (expected true/false/1/0)"))
  | .int set =>
    match readInt? value with
    | some n => .ok (set c n)
    | none => .error (.plain ("invalid integer for " ++ v.name ++ ": " ++ Text.quoted value))
  | .texts set => .ok (set c (readTexts? value))

/-- The configuration with the variables of an environment applied to it. -/
def applyEnvironment (env : Table Text) (c : Config) : Except Failure Config :=
  variables.foldlM (fun c v =>
    match env.get? v.name with
    | none | some [] => .ok c
    | some value => applyVariable v value c) c

end Config
end LiquidLint
