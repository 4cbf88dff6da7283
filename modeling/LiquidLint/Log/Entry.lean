import LiquidLint.Text.Blank
import LiquidLint.Text.Case
import LiquidLint.Text.Quoted

/-!
# Log lines

An entry has a level, a message and fields. It is written on one line; a value that holds blanks,
quotes, equals signs or unprintable characters is quoted, and a value of several lines is written
below the line.
-/

namespace LiquidLint
namespace Log

/-- How much an entry matters. -/
inductive Level where
  | debug
  | info
  | warn
  | error
deriving DecidableEq

namespace Level

/-- The place of a level in the order. -/
def rank : Level → Nat
  | .debug => 0
  | .info => 1
  | .warn => 2
  | .error => 3

/-- The name of a level. -/
def name : Level → Text
  | .debug => "debug"
  | .info => "info"
  | .warn => "warn"
  | .error => "error"

/-- The word at the start of a line. -/
def mark : Level → Text
  | .debug => "DEBU"
  | .info => "INFO"
  | .warn => "WARN"
  | .error => "ERRO"

/-- The level with a name in any case; other names stand for the information level. -/
def ofName (t : Text) : Level :=
  let name := Text.toLower t
  if name = "debug" then .debug
  else if name = "warn" || name = "warning" then .warn
  else if name = "error" then .error
  else .info

/-- The name of the level that the environment asks for. -/
def nameFromEnv (value : Option Text) : Text :=
  let name := Text.trimSpace (value.getD [])
  if name.isEmpty then "info" else name

end Level

/-- A named value. -/
abbrev Field := Text × Text

/-- A line of a log. -/
structure Entry where
  level : Level
  message : Text
  fields : List Field := []
deriving DecidableEq

/-- The entry with fields of its context in front. -/
def Entry.within (context : List Field) (e : Entry) : Entry :=
  { e with fields := context ++ e.fields }

/-- The text of a truth value. -/
def ofBool (b : Bool) : Text := if b then "true" else "false"

/-- The text of a list. -/
def ofTexts (ts : List Text) : Text := "[" ++ Text.joinWith " " ts ++ "]"

/-! ## Writing -/

/-- Whether a value with this unit has to be quoted. -/
def needsQuotes : Text.CharUnit → Bool
  | .stray _ => true
  | .char c =>
    c = '"' || c = '=' || c = Text.replacement || !Text.isPrintable c ||
      (Text.trimSpace (Text.ofChar c)).isEmpty

/-- A character of a value; unprintable ones are escaped, and quotes if `quotes` says so. -/
def escapeChar (quotes : Bool) (c : Char) : Text :=
  if c = '"' then if quotes then "\\\"" else "\""
  else if Text.isPrintable c then Text.ofChar c
  else
    match Text.shortEscapes.lookup c.toNat with
    | some letter => ['\\', letter]
    | none =>
      if c.toNat < 0x20 then "\\x" ++ Text.hex 2 c.toNat
      else if c.toNat < 0x10000 then "\\u" ++ Text.hex 4 c.toNat
      else "\\U" ++ Text.hex 8 c.toNat

/-- A value with its unprintable characters escaped. -/
def escape (quotes : Bool) (t : Text) : Text := (Text.chars t).flatMap (escapeChar quotes)

/-- The lines of a value below its name, and a line break after them when more fields follow. -/
def indented (more : Bool) (value : Text) : Text :=
  let lines := Text.splitAtByte value '\n'
  let full := lines.dropLast.flatMap fun l => ("  │ " ++ escape false l ++ "\n" : Text)
  match lines.getLast? with
  | none => full
  | some last =>
    if last.isEmpty then full
    else full ++ "  │ " ++ escape false last ++ if more then ("\n" : Text) else []

/-- A field as it is written; `more` tells whether other fields follow. -/
def renderField (more : Bool) (f : Field) : Text :=
  if f.2.isEmpty then " " ++ f.1 ++ "=\"\""
  else if f.2.contains '\n' then "\n  " ++ f.1 ++ "=\n" ++ indented more f.2
  else if (Text.units f.2).any needsQuotes then
    " " ++ f.1 ++ "=\"" ++ escape true f.2 ++ "\""
  else " " ++ f.1 ++ "=" ++ f.2

/-- The fields one after the other. -/
def renderFields : List Field → Text
  | [] => []
  | f :: rest => renderField (!rest.isEmpty) f ++ renderFields rest

/-- An entry with its line break. -/
def Entry.render (e : Entry) : Text :=
  e.level.mark ++ " " ++ e.message ++ renderFields e.fields ++ "\n"

/-- The entries of at least the given level. -/
def render (least : Level) (es : List Entry) : Text :=
  (es.filter fun e => least.rank ≤ e.level.rank).flatMap Entry.render

end Log
end LiquidLint
