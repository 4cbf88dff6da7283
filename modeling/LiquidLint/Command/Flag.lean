import LiquidLint.Config.Environment
import LiquidLint.Text.Duration
import LiquidLint.Text.Numeral
import LiquidLint.Text.Record

/-!
# Flags

A flag has a name, perhaps a letter, and takes a value of some kind. A switch needs no value. Texts
are given between commas, and giving the flag again adds to them.
-/

namespace LiquidLint
namespace Command

/-- What values a flag takes. -/
inductive FlagKind where
  | switch
  | text
  | texts
  | integer
  | duration
deriving DecidableEq

/-- The word for the values of a flag. -/
def FlagKind.word : FlagKind → Text
  | .switch => []
  | .text => "string"
  | .texts => "strings"
  | .integer => "int"
  | .duration => "duration"

/-- A flag of a command. -/
structure Flag where
  name : Text
  letter : Option Char := none
  kind : FlagKind := .switch
  usage : Text
  /-- The value that counts when the flag is not given, as it is shown. -/
  standard : Text := []

/-- How a flag is written. -/
def Flag.spelling (f : Flag) : Text :=
  match f.letter with
  | some c => "-" ++ Text.ofChar c ++ ", --" ++ f.name
  | none => "--" ++ f.name

/-- A value that was given. -/
inductive FlagValue where
  | switch (on : Bool)
  | text (t : Text)
  | texts (ts : List Text)
  | integer (n : Int)
  | duration (nanoseconds : Int)

/-- The values that were given, by the names of their flags. -/
abbrev Values := Table FlagValue

namespace Values

/-- Whether a switch is on. -/
def isOn (vs : Values) (name : Text) : Bool :=
  match vs.get? name with
  | some (.switch b) => b
  | _ => false

/-- The text of a flag, or `d`. -/
def text (vs : Values) (name d : Text) : Text :=
  match vs.get? name with
  | some (.text t) => t
  | _ => d

/-- The texts of a flag, if it was given. -/
def texts? (vs : Values) (name : Text) : Option (List Text) :=
  match vs.get? name with
  | some (.texts ts) => some ts
  | _ => none

/-- The number of a flag, or zero. -/
def integer (vs : Values) (name : Text) : Int :=
  match vs.get? name with
  | some (.integer n) => n
  | _ => 0

/-- The nanoseconds of a flag, or zero. -/
def duration (vs : Values) (name : Text) : Int :=
  match vs.get? name with
  | some (.duration n) => n
  | _ => 0

end Values

/-- Reads a value of a flag; `before` are the values that were given before. What is wrong with a
value is told by a text. -/
def FlagKind.read (kind : FlagKind) (before : Option FlagValue) (value : Text) :
    Except Text FlagValue :=
  match kind with
  | .text => .ok (.text value)
  | .switch =>
    match Config.readBool? value with
    | some b => .ok (.switch b)
    | none =>
      .error ("strconv.ParseBool: parsing " ++ Text.quoted value ++ ": invalid syntax")
  | .integer =>
    match Numeral.read value with
    | .ok n => .ok (.integer n)
    | .error f =>
      .error ("strconv.ParseInt: parsing " ++ Text.quoted value ++ ": " ++ f.wording)
  | .duration => (Duration.read value).map .duration
  | .texts =>
    let earlier := match before with
      | some (.texts ts) => ts
      | _ => []
    if value.isEmpty then .ok (.texts earlier)
    else
      match Record.read value with
      | .ok ts => .ok (.texts (earlier ++ ts))
      | .error f => .error f.message

/-- The values with another one of a flag. -/
def Flag.set (f : Flag) (value : Text) (vs : Values) : Except Failure Values :=
  match f.kind.read (vs.get? f.name) value with
  | .ok v => .ok (vs.insert f.name v)
  | .error what =>
    .error (.plain ("invalid argument " ++ Text.quoted value ++ " for " ++
      Text.quoted f.spelling ++ " flag: " ++ what))

end Command
end LiquidLint
