import LiquidLint.Yaml.Token
import LiquidLint.Text.Regex

/-!
# The meaning of scalars

Which type a plain scalar has: null, Boolean, integer, floating-point number, date or text. Only what
the rest of the library asks about is kept of the value.
-/

namespace LiquidLint
namespace Yaml

/-- The short names of the standard tags. -/
def shortTag (tag : List Char) : List Char :=
  match "tag:yaml.org,2002:".toList.isPrefixOf tag with
  | true => "!!".toList ++ tag.drop 18
  | false => tag

/-- The type of a scalar. -/
inductive ScalarType where
  | null
  | bool (value : Bool)
  | int
  | float
  | timestamp
  | merge
  | string
deriving DecidableEq

/-- The short tag of a type. -/
def ScalarType.tag : ScalarType → List Char
  | .null => "!!null".toList
  | .bool _ => "!!bool".toList
  | .int => "!!int".toList
  | .float => "!!float".toList
  | .timestamp => "!!timestamp".toList
  | .merge => "!!merge".toList
  | .string => "!!str".toList

/-! ## Numbers -/

/-- The digits of `cs` in base `base`, as a number. -/
def digitsValue? (base : Nat) (cs : List Char) : Option Nat :=
  if cs.isEmpty then none
  else cs.foldlM (fun n c => do
    let v ← if c.toNat < 128 then Text.hexValue? c.toUInt8 else none
    if v < base then some (base * n + v) else none) 0

/-- The sign and the rest of a number. -/
def splitSign : List Char → Bool × List Char
  | '-' :: rest => (true, rest)
  | '+' :: rest => (false, rest)
  | cs => (false, cs)

/-- The magnitude of an integer with a base mark in front: `0x`, `0o`, `0b`, or a zero for eight. -/
def magnitude? : List Char → Option Nat
  | '0' :: c :: rest =>
    if c = 'x' || c = 'X' then digitsValue? 16 rest
    else if c = 'o' || c = 'O' then digitsValue? 8 rest
    else if c = 'b' || c = 'B' then digitsValue? 2 rest
    else digitsValue? 8 (c :: rest)
  | cs => digitsValue? 10 cs

/-- Whether `cs`, without underscores, is an integer of 64 bits. An unsigned one has no sign. -/
def isInt (cs : List Char) : Bool :=
  let signed := splitSign cs
  match magnitude? signed.2 with
  | none => false
  | some n =>
    if signed.1 then n ≤ Nat.pow 2 63
    else n < Nat.pow 2 63 || (n < Nat.pow 2 64 && signed.2.length = cs.length)

/-- The form of floating-point numbers. -/
def floatForm : Regex :=
  Regex.ofString "^[-+]?(\\.[0-9]+|[0-9]+(\\.[0-9]*)?)([eE][-+]?[0-9]+)?$"

/-- The form of what starts with a dot and is a number. -/
def dottedFloatForm : Regex :=
  Regex.ofString "^\\.[0-9]+([eE][-+]?[0-9]+)?$"

/-- Whether a decimal number of that form lies within the range of floating-point numbers. -/
def inFloatRange (cs : List Char) : Bool :=
  let body := (splitSign cs).2
  let mantissa := body.takeWhile fun c => c ≠ 'e' && c ≠ 'E'
  let exponentText := body.drop (mantissa.length + 1)
  let signed := splitSign exponentText
  let size := (digitsValue? 10 signed.2).getD 0
  let whole := mantissa.takeWhile (· ≠ '.')
  let fraction := mantissa.drop (whole.length + 1)
  let digits := (whole ++ fraction).foldl (fun n c => 10 * n + (c.toNat - 0x30)) 0
  if digits = 0 || signed.1 then true
  else if 400 + fraction.length < size then false
  else
    let limit := (Nat.pow 2 54 - 1) * Nat.pow 2 970
    digits * Nat.pow 10 size < limit * Nat.pow 10 fraction.length

/-! ## Dates -/

/-- The form of dates, with a time of day and a time zone where there is one. -/
def dateForm : Regex :=
  Regex.ofString ("^[0-9][0-9][0-9][0-9]-[0-9][0-9]?-[0-9][0-9]?" ++
    "([Tt][0-9][0-9]?:[0-9][0-9]?:[0-9][0-9]?([.,][0-9]+)?(Z|[-+][0-9][0-9]:[0-9][0-9])" ++
    "| +[0-9][0-9]?:[0-9][0-9]?:[0-9][0-9]?([.,][0-9]+)?)?$")

/-- The numbers between the characters that are no digits. -/
def numbersIn (cs : List Char) : List Nat :=
  ((cs.splitBy fun a b => a.isDigit == b.isDigit).filter fun g => g.head?.any Char.isDigit).map
    fun g => g.foldl (fun n c => 10 * n + (c.toNat - 0x30)) 0

/-- How many days a month has. -/
def daysIn (year month : Nat) : Nat :=
  if month = 2 then if year % 4 = 0 && (year % 100 ≠ 0 || year % 400 = 0) then 29 else 28
  else if [4, 6, 9, 11].contains month then 30
  else 31

/-- Whether `cs` is a date, perhaps with a time of day. -/
def isTimestamp (cs : List Char) : Bool :=
  (cs.takeWhile Char.isDigit).length = 4 && (cs.drop 4).head? = some '-' &&
    dateForm.matchesText (Text.ofChars cs) &&
    match numbersIn cs with
    | year :: month :: day :: time =>
      1 ≤ month && month ≤ 12 && 1 ≤ day && day ≤ daysIn year month &&
        (match time with
          | hour :: minute :: second :: _ => hour < 24 && minute < 60 && second < 60
          | _ => true)
    | _ => false

/-! ## Resolution -/

/-- The type of what is written plainly without a tag. -/
def resolve (value : List Char) : ScalarType :=
  let word := String.ofList value
  if ["true", "True", "TRUE"].contains word then .bool true
  else if ["false", "False", "FALSE"].contains word then .bool false
  else if ["", "~", "null", "Null", "NULL"].contains word then .null
  else if [".nan", ".NaN", ".NAN", ".inf", ".Inf", ".INF", "+.inf", "+.Inf", "+.INF", "-.inf",
      "-.Inf", "-.INF"].contains word then .float
  else if word = "<<" then .merge
  else match value with
    | [] => .null
    | c :: _ =>
      if c = '.' then
        if dottedFloatForm.matchesText (Text.ofChars value) && inFloatRange value then .float
        else .string
      else if c.isDigit || c = '+' || c = '-' then
        let plain := value.filter (· ≠ '_')
        if isTimestamp value then .timestamp
        else if isInt plain then .int
        else if floatForm.matchesText (Text.ofChars plain) && inFloatRange plain then .float
        else .string
      else .string

/-- The tags whose scalars are looked at more closely. -/
def isResolvable (tag : List Char) : Bool :=
  ["", "!!str", "!!bool", "!!int", "!!float", "!!null", "!!timestamp"].contains (String.ofList tag)

end Yaml
end LiquidLint
