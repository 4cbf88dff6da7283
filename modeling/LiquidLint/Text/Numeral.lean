import LiquidLint.Text.Basic

/-!
# Numerals

Integers as users write them: with a sign, in base two, eight, ten or sixteen, and with underscores
between digits. They have to fit 64 bits.
-/

namespace LiquidLint
namespace Numeral

/-- Why a numeral is refused. -/
inductive Fault where
  | malformed
  | outOfRange
deriving DecidableEq

/-- The wording of a fault. -/
def Fault.wording : Fault → Text
  | .malformed => "invalid syntax"
  | .outOfRange => "value out of range"

/-- The base of a numeral without its sign, and the digits after the mark of the base. A zero in
front alone marks base eight. -/
def baseOf : Text → Nat × Text
  | 0x30 :: mark :: d :: rest =>
    let mark' := Text.lowerByte mark
    if mark' = 'b' then (2, d :: rest)
    else if mark' = 'o' then (8, d :: rest)
    else if mark' = 'x' then (16, d :: rest)
    else (8, mark :: d :: rest)
  | 0x30 :: rest => (8, rest)
  | t => (10, t)

/-- The value of a digit in any base up to thirty-six. -/
def digitValue? (b : UInt8) : Option Nat :=
  if Text.isDigit b then some (b.toNat - 0x30)
  else if Text.isLetter b then some ((Text.lowerByte b).toNat - 0x61 + 10)
  else none

/-- The value of digits in a base, after those that make `n`. Underscores do not count. -/
def digitsValue (base n : Nat) : Text → Except Fault Nat
  | [] => .ok n
  | b :: rest =>
    if b = '_' then digitsValue base n rest
    else
      match digitValue? b with
      | none => .error .malformed
      | some d =>
        if base ≤ d then .error .malformed
        else if Nat.pow 2 64 ≤ base * n + d then .error .outOfRange
        else digitsValue base (base * n + d) rest

/-- Whether every underscore stands between two digits; `digit` tells whether one stands in front. -/
def underscoresFit (hex digit : Bool) : Text → Bool
  | [] => true
  | b :: rest =>
    if b = '_' then
      digit && (match rest with
        | [] => false
        | c :: _ => isDigitHere c) && underscoresFit hex false rest
    else underscoresFit hex (isDigitHere b) rest
where
  isDigitHere (b : UInt8) : Bool :=
    Text.isDigit b || (hex && (0x61 ≤ Text.lowerByte b && Text.lowerByte b ≤ 0x66))

/-- Whether the underscores of a numeral without its sign stand between digits; the mark of a base
counts as a digit. -/
def hasFitUnderscores (t : Text) : Bool :=
  match t with
  | 0x30 :: mark :: rest =>
    let mark' := Text.lowerByte mark
    if mark' = 'b' || mark' = 'o' then underscoresFit false true rest
    else if mark' = 'x' then underscoresFit true true rest
    else underscoresFit false false t
  | _ => underscoresFit false false t

/-- The value of a numeral without its sign. -/
def readNat (t : Text) : Except Fault Nat :=
  if t.isEmpty then .error .malformed
  else
    match digitsValue (baseOf t).1 0 (baseOf t).2 with
    | .error f => .error f
    | .ok n => if t.contains '_' && !hasFitUnderscores t then .error .malformed else .ok n

/-- The value of a numeral that fits 64 bits. -/
def read (t : Text) : Except Fault Int :=
  match t with
  | 0x2D :: digits =>
    match readNat digits with
    | .error f => .error f
    | .ok n => if Nat.pow 2 63 < n then .error .outOfRange else .ok (-(n : Int))
  | 0x2B :: digits => unsigned digits
  | digits => unsigned digits
where
  unsigned (digits : Text) : Except Fault Int :=
    match readNat digits with
    | .error f => .error f
    | .ok n => if Nat.pow 2 63 ≤ n then .error .outOfRange else .ok (n : Int)

end Numeral
end LiquidLint
