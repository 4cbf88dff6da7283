import LiquidLint.Text.Basic

/-!
# Base 64

Bytes written with 64 letters: three bytes are four letters, and equals signs fill up the last four.
-/

namespace LiquidLint
namespace Base64

/-- The letter of a number below 64. -/
def letter (n : Nat) : UInt8 :=
  if n < 26 then UInt8.ofNat (0x41 + n)
  else if n < 52 then UInt8.ofNat (0x61 + (n - 26))
  else if n < 62 then UInt8.ofNat (0x30 + (n - 52))
  else if n = 62 then '+'
  else '/'

/-- The number of a letter. -/
def value? (b : UInt8) : Option Nat :=
  if Text.isUpper b then some (b.toNat - 0x41)
  else if Text.isLower b then some (b.toNat - 0x61 + 26)
  else if Text.isDigit b then some (b.toNat - 0x30 + 52)
  else if b = '+' then some 62
  else if b = '/' then some 63
  else none

/-- The letters of a text. -/
def encode : Text → Text
  | a :: b :: c :: rest =>
    let n := (a.toNat * 256 + b.toNat) * 256 + c.toNat
    letter (n / 262144) :: letter (n / 4096 % 64) :: letter (n / 64 % 64) :: letter (n % 64) ::
      encode rest
  | [a, b] =>
    let n := (a.toNat * 256 + b.toNat) * 4
    [letter (n / 4096), letter (n / 64 % 64), letter (n % 64), 0x3D]
  | [a] => [letter (a.toNat / 4), letter (a.toNat % 4 * 16), 0x3D, 0x3D]
  | [] => []

/-- The bytes of fours of letters. -/
def decodeFours : Text → Option Text
  | [] => some []
  | [a, b, 0x3D, 0x3D] => do
    let n := (← value? a) * 64 + (← value? b)
    return [UInt8.ofNat (n / 16)]
  | [a, b, c, 0x3D] => do
    let n := ((← value? a) * 64 + (← value? b)) * 64 + (← value? c)
    return [UInt8.ofNat (n / 1024), UInt8.ofNat (n / 4 % 256)]
  | a :: b :: c :: d :: rest => do
    let n := (((← value? a) * 64 + (← value? b)) * 64 + (← value? c)) * 64 + (← value? d)
    return UInt8.ofNat (n / 65536) :: UInt8.ofNat (n / 256 % 256) :: UInt8.ofNat (n % 256) ::
      (← decodeFours rest)
  | _ => none

/-- The text that letters stand for; line breaks among them do not count. -/
def decode? (t : Text) : Option Text :=
  decodeFours (t.filter fun (b : UInt8) => b ≠ '\n' && b ≠ '\r')

end Base64
end LiquidLint
