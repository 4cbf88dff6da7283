import LiquidLint.Text.Basic

/-!
# UTF-8

A text is read as characters wherever its bytes are well-formed UTF-8. What is not well-formed is
seen in one of two ways: byte by byte (`units`), or in the longest pieces that could have started a
character (`replaceInvalid`).
-/

namespace LiquidLint
namespace Text

/-- Whether `b` continues a character of several bytes. -/
def isContinuation (b : UInt8) : Bool := 0x80 ≤ b && b ≤ 0xBF

/-- The bytes of a character. -/
def ofChar (c : Char) : Text := String.utf8EncodeChar c

/-- The bytes that may follow the first byte of a character: how many there are and which ones the
second byte may be. -/
def sequence? (b : UInt8) : Option (Nat × UInt8 × UInt8) :=
  if 0xC2 ≤ b && b ≤ 0xDF then some (1, 0x80, 0xBF)
  else if b = 0xE0 then some (2, 0xA0, 0xBF)
  else if b = 0xED then some (2, 0x80, 0x9F)
  else if 0xE1 ≤ b && b ≤ 0xEF then some (2, 0x80, 0xBF)
  else if b = 0xF0 then some (3, 0x90, 0xBF)
  else if 0xF1 ≤ b && b ≤ 0xF3 then some (3, 0x80, 0xBF)
  else if b = 0xF4 then some (3, 0x80, 0x8F)
  else none

/-- The bytes at the start of `t`, at most `n` of them, that may follow a first byte; the first of
them has to lie between `lo` and `hi`. -/
def followers (n : Nat) (lo hi : UInt8) (t : Text) : Text :=
  match n, t with
  | 0, _ => []
  | _, [] => []
  | n + 1, b :: rest => if lo ≤ b && b ≤ hi then b :: followers n 0x80 0xBF rest else []

/-- The number that the bytes of a character of several bytes stand for. -/
def codePoint (b : UInt8) (more : Text) : Nat :=
  let high := if b < 0xE0 then b.toNat - 0xC0 else if b < 0xF0 then b.toNat - 0xE0
    else b.toNat - 0xF0
  more.foldl (fun n c => 64 * n + (c.toNat - 0x80)) high

/-- The character that `t` starts with, and the rest; `none` for an empty text and at a byte that
starts no well-formed character. -/
def nextChar? : Text → Option (Char × Text)
  | [] => none
  | b :: rest =>
    if b < 0x80 then some (Char.ofNat b.toNat, rest)
    else match sequence? b with
      | none => none
      | some (n, lo, hi) =>
        let more := followers n lo hi rest
        if more.length = n then some (Char.ofNat (codePoint b more), rest.drop n) else none

/-- A character, or a byte that belongs to none. -/
inductive CharUnit where
  | char (c : Char)
  | stray (b : UInt8)
deriving DecidableEq

/-- The characters of `t`, and its other bytes one by one. -/
def units (t : Text) : List CharUnit :=
  match t with
  | [] => []
  | b :: rest =>
    match nextChar? (b :: rest) with
    | none => .stray b :: units rest
    | some (c, more) => if more.length ≤ rest.length then .char c :: units more else []
termination_by t.length
decreasing_by
  · simp
  · simp only [List.length_cons]
    omega

/-- The replacement character. -/
def replacement : Char := Char.ofNat 0xFFFD

/-- The character of a unit; a stray byte counts as the replacement character. -/
def CharUnit.toChar : CharUnit → Char
  | .char c => c
  | .stray _ => replacement

/-- The characters of `t`, with the replacement character for each stray byte. -/
def chars (t : Text) : List Char := (units t).map CharUnit.toChar

/-- The bytes of a list of characters. -/
def ofChars (cs : List Char) : Text := cs.flatMap ofChar

/-- Whether `t` is well-formed UTF-8. -/
def isUtf8 (t : Text) : Bool := (units t).all fun u => match u with
  | .char _ => true
  | .stray _ => false

/-- `t` with each longest piece that starts a character without completing it, and each other stray
byte, replaced by the replacement character. -/
def replaceInvalid (t : Text) : Text :=
  match t with
  | [] => []
  | b :: rest =>
    match nextChar? (b :: rest) with
    | some (c, more) => if more.length ≤ rest.length then ofChar c ++ replaceInvalid more else []
    | none =>
      match sequence? b with
      | none => ofChar replacement ++ replaceInvalid rest
      | some (n, lo, hi) =>
        ofChar replacement ++ replaceInvalid (rest.drop (followers n lo hi rest).length)
termination_by t.length
decreasing_by
  · simp only [List.length_cons]
    omega
  · simp
  · simp only [List.length_cons, List.length_drop]
    omega

end Text
end LiquidLint
