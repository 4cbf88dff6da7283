import LiquidLint.Text.Printable
import LiquidLint.Text.Utf8

/-!
# Quoted texts

Messages show texts between double quotes. Quotes, backslashes and whatever is not printable are
escaped, so that a quoted text stays on its line and shows every byte.
-/

namespace LiquidLint
namespace Text

/-- The escapes of one letter. -/
def shortEscapes : List (Nat × Char) :=
  [(0x07, 'a'), (0x08, 'b'), (0x0C, 'f'), (0x0A, 'n'), (0x0D, 'r'), (0x09, 't'), (0x0B, 'v'),
    (0x22, '"'), (0x5C, '\\')]

/-- A character inside quotes. -/
def quoteChar (c : Char) : Text :=
  match shortEscapes.lookup c.toNat with
  | some letter => ['\\', letter]
  | none =>
    if isPrintable c then ofChar c
    else if c.toNat < 0x80 then "\\x" ++ hex 2 c.toNat
    else if c.toNat < 0x10000 then "\\u" ++ hex 4 c.toNat
    else "\\U" ++ hex 8 c.toNat

/-- A character or stray byte inside quotes. -/
def quoteUnit : CharUnit → Text
  | .char c => quoteChar c
  | .stray b => "\\x" ++ hex 2 b.toNat

/-- The text between quotes. -/
def quoted (t : Text) : Text := '"' :: ((units t).flatMap quoteUnit ++ "\"")

/-- A character between single quotes. -/
def quotedChar (c : Char) : Text :=
  let inside : Text :=
    if c.toNat = 0x27 then "\\'" else if c = '"' then "\"" else quoteChar c
  "'" ++ inside ++ "'"

/-- Whether a character can stand between backquotes. -/
def isRawUnit : CharUnit → Bool
  | .stray _ => false
  | .char c =>
    (0x20 ≤ c.toNat || c = '\t') && !([0x60, 0x7F, 0xFEFF].contains c.toNat)

/-- The text between backquotes if that shows it as it is, and otherwise the quoted text. -/
def quotedRaw (t : Text) : Text :=
  if (units t).all isRawUnit then 0x60 :: (t ++ [0x60]) else quoted t

end Text
end LiquidLint
