import LiquidLint.Failure

/-!
# Records

A record is a line of fields between commas. A field that starts with a double quote goes on to the
next one and may hold commas and line breaks; a quote inside it is written twice. In other fields a
quote must not stand.
-/

namespace LiquidLint
namespace Record

/-- Where a reader of a record stands; what was read of the current field comes last byte first. -/
inductive Place where
  /-- At the start of a field. -/
  | start
  /-- In a field without quotes. -/
  | plain (read : Text)
  /-- Between the quotes of a field. -/
  | inside (read : Text)
  /-- After a quote that ends the field or is the first of two. -/
  | closed (read : Text)

/-- A position in a text, and the line on which the record starts. -/
structure Position where
  start : Nat
  line : Nat
  column : Nat := 1

/-- The failure of reading at a position. -/
def Position.failure (p : Position) (what : Text) : Failure :=
  let before : Text := if p.start = p.line then [] else "record on line " ++ Text.ofNat p.start ++ "; "
  .plain (before ++ "parse error on line " ++ Text.ofNat p.line ++ ", column " ++
    Text.ofNat p.column ++ ": " ++ what)

/-- The next byte of the same line. -/
def Position.next (p : Position) : Position := { p with column := p.column + 1 }

/-- What a quote in a field without quotes is refused with. -/
def bareQuote : Text := "bare \" in non-quoted field"

/-- What a quoted field that does not end properly is refused with. -/
def strayQuote : Text := "extraneous or missing \" in quoted-field"

/-- Reads the fields of a record. -/
def fields (p : Position) (fieldsRead : List Text) : Place → Text → Except Failure (List Text)
  | .start, [] => .ok (fieldsRead ++ [[]])
  | .plain read, [] | .closed read, [] => .ok (fieldsRead ++ [read.reverse])
  | .inside _, [] => .error (p.failure strayQuote)
  | .start, b :: rest =>
    if b = '"' then fields p.next fieldsRead (.inside []) rest
    else if b = ',' then fields p.next (fieldsRead ++ [[]]) .start rest
    else if b = '\n' then .ok (fieldsRead ++ [[]])
    else fields p.next fieldsRead (.plain [b]) rest
  | .plain read, b :: rest =>
    if b = '"' then .error (p.failure bareQuote)
    else if b = ',' then fields p.next (fieldsRead ++ [read.reverse]) .start rest
    else if b = '\n' then .ok (fieldsRead ++ [read.reverse])
    else fields p.next fieldsRead (.plain (b :: read)) rest
  | .inside read, b :: rest =>
    if b = '"' then fields p.next fieldsRead (.closed read) rest
    else if b = '\n' && !rest.isEmpty then
      fields { p with line := p.line + 1, column := 1 } fieldsRead (.inside (b :: read)) rest
    else fields p.next fieldsRead (.inside (b :: read)) rest
  | .closed read, b :: rest =>
    if b = '"' then fields p.next fieldsRead (.inside (b :: read)) rest
    else if b = ',' then fields p.next (fieldsRead ++ [read.reverse]) .start rest
    else if b = '\n' then .ok (fieldsRead ++ [read.reverse])
    else .error ({ p with column := p.column - 1 }.failure strayQuote)

/-- Line breaks of one byte; a carriage return at the end is dropped. -/
def withPlainBreaks (t : Text) : Text :=
  Text.trimEndText (Text.replaceText t "\r\n" "\n") "\r"

/-- Reads the first record of a text; empty lines before it are passed over. -/
def firstFrom (line : Nat) : Text → Except Failure (List Text)
  | [] => .error (.plain "EOF")
  | b :: rest =>
    if b = '\n' then firstFrom (line + 1) rest else fields ⟨line, line, 1⟩ [] .start (b :: rest)

/-- The fields of the first record of a text. -/
def read (t : Text) : Except Failure (List Text) := firstFrom 1 (withPlainBreaks t)

end Record
end LiquidLint
