import LiquidLint.Text.Base64
import LiquidLint.Text.Letter
import LiquidLint.Yaml.Scalar

/-!
# Writing YAML

Records, lists and texts in block style, with an indentation of two. A text is written plainly where
that reads back as the same text, else between single quotes, else between double quotes; a text with
line breaks is written line by line.
-/

namespace LiquidLint
namespace Yaml

/-- What is written. -/
inductive Block where
  | text (t : Text)
  | bool (b : Bool)
  | list (items : List Text)
  | record (entries : List (Text × Block))

/-! ## Classes of characters -/

/-- Whether a character ends a line. -/
def isBreakChar (c : Char) : Bool :=
  c = '\n' || c = '\r' || c.toNat = 0x85 || c.toNat = 0x2028 || c.toNat = 0x2029

/-- Whether a character can be written as it is. -/
def isPlainChar (c : Char) : Bool :=
  let n := c.toNat
  n = 0x0A || (0x20 ≤ n && n ≤ 0x7E) || (0xA0 ≤ n && n ≤ 0xFFFD && n ≠ 0xFEFF)

/-- Whether a character is a space or tab. -/
def isBlankChar (c : Char) : Bool := c = ' ' || c = '\t'

/-! ## What a text allows -/

/-- Neighbours in a list. -/
def neighbours (cs : List Char) : List (Char × Char) := cs.zip (cs.drop 1)

/-- Whether a text starts with what could be a document mark. -/
def hasDocumentMark (cs : List Char) : Bool :=
  cs.take 3 = ['-', '-', '-'] || cs.take 3 = ['.', '.', '.']

/-- Whether the first character of a text could start something else than a text. -/
def hasIndicatorStart (cs : List Char) : Bool :=
  match cs with
  | [] => false
  | c :: rest =>
    let apart := rest.head?.all isBlankChar
    "#,[]\x7b\x7d&*!|>'\"%@`".toList.contains c || (['?', ':', '-'].contains c && apart)

/-- Whether a text holds what could end it: a colon before a blank, or a hash after one. -/
def hasIndicatorInside (cs : List Char) : Bool :=
  (cs.drop 1).getLast? = some ':' ||
    (neighbours (cs.drop 1)).any (fun (a, b) => a = ':' && isBlankChar b) ||
    (neighbours cs).any fun (a, b) => (isBlankChar a || isBreakChar a) && b = '#'

/-- Whether the first or last character of a text is a space or ends a line. -/
def hasLooseEnd (cs : List Char) : Bool :=
  let loose (c : Char) : Bool := c = ' ' || isBreakChar c
  cs.head?.any loose || cs.getLast?.any loose

/-- Whether a space stands before the end of a line. -/
def hasSpaceBreak (cs : List Char) : Bool :=
  (neighbours cs).any fun (a, b) => a = ' ' && isBreakChar b

/-- Whether a space stands at the start of a line. -/
def hasBreakSpace (cs : List Char) : Bool :=
  (neighbours cs).any fun (a, b) => isBreakChar a && b = ' '

/-- Whether a text holds characters that have to be escaped. -/
def hasSpecial (cs : List Char) : Bool := cs.any fun c => c ≠ '\t' && !isPlainChar c

/-- Whether a text can be written between single quotes. -/
def allowsSingleQuotes (cs : List Char) : Bool :=
  !(hasBreakSpace cs || hasSpaceBreak cs || cs.contains '\t' || hasSpecial cs)

/-- Whether a text can be written plainly. -/
def allowsPlain (cs : List Char) : Bool :=
  allowsSingleQuotes cs && !hasLooseEnd cs && !cs.any isBreakChar && !hasDocumentMark cs &&
    !hasIndicatorStart cs && !hasIndicatorInside cs

/-- Whether a text can be written line by line. -/
def allowsLines (cs : List Char) : Bool :=
  cs.getLast? ≠ some ' ' && !hasSpaceBreak cs && !hasSpecial cs

/-- Whether a word is a truth value of older versions of the format. -/
def isOldBool (cs : List Char) : Bool :=
  ["y", "Y", "yes", "Yes", "YES", "on", "On", "ON", "n", "N", "no", "No", "NO", "off", "Off",
    "OFF"].contains (String.ofList cs)

/-- The form of numbers in base sixty. -/
def baseSixtyForm : Regex :=
  Regex.ofString "^[-+]?[0-9][0-9_]*(:[0-5]?[0-9])+(\\.[0-9_]*)?$"

/-- Whether a text that is written plainly reads back as a text. -/
def readsAsText (cs : List Char) : Bool :=
  (resolve cs = .string || resolve cs = .merge) &&
    !baseSixtyForm.matchesText (Text.ofChars cs) && !isOldBool cs

/-! ## Scalars -/

/-- How a text is written. -/
inductive TextStyle where
  | plain
  | single
  | double
  | lines
deriving DecidableEq

/-- How a text is written; `binary` texts may always be plain. -/
def styleOf (binary : Bool) (cs : List Char) : TextStyle :=
  if cs.contains '\n' then if allowsLines cs then .lines else .double
  else if !binary && !readsAsText cs then .double
  else if allowsPlain cs then .plain
  else if allowsSingleQuotes cs then .single
  else .double

/-- The escapes of one letter between double quotes. -/
def doubleEscapes : List (Nat × Char) :=
  [(0x00, '0'), (0x07, 'a'), (0x08, 'b'), (0x09, 't'), (0x0A, 'n'), (0x0B, 'v'), (0x0C, 'f'),
    (0x0D, 'r'), (0x1B, 'e'), (0x22, '"'), (0x5C, '\\'), (0x85, 'N'), (0xA0, '_'), (0x2028, 'L'),
    (0x2029, 'P')]

/-- Capital hexadecimal digits. -/
def upperHex (width n : Nat) : Text :=
  (Text.hex width n).map fun b => if Text.isLower b then b - 0x20 else b

/-- A character between double quotes. -/
def doubleChar (c : Char) : Text :=
  if isPlainChar c && !isBreakChar c && c ≠ '"' && c ≠ '\\' then Text.ofChar c
  else
    match doubleEscapes.lookup c.toNat with
    | some letter => ['\\', letter]
    | none =>
      if c.toNat ≤ 0xFF then "\\x" ++ upperHex 2 c.toNat
      else if c.toNat ≤ 0xFFFF then "\\u" ++ upperHex 4 c.toNat
      else "\\U" ++ upperHex 8 c.toNat

/-- The characters of a text with each line after a break indented; `fresh` tells whether a break
stands before them. -/
def indentLines (indent : Nat) (fresh : Bool) : List Char → Text
  | [] => []
  | c :: rest =>
    if isBreakChar c then Text.ofChar c ++ indentLines indent true rest
    else
      let pad : Text := if fresh then List.replicate indent 0x20 else []
      let quote : Text := if c = '\'' then "'" else []
      pad ++ quote ++ Text.ofChar c ++ indentLines indent false rest

/-- The lines of a text, each with its break, below a mark. -/
def blockLines (indent : Nat) (fresh : Bool) : List Char → Text
  | [] => []
  | c :: rest =>
    if isBreakChar c then Text.ofChar c ++ blockLines indent true rest
    else
      let pad : Text := if fresh then List.replicate indent 0x20 else []
      pad ++ Text.ofChar c ++ blockLines indent false rest

/-- What is done with the breaks at the end of a text that is written line by line: without one they
are stripped, and several are kept. -/
def chompMark (cs : List Char) : Text :=
  match cs.reverse with
  | [] => "-"
  | last :: before =>
    if !isBreakChar last then "-"
    else if before.head?.all isBreakChar then "+"
    else []

/-- A text written line by line, with the content at `indent`. -/
def renderLines (indent : Nat) (cs : List Char) : Text :=
  let hint : Text := if cs.head?.any fun c => c = ' ' || isBreakChar c then "2" else []
  let first : Text := if cs.head?.any isBreakChar then [] else "\n"
  "|" ++ hint ++ chompMark cs ++ first ++ blockLines indent true cs

/-- Base 64 on lines of 70 letters. -/
def base64Lines (t : Text) : Text :=
  let letters := Base64.encode t
  if letters.length < 70 then letters else cutLines letters.length letters
where
  cutLines : Nat → Text → Text
    | 0, _ => []
    | _, [] => []
    | fuel + 1, t => t.take 70 ++ "\n" ++ cutLines fuel (t.drop 70)

/-- A text as a scalar: its tag, its characters and its style. -/
structure Scalar where
  tag : Text
  chars : List Char
  style : TextStyle

/-- The scalar of a text; a text that is not well-formed UTF-8 is written as binary data. -/
def Scalar.ofText (t : Text) : Scalar :=
  if Text.isUtf8 t then
    let cs := Text.chars t
    ⟨[], cs, styleOf false cs⟩
  else
    let cs := Text.chars (base64Lines t)
    ⟨"!!binary ", cs, styleOf true cs⟩

/-- A scalar as it is written, with further lines at `indent`. -/
def Scalar.render (s : Scalar) (indent : Nat) : Text :=
  s.tag ++
    match s.style with
    | .plain => Text.ofChars s.chars
    | .single => "'" ++ indentLines indent false s.chars ++ "'"
    | .double => "\"" ++ s.chars.flatMap doubleChar ++ "\""
    | .lines => renderLines indent s.chars

/-- Whether more lines of the same kind could follow a scalar. -/
def Scalar.isOpen (s : Scalar) : Bool := s.style = .lines && chompMark s.chars = "+"

/-- Whether a key fits on the line of its value. -/
def Scalar.isSimpleKey (s : Scalar) : Bool :=
  !s.chars.any isBreakChar && s.tag.length + (Text.ofChars s.chars).length ≤ 128

/-! ## Blocks -/

/-- A text that ends with a line break. -/
def endLine (t : Text) : Text := if t.getLast? = some 0x0A then t else t ++ "\n"

/-- Spaces. -/
def spaces (n : Nat) : Text := List.replicate n 0x20

/-- A list at the given indentation. -/
def renderList (indent : Nat) (items : List Text) : Text :=
  items.flatMap fun t =>
    endLine (spaces indent ++ "- " ++ (Scalar.ofText t).render (indent + 2))

mutual

/-- What follows a key and its colon, with its line breaks; `indent` is that of the key. -/
def Block.render (indent : Nat) (simple : Bool) : Block → Text
  | .text t => endLine (" " ++ (Scalar.ofText t).render (indent + 2))
  | .bool b => if b then " true\n" else " false\n"
  | .list [] => " []\n"
  | .list items => "\n" ++ renderList (indent + 2) items
  | .record [] => " \x7b\x7d\n"
  | .record entries =>
    if simple then "\n" ++ renderEntries (indent + 2) false entries
    else " " ++ renderEntries (indent + 2) true entries

/-- The entries of a record; `started` tells whether the first line has its indentation. -/
def renderEntries (indent : Nat) (started : Bool) : List (Text × Block) → Text
  | [] => []
  | (key, value) :: rest =>
    let k := Scalar.ofText key
    let pad := if started then [] else spaces indent
    let entry : Text :=
      if k.isSimpleKey then pad ++ k.render (indent + 2) ++ ":" ++ value.render indent true
      else
        endLine (pad ++ "? " ++ k.render (indent + 2)) ++ spaces indent ++ ":" ++
          value.render indent false
    entry ++ renderEntries indent false rest

/-- Whether the last scalar could go on. -/
def Block.isOpen : Block → Bool
  | .text t => (Scalar.ofText t).isOpen
  | .bool _ => false
  | .list items => (items.getLast?.map fun t => (Scalar.ofText t).isOpen).getD false
  | .record entries => lastIsOpen entries

/-- Whether the last scalar of a record could go on. -/
def lastIsOpen : List (Text × Block) → Bool
  | [] => false
  | [(_, value)] => value.isOpen
  | _ :: rest => lastIsOpen rest

end

/-- A document that consists of a record. -/
def renderDocument (entries : List (Text × Block)) : Text :=
  let body : Text := if entries.isEmpty then "\x7b\x7d\n" else renderEntries 0 false entries
  body ++ if lastIsOpen entries then ("...\n" : Text) else []

/-! ## The order of keys -/

/-- The number at the start of a text, after `start`, and how many digits it has. -/
def leadingNumber (start : Nat) (cs : List Char) : Nat × Nat :=
  let digits := cs.takeWhile Text.isDigitChar
  (digits.foldl (fun n c => 10 * n + (c.toNat - 0x30)) start, digits.length)

/-- Whether the digits directly before a place, nearest first, hold one other than zero. -/
def followsNumber (before : List Char) : Bool :=
  (before.takeWhile Text.isDigitChar).any (· ≠ '0')

/-- Whether a key comes before another one: numbers within keys are compared by value. `before` is
what the keys have in common, backwards. -/
def keyBefore (before : List Char) : List Char → List Char → Bool
  | [], b => !b.isEmpty
  | _, [] => false
  | x :: a, y :: b =>
    if x = y then keyBefore (x :: before) a b
    else
      let afterDigit := before.head?.any Text.isDigitChar
      match Text.isLetterChar x, Text.isLetterChar y with
      | true, true => x < y
      | true, false => afterDigit
      | false, true => !afterDigit
      | false, false =>
        let start := if (x = '0' || y = '0') && followsNumber before then 1 else 0
        let m := leadingNumber start (x :: a)
        let n := leadingNumber start (y :: b)
        if m.1 ≠ n.1 then m.1 < n.1 else if m.2 ≠ n.2 then m.2 < n.2 else x < y

/-- Entries in the order of their keys. -/
def sortEntries {α : Type} (es : List (Text × α)) : List (Text × α) :=
  es.mergeSort fun a b => !keyBefore [] (Text.chars b.1) (Text.chars a.1)

end Yaml
end LiquidLint
