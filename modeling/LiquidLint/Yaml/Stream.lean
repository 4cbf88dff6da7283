import LiquidLint.Text.Utf8

/-!
# Characters of a YAML stream

The bytes of a stream are decoded in pieces of up to 512 bytes, and a piece with a byte or character
that YAML does not allow is refused as a whole. `decode` gives the characters of the pieces before
it, and the problem that whoever reads on runs into.

A `Cursor` is a place in a stream: what is left to read, and where that stands.
-/

namespace LiquidLint
namespace Yaml

/-- A place in a stream: how many characters, lines and characters of the line lie before it. -/
structure Mark where
  index : Nat := 0
  line : Nat := 0
  column : Nat := 0
deriving DecidableEq

/-- Why a stream cannot be read. -/
inductive Problem where
  /-- The bytes do not make up allowed characters. -/
  | encoding (what : Text)
  /-- The characters do not make up tokens. The marks tell where the token began and where reading
  stopped. -/
  | lexical (what : Text) (context place : Mark)
  /-- The tokens do not make up nodes. The marks tell where the node began, the start of the stream
  if there was none, and where the offending token stands. -/
  | shape (what : Text) (context place : Mark)
  /-- The nodes do not make sense. -/
  | content (what : Text)
deriving DecidableEq

/-- The line that a problem is reported at: that of its context or, where this is the first line, of
its place. Problems on the first line have none, nor do those of encoding and content. -/
def Problem.line? : Problem → Option Nat
  | .encoding _ | .content _ => none
  | .lexical _ context place =>
    if context.line ≠ 0 then some (context.line + 1)
    else if place.line ≠ 0 then some (place.line + 1)
    else none
  | .shape _ context place =>
    if context.line ≠ 0 then some context.line
    else if place.line ≠ 0 then some place.line
    else none

/-- What a problem consists in. -/
def Problem.what : Problem → Text
  | .encoding what | .content what | .lexical what _ _ | .shape what _ _ => what

/-- The wording of a problem. -/
def Problem.message (p : Problem) : Text :=
  match p.line? with
  | some line => "line " ++ Text.ofNat line ++ ": " ++ p.what
  | none => p.what

/-! ## Decoding -/

/-- Whether YAML allows the character. -/
def isAllowed (n : Nat) : Bool :=
  n = 0x09 || n = 0x0A || n = 0x0D || (0x20 ≤ n && n ≤ 0x7E) || n = 0x85 ||
    (0xA0 ≤ n && n ≤ 0xD7FF) || (0xE000 ≤ n && n ≤ 0xFFFD && n ≠ 0xFEFF) ||
    (0x10000 ≤ n && n ≤ 0x10FFFF)

/-- How many bytes a character takes that starts with `b`. -/
def widthOf? (b : UInt8) : Option Nat :=
  if b < 0x80 then some 1
  else if 0xC0 ≤ b && b ≤ 0xDF then some 2
  else if 0xE0 ≤ b && b ≤ 0xEF then some 3
  else if 0xF0 ≤ b && b ≤ 0xF7 then some 4
  else none

/-- The character that the bytes of one character stand for. -/
def decodeChar (bytes : Text) : Except Text Char :=
  match bytes with
  | [] => .error "incomplete UTF-8 octet sequence"
  | b :: more =>
    if more.isEmpty then .ok (Char.ofNat b.toNat)
    else if !more.all Text.isContinuation then .error "invalid trailing UTF-8 octet"
    else
      let n := Text.codePoint b more
      let least := match more.length with
        | 1 => 0x80
        | 2 => 0x800
        | _ => 0x10000
      if n < least then .error "invalid length of a UTF-8 sequence"
      else if (0xD800 ≤ n && n ≤ 0xDFFF) || 0x10FFFF < n then .error "invalid Unicode character"
      else .ok (Char.ofNat n)

/-- Decodes one piece: the characters of the `room` bytes at the start of `t`, last one first, and
the rest from the first byte on whose character does not fit. -/
def decodePiece (room : Nat) (done : List Char) (t : Text) : Except Text (List Char × Text) :=
  match t with
  | [] => .ok (done, [])
  | b :: rest =>
    if room = 0 then .ok (done, b :: rest)
    else match widthOf? b with
      | none => .error "invalid leading UTF-8 octet"
      | some width =>
        if room < width || rest.length + 1 < width then .ok (done, b :: rest)
        else match decodeChar ((b :: rest).take width) with
          | .error e => .error e
          | .ok c =>
            if isAllowed c.toNat then decodePiece (room - width) (c :: done) (rest.drop (width - 1))
            else .error "control characters are not allowed"
termination_by t.length
decreasing_by
  simp only [List.length_drop, List.length_cons]
  omega

/-- Decodes pieces until the text or the allowed characters end. -/
def decodePieces (done : List Char) (t : Text) : List Char × Option Text :=
  match decodePiece 512 done t with
  | .error e => (done.reverse, some e)
  | .ok (done, rest) =>
    if rest.isEmpty then (done.reverse, none)
    else if rest.length < t.length then decodePieces done rest
    else (done.reverse, some "incomplete UTF-8 octet sequence")
termination_by t.length

/-- Decodes units of 16 bits. -/
def decodeWide (order : UInt8 → UInt8 → Nat) (done : List Char) : Text → List Char × Option Text
  | [] => (done.reverse, none)
  | [_] => (done.reverse, some "incomplete UTF-16 character")
  | a :: b :: rest =>
    let n := order a b
    if 0xDC00 ≤ n && n ≤ 0xDFFF then (done.reverse, some "unexpected low surrogate area")
    else if 0xD800 ≤ n && n ≤ 0xDBFF then
      match rest with
      | c :: d :: more =>
        let low := order c d
        if 0xDC00 ≤ low && low ≤ 0xDFFF then
          decodeWide order
            (Char.ofNat (0x10000 + (n - 0xD800) * 0x400 + (low - 0xDC00)) :: done) more
        else (done.reverse, some "expected low surrogate area")
      | _ => (done.reverse, some "incomplete UTF-16 surrogate pair")
    else if isAllowed n then decodeWide order (Char.ofNat n :: done) rest
    else (done.reverse, some "control characters are not allowed")

/-- The characters of a stream, and the problem after them. A byte order mark decides between UTF-8
and UTF-16. -/
def decode (t : Text) : List Char × Option Text :=
  match t with
  | 0xEF :: 0xBB :: 0xBF :: rest => decodePieces [] rest
  | 0xFF :: 0xFE :: rest => decodeWide (fun a b => a.toNat + 256 * b.toNat) [] rest
  | 0xFE :: 0xFF :: rest => decodeWide (fun a b => 256 * a.toNat + b.toNat) [] rest
  | _ => decodePieces [] t

/-! ## Character classes -/

/-- A space or a tab. -/
def isBlank (c : Char) : Bool := c = ' ' || c = '\t'

/-- A line break. -/
def isBreak (c : Char) : Bool :=
  c = '\r' || c = '\n' || c.toNat = 0x85 || c.toNat = 0x2028 || c.toNat = 0x2029

/-- A letter, a digit, an underscore or a dash. -/
def isWordChar (c : Char) : Bool := c.isAlphanum || c = '_' || c = '-'

/-- Whether the list ends or starts with a blank or a line break. -/
def blankNext : List Char → Bool
  | [] => true
  | c :: _ => isBlank c || isBreak c

/-- Whether the list ends or starts with a line break. -/
def breakNext : List Char → Bool
  | [] => true
  | c :: _ => isBreak c

/-- Whether a document mark made of three times `c` stands at the start. -/
def markNext (c : Char) : List Char → Bool
  | a :: b :: d :: rest => a = c && b = c && d = c && blankNext rest
  | _ => false

/-! ## Cursors -/

/-- A place in a stream and what is left to read there. -/
structure Cursor where
  rest : List Char
  mark : Mark := {}
  /-- How many line breaks were passed since the last character that is not white space. -/
  newlines : Nat := 0
  /-- The problem behind the last character. -/
  failure : Option Text := none

namespace Cursor

/-- Passes `n` characters, none of them a line break. -/
def advance (c : Cursor) (n : Nat) : Cursor :=
  { c with
    rest := c.rest.drop n
    mark := { c.mark with index := c.mark.index + n, column := c.mark.column + n }
    newlines := if (c.rest.take n).all isBlank then c.newlines else 0 }

/-- Passes one line break, where one stands. -/
def passBreak (c : Cursor) : Cursor :=
  match c.rest with
  | '\r' :: '\n' :: rest =>
    { c with
      rest
      mark := { index := c.mark.index + 2, line := c.mark.line + 1, column := 0 }
      newlines := c.newlines + 1 }
  | d :: rest =>
    if isBreak d then
      { c with
        rest
        mark := { index := c.mark.index + 1, line := c.mark.line + 1, column := 0 }
        newlines := c.newlines + 1 }
    else c
  | [] => c

/-- What a line break at the cursor stands for in a scalar. -/
def breakText (c : Cursor) : List Char :=
  match c.rest with
  | [] => []
  | d :: _ =>
    if d.toNat = 0x2028 || d.toNat = 0x2029 then [d] else if isBreak d then ['\n'] else []

/-- Passes the characters that `p` accepts, none of them a line break. -/
def passWhile (c : Cursor) (p : Char → Bool) : Cursor := c.advance (c.rest.takeWhile p).length

/-- Raises the problem behind the last character when fewer than `n` characters are left. -/
def need (c : Cursor) (n : Nat) : Except Problem Unit :=
  match c.failure with
  | none => .ok ()
  | some what => if c.rest.length < n then .error (.encoding what) else .ok ()

end Cursor

end Yaml
end LiquidLint
