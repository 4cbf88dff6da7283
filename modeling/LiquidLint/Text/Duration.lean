import LiquidLint.Text.Utf8

/-!
# Durations

Spans of time as users write them: decimal numbers, each with a unit, one after the other. They are
counted in nanoseconds and have to fit 64 bits.
-/

namespace LiquidLint
namespace Duration

/-- The units and their nanoseconds. -/
def units : List (Text × Nat) :=
  [("ns", 1), ("us", 1000), ("µs", 1000), ("μs", 1000), ("ms", 1000000), ("s", 1000000000),
    ("m", 60000000000), ("h", 3600000000000)]

/-- A byte inside quotes; those outside of the printable ASCII range are shown by number. -/
def quoteByte (b : UInt8) : Text :=
  if b < 0x20 || 0x80 ≤ b then "\\x" ++ Text.hex 2 b.toNat
  else if b = '"' || b = '\\' then ['\\', b]
  else [b]

/-- A text between quotes. -/
def quote (t : Text) : Text := "\"" ++ t.flatMap quoteByte ++ "\""

/-- What goes on a number: a digit or a point. -/
def isNumberByte (b : UInt8) : Bool := b = '.' || Text.isDigit b

/-- The largest number of nanoseconds, without regard to a sign. -/
def limit : Nat := Nat.pow 2 63

/-- The digits at the start of a text, and what follows. -/
def digits (t : Text) : Text × Text := (t.takeWhile Text.isDigit, t.dropWhile Text.isDigit)

/-- The value of digits; none stand for zero. -/
def value (ds : Text) : Nat := (Text.toNat? ds).getD 0

/-- The digits after a point at the start of a text, if there is one, and what follows. -/
def fraction : Text → Text × Text
  | 0x2E :: rest => digits rest
  | t => ([], t)

/-- The first number with its unit in nanoseconds, and what follows. `whole` is the text that a
failure speaks of. -/
def first (whole t : Text) : Except Text (Nat × Text) :=
  let invalid : Text := "time: invalid duration " ++ quote whole
  let (ds, rest) := digits t
  let (fs, rest) := fraction rest
  if ds.isEmpty && fs.isEmpty then .error invalid
  else if limit < value ds then .error invalid
  else
    let name := rest.takeWhile fun b => !isNumberByte b
    if name.isEmpty then .error ("time: missing unit in duration " ++ quote whole)
    else
      match units.lookup name with
      | none =>
        .error ("time: unknown unit " ++ quote name ++ " in duration " ++ quote whole)
      | some unit =>
        let amount := value ds * unit + value fs * unit / Nat.pow 10 fs.length
        if limit < amount then .error invalid
        else .ok (amount, rest.dropWhile fun b => !isNumberByte b)

/-- The sum of the numbers in a text; `fuel` bounds how many there can be. -/
def sum (whole : Text) (n : Nat) : (fuel : Nat) → Text → Except Text Nat
  | _, [] => .ok n
  | 0, _ => .ok n
  | fuel + 1, t =>
    match first whole t with
    | .error f => .error f
    | .ok (m, rest) =>
      if limit < n + m then .error ("time: invalid duration " ++ quote whole)
      else sum whole (n + m) fuel rest

/-- The duration without its sign. -/
def magnitude (whole t : Text) : Except Text Nat :=
  if t = "0" then .ok 0
  else if t.isEmpty then .error ("time: invalid duration " ++ quote whole)
  else sum whole 0 t.length t

/-- The nanoseconds of a duration. -/
def read (t : Text) : Except Text Int :=
  match t with
  | 0x2D :: rest => (magnitude t rest).map fun n => -(n : Int)
  | 0x2B :: rest => unsigned rest
  | rest => unsigned rest
where
  unsigned (rest : Text) : Except Text Int :=
    match magnitude t rest with
    | .error f => .error f
    | .ok n =>
      if limit ≤ n then .error ("time: invalid duration " ++ quote t) else .ok (n : Int)

end Duration
end LiquidLint
