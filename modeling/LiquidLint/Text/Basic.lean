/-!
# Byte texts

Sources, names, messages and reports are sequences of bytes: offsets, columns and lengths count
bytes, and a template may hold bytes that are not valid UTF-8. `Text` is such a sequence, as a list,
so that every scanner of the library is a recursion on what is left to read.

The module holds the operations that look at single bytes only. What reads characters is in
`LiquidLint.Text.Utf8` and the modules after it.
-/

namespace LiquidLint

/-- The sum of some numbers. -/
def sumOf (ns : List Nat) : Nat := ns.foldr (· + ·) 0

@[simp] theorem sumOf_nil : sumOf [] = 0 := rfl

@[simp] theorem sumOf_cons (n : Nat) (ns : List Nat) : sumOf (n :: ns) = n + sumOf ns := rfl

@[simp] theorem sumOf_append (ns ms : List Nat) : sumOf (ns ++ ms) = sumOf ns + sumOf ms := by
  induction ns with
  | nil => exact (Nat.zero_add _).symm
  | cons n rest ih => rw [List.cons_append, sumOf_cons, ih, sumOf_cons, Nat.add_assoc]

theorem sumOf_eq_zero_iff {ns : List Nat} : sumOf ns = 0 ↔ ∀ n ∈ ns, n = 0 := by
  induction ns with
  | nil => simp
  | cons n rest ih => simp [ih]

/-- A sequence of bytes. -/
abbrev Text := List UInt8

/-- A character literal below 128 stands for its byte. -/
instance byteOfChar : Coe Char UInt8 := ⟨Char.toUInt8⟩

namespace Text

/-- The UTF-8 bytes of a string. -/
def ofString (s : String) : Text := s.toList.flatMap String.utf8EncodeChar

instance : Coe String Text := ⟨ofString⟩

/-! ## Pieces -/

/-- The bytes from offset `i` up to offset `j`; empty when `j ≤ i`. -/
def slice (t : Text) (i j : Nat) : Text := (t.drop i).take (j - i)

/-- What follows `p` in `t`, when `t` starts with `p`. -/
def dropStart? : (p t : Text) → Option Text
  | [], t => some t
  | _ :: _, [] => none
  | a :: p, b :: t => if a = b then dropStart? p t else none

/-- Whether `t` starts with `p`. -/
def startsWith (t p : Text) : Bool := (dropStart? p t).isSome

/-- Whether `t` ends with `p`. -/
def endsWith (t p : Text) : Bool := startsWith t.reverse p.reverse

/-- `t` without `p` at its start, or `t` itself. -/
def trimStartText (t p : Text) : Text := (dropStart? p t).getD t

/-- `t` without `p` at its end, or `t` itself. -/
def trimEndText (t p : Text) : Text := if endsWith t p then t.take (t.length - p.length) else t

/-- The offset of the first place where `p` stands in `t`. -/
def offsetOf? (t p : Text) : Option Nat :=
  if startsWith t p then some 0
  else match t with
    | [] => none
    | _ :: rest => (offsetOf? rest p).map (· + 1)

/-- The offset of the first byte that `q` accepts. -/
def offsetWhere? (q : UInt8 → Bool) : Text → Option Nat
  | [] => none
  | b :: rest => if q b then some 0 else (offsetWhere? q rest).map (· + 1)

/-- Whether `p` stands somewhere in `t`. -/
def hasText (t p : Text) : Bool := (offsetOf? t p).isSome

/-- The offset of the last place where `p` stands in `t`. -/
def lastOffsetOf? (t p : Text) : Option Nat :=
  (offsetOf? t.reverse p.reverse).map (t.length - p.length - ·)

/-- The texts before and after the first `p`. -/
def cut? (t p : Text) : Option (Text × Text) :=
  (offsetOf? t p).map fun i => (t.take i, t.drop (i + p.length))

/-- The pieces of `t` between bytes that `q` accepts; one more piece than such bytes. -/
def splitWhere (q : UInt8 → Bool) : Text → List Text
  | [] => [[]]
  | b :: rest =>
    if q b then [] :: splitWhere q rest
    else match splitWhere q rest with
      | [] => [[b]]
      | piece :: more => (b :: piece) :: more

/-- The pieces of `t` between occurrences of the byte `sep`. -/
def splitAtByte (t : Text) (sep : UInt8) : List Text := splitWhere (· = sep) t

/-- The lines of `t`, each with its line feed; the last one may lack it and may be empty. -/
def linesWithEnds : Text → List Text
  | [] => [[]]
  | b :: rest =>
    if b = '\n' then [b] :: linesWithEnds rest
    else match linesWithEnds rest with
      | [] => [[b]]
      | line :: more => (b :: line) :: more

/-- The pieces written one after the other with `sep` between two of them. -/
def joinWith (sep : Text) : List Text → Text
  | [] => []
  | [t] => t
  | t :: rest => t ++ sep ++ joinWith sep rest

/-- Every occurrence of `p` from left to right, none overlapping the one before, replaced by `r`. -/
def replaceFrom (p r : Text) : (skip : Nat) → Text → Text
  | _, [] => []
  | skip + 1, _ :: rest => replaceFrom p r skip rest
  | 0, b :: rest =>
    if startsWith (b :: rest) p then r ++ replaceFrom p r (p.length - 1) rest
    else b :: replaceFrom p r 0 rest

/-- `replaceFrom` for a non-empty pattern; an empty one changes nothing. -/
def replaceText (t p r : Text) : Text := if p.isEmpty then t else replaceFrom p r 0 t

/-- `n` copies of `t`. -/
def times (n : Nat) (t : Text) : Text := (List.replicate n t).flatten

/-- `t` without the bytes at its start that `q` accepts. -/
def trimLeft (q : UInt8 → Bool) (t : Text) : Text := t.dropWhile q

/-- `t` without the bytes at its end that `q` accepts. -/
def trimRight (q : UInt8 → Bool) (t : Text) : Text := (t.reverse.dropWhile q).reverse

/-! ## Numbers -/

/-- The decimal digits of a number. -/
def ofNat (n : Nat) : Text := (Nat.toDigits 10 n).map Char.toUInt8

/-- The decimal digits of an integer, with a minus sign below zero. -/
def ofInt : Int → Text
  | .ofNat n => ofNat n
  | .negSucc n => '-' :: ofNat (n + 1)

/-- `n` in decimal with zeros in front up to `width` digits. -/
def padded (width n : Nat) : Text :=
  let digits := ofNat n
  List.replicate (width - digits.length) 0x30 ++ digits

/-! ## Byte classes -/

/-- Whether `b` is one of `0` to `9`. -/
def isDigit (b : UInt8) : Bool := 0x30 ≤ b && b ≤ 0x39

/-- Whether `b` is one of `a` to `z`. -/
def isLower (b : UInt8) : Bool := 0x61 ≤ b && b ≤ 0x7A

/-- Whether `b` is one of `A` to `Z`. -/
def isUpper (b : UInt8) : Bool := 0x41 ≤ b && b ≤ 0x5A

/-- Whether `b` is an ASCII letter. -/
def isLetter (b : UInt8) : Bool := isLower b || isUpper b

/-- `b` with an ASCII capital made small. -/
def lowerByte (b : UInt8) : UInt8 := if isUpper b then b + 0x20 else b

/-- The value of a hexadecimal digit. -/
def hexValue? (b : UInt8) : Option Nat :=
  if isDigit b then some (b.toNat - 0x30)
  else if 0x61 ≤ b && b ≤ 0x66 then some (b.toNat - 0x57)
  else if 0x41 ≤ b && b ≤ 0x46 then some (b.toNat - 0x37)
  else none

/-- `n` in hexadecimal with zeros in front up to `width` digits. -/
def hex (width n : Nat) : Text :=
  let digits := (Nat.toDigits 16 n).map Char.toUInt8
  List.replicate (width - digits.length) 0x30 ++ digits

/-- The number that a run of decimal digits writes; `none` for an empty text or another byte. -/
def toNat? (t : Text) : Option Nat :=
  if t.isEmpty || !t.all isDigit then none
  else some (t.foldl (fun n b => 10 * n + (b.toNat - 0x30)) 0)

/-- The order of byte texts: the first difference decides, and a text precedes its extensions. -/
def order (a b : Text) : Ordering := List.compareLex compare a b

/-- Whether `a` precedes or equals `b`. -/
def le (a b : Text) : Bool := order a b != .gt

/-- The texts in ascending order. -/
def sort (ts : List Text) : List Text := ts.mergeSort le

/-- The texts in ascending order, each once. -/
def sortDedup (ts : List Text) : List Text := (sort ts).eraseReps

end Text

end LiquidLint
