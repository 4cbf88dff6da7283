import LiquidLint.Failure
import LiquidLint.Text.Path
import LiquidLint.Text.Quoted

/-!
# Patterns of paths

In a pattern, `*` stands for a run of characters without a slash, `**` for any run, `?` for one
character other than a slash, a bracket for one character of a list or range, and braces for
alternatives. A backslash takes the meaning of the next character away.
-/

namespace LiquidLint
namespace Glob

/-- A piece of a pattern. -/
inductive Piece where
  | text (chars : List Char)
  /-- A run of characters without a slash. -/
  | any
  /-- Any run of characters. -/
  | super
  /-- One character other than a slash. -/
  | single
  /-- One character that is in the list, or that is not. -/
  | list (chars : List Char) (negated : Bool)
  /-- One character that is in the range, or that is not. -/
  | range (low high : Char) (negated : Bool)
  /-- Pieces one after the other. -/
  | sequence (pieces : List Piece)
  /-- One of several pieces. -/
  | oneOf (alternatives : List Piece)
deriving BEq

/-- Why a pattern cannot be read. -/
inductive PatternFault where
  | unreadable
  | unexpectedEnd
  | unclosedRange
  | emptyRange
  | reversedRange (low high : Char)
deriving DecidableEq

/-- The wording of a fault. -/
def PatternFault.message : PatternFault → Text
  | .unreadable => "could not read rune"
  | .unexpectedEnd => "unexpected end of input"
  | .unclosedRange => "expected close range character"
  | .emptyRange => "could not parse range"
  | .reversedRange low high =>
    "hi character '" ++ Text.ofChar high ++ "' should be greater than lo '" ++ Text.ofChar low ++ "'"

/-- The characters of a pattern up to one that cannot be read, and whether there is such a one. -/
def readable (t : Text) : List Char × Bool :=
  let isChar (u : Text.CharUnit) : Bool := match u with
    | .char c => c ≠ Text.replacement
    | .stray _ => false
  let us := Text.units t
  let good := us.takeWhile isChar
  (good.map Text.CharUnit.toChar, good.length < us.length)

/-! ## Texts -/

/-- The text up to a character of `stops`, with what follows. -/
def readText (stops : List Char) : List Char → List Char × List Char
  | [] => ([], [])
  | ['\\'] => ([], [])
  | '\\' :: c :: rest =>
    let r := readText stops rest
    (c :: r.1, r.2)
  | c :: rest =>
    if stops.contains c then ([], c :: rest)
    else
      let r := readText stops rest
      (c :: r.1, r.2)

theorem length_readText_le (stops cs : List Char) : (readText stops cs).2.length ≤ cs.length := by
  fun_induction readText stops cs <;> simp_all +zetaDelta <;> omega

/-- The text that starts with `c`, which is not one of `stops`; a lone backslash gives none. -/
def readPlain (c : Char) (rest stops : List Char) : List Piece × List Char :=
  if c = '\\' then
    match rest with
    | [] => ([], [])
    | d :: more =>
      let r := readText stops more
      ([.text (d :: r.1)], r.2)
  else
    let r := readText stops rest
    ([.text (c :: r.1)], r.2)

theorem length_readPlain_le (c : Char) (rest stops : List Char) :
    (readPlain c rest stops).2.length ≤ rest.length := by
  unfold readPlain
  split
  · split
    · simp
    · rename_i d more
      have := length_readText_le stops more
      simp only [List.length_cons]
      omega
  · exact length_readText_le stops rest

/-! ## Brackets -/

/-- Whether the text ends before a range or a list can. -/
def endsInBracket : List Char → Bool
  | [_, '-', _] | [_, '-'] | [] => true
  | _ => false

/-- What stands behind the opening bracket, with what follows the closing one. -/
def readBracket (cs : List Char) : Except PatternFault (Piece × List Char) :=
  let (negated, cs) := match cs with
    | '!' :: rest => (true, rest)
    | cs => (false, cs)
  match cs with
  | low :: '-' :: high :: close :: rest =>
    if close ≠ ']' then .error .unclosedRange
    else if high < low then .error (.reversedRange low high)
    else if low = Char.ofNat 0 || high = Char.ofNat 0 then .error .emptyRange
    else .ok (.range low high negated, rest)
  | cs =>
    if endsInBracket cs then .error .unexpectedEnd
    else
      let (chars, rest) := readText [']'] cs
      match rest with
      | [] => .error .unexpectedEnd
      | _ :: rest => if chars.isEmpty then .error .emptyRange else .ok (.list chars negated, rest)

theorem length_readBracket_le {cs rest : List Char} {p : Piece}
    (h : readBracket cs = .ok (p, rest)) : rest.length ≤ cs.length := by
  have key : ∀ ds : List Char, (readText [']'] ds).2.length ≤ ds.length := length_readText_le _
  unfold readBracket at h
  split at h
  rename_i negated ds hds
  have hle : ds.length ≤ cs.length := by
    revert hds
    split
    · intro e
      simp only [Prod.mk.injEq] at e
      simp [← e.2]
    · intro e
      simp only [Prod.mk.injEq] at e
      simp [e.2]
  split at h
  · split at h
    · simp at h
    · split at h
      · simp at h
      · split at h
        · simp at h
        · simp only [Except.ok.injEq, Prod.mk.injEq] at h
          obtain ⟨-, rfl⟩ := h
          simp only [List.length_cons] at hle
          omega
  · split at h
    · simp at h
    · split at h
      rename_i chars more hmore
      have hk := key ds
      rw [hmore] at hk
      split at h
      · simp at h
      · split at h
        · simp at h
        · simp only [Except.ok.injEq, Prod.mk.injEq] at h
          obtain ⟨-, rfl⟩ := h
          simp only [List.length_cons] at hk
          omega

/-! ## Patterns -/

/-- Alternatives whose closing brace was not seen yet: the pieces before them, and the alternatives
so far. -/
structure OpenBraces where
  before : List Piece
  done : List Piece := []

/-- The pieces around alternatives that end with `pieces`. -/
def OpenBraces.close (b : OpenBraces) (pieces : List Piece) : List Piece :=
  b.before ++ [.oneOf (b.done ++ [.sequence pieces])]

/-- The pattern with every brace closed. -/
def closeAll : List OpenBraces → List Piece → Piece
  | [], pieces => .sequence pieces
  | b :: outer, pieces => closeAll outer (b.close pieces)

/-- Reads pieces, where `braces` are the open braces, innermost first, and `pieces` those read since
the innermost one. -/
def readPieces (broken : Bool) (braces : List OpenBraces) (pieces : List Piece) (cs : List Char) :
    Except PatternFault Piece :=
  match cs with
  | [] => if broken then .error .unreadable else .ok (closeAll braces pieces)
  | '*' :: '*' :: rest => readPieces broken braces (pieces ++ [.super]) rest
  | '*' :: rest => readPieces broken braces (pieces ++ [.any]) rest
  | '?' :: rest => readPieces broken braces (pieces ++ [.single]) rest
  | '[' :: rest =>
    match _h : readBracket rest with
    | .error e => .error e
    | .ok (p, more) => readPieces broken braces (pieces ++ [p]) more
  | '\x7b' :: rest => readPieces broken ({ before := pieces } :: braces) [] rest
  | c :: rest =>
    match braces with
    | b :: outer =>
      if c = ',' then
        readPieces broken ({ b with done := b.done ++ [.sequence pieces] } :: outer) [] rest
      else if c = '\x7d' then readPieces broken outer (b.close pieces) rest
      else
        let r := readPlain c rest ['?', '*', '[', '\x7b', '\x7d', ',']
        readPieces broken (b :: outer) (pieces ++ r.1) r.2
    | [] =>
      let r := readPlain c rest ['?', '*', '[', '\x7b']
      readPieces broken [] (pieces ++ r.1) r.2
termination_by cs.length
decreasing_by
  all_goals simp only [List.length_cons]
  all_goals try omega
  · have := length_readBracket_le _h
    omega
  all_goals exact Nat.lt_succ_of_le (length_readPlain_le ..)

/-- Reads a pattern. -/
def parse (t : Text) : Except PatternFault Piece :=
  let (cs, broken) := readable t
  readPieces broken [] [] cs

end Glob
end LiquidLint
