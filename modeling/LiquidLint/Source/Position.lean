import LiquidLint.Text.Basic

/-!
# Places in a source

A place is an offset in bytes, or a line and a column. The line table of a source ties the two
together: its lines follow each other, and a line feed stands between two of them.
-/

namespace LiquidLint
namespace Source

/-- A place: the offset, line and column, all counted from zero. -/
structure Position where
  offset : Int := 0
  line : Int := 0
  column : Int := 0
deriving DecidableEq

/-- The bytes from `start` up to `stop` of a source. -/
structure Span where
  start : Nat
  stop : Nat
deriving DecidableEq

/-- How many bytes a span has. -/
def Span.length (s : Span) : Nat := s.stop - s.start

/-- The bytes that someone asks for; they need not lie in any source. -/
structure Range where
  start : Int := 0
  stop : Int := 0
deriving DecidableEq

/-- The range of a span. -/
def Span.toRange (s : Span) : Range := ⟨s.start, s.stop⟩

/-- `v` moved into the interval from `low` to `high`; `low` when there is none. -/
def clamp (v : Int) (low high : Nat) : Nat :=
  if high < low then low else max low (min v.toNat high)

theorem clamp_eq (v : Int) {low high : Nat} (h : low ≤ high) :
    ((clamp v low high : Nat) : Int) = max (low : Int) (min v high) := by
  unfold clamp
  rw [if_neg (Nat.not_lt.2 h)]
  omega

/-- A value in the interval stays where it is. -/
theorem clamp_natCast {v low high : Nat} (hlow : low ≤ v) (hhigh : v ≤ high) :
    clamp v low high = v := by
  have hmoved := clamp_eq v (Nat.le_trans hlow hhigh)
  omega

/-- A range cut down to the first `size` bytes. -/
def Range.within (r : Range) (size : Nat) : Span :=
  let start := clamp r.start 0 size
  ⟨start, clamp r.stop start size⟩

/-- The lines of `rest`, which starts at offset `here`, the current one having started at `start`. -/
def linesFrom (start here : Nat) : Text → List Span
  | [] => [⟨start, here⟩]
  | b :: rest =>
    if b = '\n' then ⟨start, here⟩ :: linesFrom (here + 1) (here + 1) rest
    else linesFrom start (here + 1) rest

/-- The line table of a source: its lines in order, without the line feeds. -/
def lineTable (source : Text) : List Span := linesFrom 0 0 source

/-- The place of an offset in a source with the line table `lines`: the first line that reaches the
offset holds it. -/
def positionIn (lines : List Span) (offset : Nat) : Position :=
  let line := lines.findIdx fun l => offset ≤ l.stop
  { offset := offset
    line := line
    column := offset - (lines.getD line ⟨0, 0⟩).start }

/-- The offset of a line and column, each moved to the nearest one there is. -/
def offsetIn (lines : List Span) (line column : Int) : Nat :=
  let l := lines.getD (clamp line 0 (lines.length - 1)) ⟨0, 0⟩
  l.start + clamp column 0 (l.stop - l.start)

end Source
end LiquidLint
