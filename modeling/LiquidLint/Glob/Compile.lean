import LiquidLint.Glob.Matcher
import LiquidLint.Glob.Pattern

/-!
# From patterns to matchers

Alternatives are first reduced to what they do not have in common. The pieces of a sequence become
matchers one by one; neighbours that can be tested together are glued, and what is left is split at
the longest piece of a known length. Which matcher comes out decides what is accepted where a text
holds characters of several bytes.
-/

namespace LiquidLint
namespace Glob

/-! ## Gluing neighbours -/

namespace Matcher

/-- The characters that a matcher of runs or single characters keeps out; `none` for matchers that
do more. -/
def barred? : Matcher → Option (List Char)
  | .super => some []
  | .any | .single => some ['/']
  | .list cs true => some cs
  | _ => none

/-- Whether the matcher takes exactly one character. -/
def isOne : Matcher → Bool
  | .single | .list _ _ => true
  | _ => false

/-- Whether the matcher is a run without slashes. -/
def isAny : Matcher → Bool
  | .any => true
  | _ => false

/-- Several matchers that keep the same characters out, as one. -/
def glueRuns? (ms : List Matcher) : Option Matcher :=
  match ms.mapM barred? with
  | some (barred :: more) =>
    if more.isEmpty || more.any (· ≠ barred) then none
    else if barred.isEmpty then some .super
    else if ms.all isAny then some .any
    else
      let least := ms.countP isOne
      let limit := if ms.any isAny then [] else [atMost least]
      some (.every (.atLeast least :: limit ++ [.lacks (Text.ofChars barred)]))
  | _ => none

/-- Several matchers as one, if they all have a known length or keep the same characters out. -/
def glue? (ms : List Matcher) : Option Matcher :=
  match glueRuns? ms with
  | some m => some m
  | none => if 1 < ms.length && ms.all fun m => (size? m).isSome then some (.row ms) else none

/-- A glued part of a list: from `start` up to `stop`. -/
structure Glued where
  matcher : Matcher
  start : Nat
  stop : Nat

/-- Whether `g` is to be preferred to what was found before. -/
def Glued.isBetter (g : Glued) : Option Glued → Bool
  | none => true
  | some old =>
    let longer := match size? old.matcher, size? g.matcher with
      | some a, some b => decide (a < b)
      | _, _ => false
    longer || old.stop - old.start < g.stop - g.start

/-- The part of the list that is best glued. -/
def bestGlue? (ms : List Matcher) : Option Glued :=
  let ranges := (List.range ms.length).flatMap fun l =>
    (List.range (ms.length - l)).map fun k => (l, ms.length - k)
  ranges.foldl (fun best (l, r) =>
    match glue? ((ms.drop l).take (r - l)) with
    | none => best
    | some m =>
      let g : Glued := ⟨m, l, r⟩
      if g.isBetter best then some g else best) none

/-- The list with neighbours glued for as long as that makes it shorter. -/
def glueAll : (fuel : Nat) → List Matcher → List Matcher
  | 0, ms => ms
  | fuel + 1, ms =>
    match bestGlue? ms with
    | none => ms
    | some g => glueAll fuel (ms.take g.start ++ g.matcher :: ms.drop g.stop)

/-! ## Splitting -/

/-- The place of the last one of the longest matchers of known lengths. -/
def longest? (ms : List Matcher) : Option Nat :=
  let step (best : Option (Nat × Nat)) (e : Matcher × Nat) : Option (Nat × Nat) :=
    match size? e.1, best with
    | none, _ => best
    | some n, none => some (e.2, n)
    | some n, some (_, m) => if m ≤ n then some (e.2, n) else best
  (ms.zipIdx.foldl step none).map (·.1)

/-- A list of matchers as one. -/
def sequenceOf : (fuel : Nat) → List Matcher → Matcher
  | _, [] => .nothing
  | _, [m] => m
  | 0, _ => .nothing
  | fuel + 1, m :: rest =>
    let ms := m :: rest
    let side (part : List Matcher) : Option Matcher :=
      if part.isEmpty then none else some (sequenceOf fuel part)
    match glue? ms with
    | some g => g
    | none =>
      match longest? ms with
      | none => .split m none (side rest)
      | some i => .split (ms.getD i .nothing) (side (ms.take i)) (side (ms.drop (i + 1)))

/-- A split at a text, where its sides allow a simpler matcher. -/
def simplifySplit (t : Text) (left right : Option Matcher) : Matcher :=
  match left, right with
  | none, none => .text t
  | some .super, some .super => .holds t
  | some .super, none => .endsWith t
  | none, some .super => .startsWith t
  | none, some (.endsWith u) => .startsAndEnds t u
  | some (.startsWith u), none => .startsAndEnds u t
  | some .any, none => .endsName t
  | none, some .any => .startsName t
  | left, right => .split (.text t) left right

mutual

/-- The matcher in its simplest form. -/
def simplify : Matcher → Matcher
  | .oneOf [m] => m
  | .list [c] false => .text (Text.ofChar c)
  | .split v l r =>
    match v with
    | .text t => simplifySplit t (simplifyOption l) (simplifyOption r)
    | v => .split v (simplifyOption l) (simplifyOption r)
  | m => m

/-- The side of a split in its simplest form. -/
def simplifyOption : Option Matcher → Option Matcher
  | none => none
  | some m => some (simplify m)

end

end Matcher

/-! ## Alternatives -/

/-- How far the common pieces of alternatives go from both ends. -/
structure Common where
  left : Nat := 0
  right : Nat := 0
  leftDone : Bool := false
  rightDone : Bool := false

/-- Compares the pieces number `i` from the left and from the right of the shortest alternative with
those of the others. -/
def Common.step (shortest : List Piece) (others : List (List Piece)) (c : Common) (i : Nat) :
    Common :=
  let j := shortest.length - 1 - i
  if shortest.length ≤ c.left + c.right then c
  else
    let c := others.foldl (fun c other =>
      if c.leftDone && c.rightDone then c
      else
        let leftDone := c.leftDone || shortest[i]? != other[i]?
        let rightDone := c.rightDone || (!leftDone && decide (j ≤ i)) ||
          shortest[j]? != other[j + other.length - shortest.length]?
        { c with leftDone, rightDone }) c
    { c with
      left := if c.leftDone then c.left else c.left + 1
      right := if c.rightDone then c.right else c.right + 1 }

/-- How many pieces the alternatives have in common at the left and at the right. -/
def commonEnds (alternatives : List (List Piece)) : Nat × Nat :=
  match alternatives with
  | [] | [_] => (0, 0)
  | first :: rest =>
    let best := rest.zipIdx.foldl (fun (b : List Piece × Nat) (a, k) =>
      if a.length < b.1.length then (a, k + 1) else b) (first, 0)
    let others := (alternatives.zipIdx.filter fun e => e.2 ≠ best.2).map (·.1)
    let c := (List.range best.1.length).foldl (Common.step best.1 others) {}
    (c.left, c.right)

/-- The alternatives when each is a sequence. -/
def sequences? (alternatives : List Piece) : Option (List (List Piece)) :=
  alternatives.mapM fun p => match p with
    | .sequence ps => some ps
    | _ => none

/-- Alternatives with what they have in common taken out; `none` if that is nothing. -/
def factor? (alternatives : List Piece) : Option Piece :=
  match sequences? alternatives with
  | none => none
  | some seqs =>
    let (left, right) := commonEnds seqs
    if left + right = 0 then none
    else
      let first := seqs.headD []
      let middles := (seqs.map fun ps => Piece.sequence ((ps.take (ps.length - right)).drop left))
      let unique := middles.foldl (fun seen p => if seen.contains p then seen else seen ++ [p]) []
      let middle := match unique with
        | [.sequence []] => []
        | [p] => [p]
        | ps => [.oneOf ps]
      let ends (ps : List Piece) : List Piece := if ps.isEmpty then [] else [.sequence ps]
      some (.sequence (ends (first.take left) ++ middle ++ ends (first.drop (first.length - right))))

mutual

/-- How many pieces a pattern consists of. -/
def Piece.weight : Piece → Nat
  | .sequence ps => 1 + weightAll ps
  | .oneOf ps => 1 + weightAll ps
  | _ => 1

/-- How many pieces several patterns consist of. -/
def weightAll : List Piece → Nat
  | [] => 0
  | p :: ps => p.weight + weightAll ps

end

/-- The matcher of a pattern; `fuel` bounds the depth. -/
def compileWith : (fuel : Nat) → Piece → Matcher
  | 0, _ => .nothing
  | fuel + 1, p =>
    match p with
    | .text cs => .text (Text.ofChars cs)
    | .any => .any
    | .super => .super
    | .single => .single
    | .list cs negated => Matcher.simplify (.list cs negated)
    | .range low high negated => .range low high negated
    | .sequence [] => .nothing
    | .sequence ps =>
      let ms := ps.map fun p => Matcher.simplify (compileWith fuel p)
      let glued := Matcher.glueAll ms.length ms
      Matcher.simplify (Matcher.sequenceOf glued.length glued)
    | .oneOf ps =>
      match factor? ps with
      | some q => compileWith fuel q
      | none => .oneOf (ps.map fun p => Matcher.simplify (compileWith fuel p))

/-- The matcher of a pattern. -/
def compile (p : Piece) : Matcher := compileWith (4 * p.weight + 4) p

end Glob

/-! ## Sets of patterns -/

/-- A pattern of paths: one without a slash is also tried on the last name of a path. -/
structure PathPattern where
  matcher : Glob.Matcher
  onName : Bool

/-- Whether the path has the form of the pattern. -/
def PathPattern.covers (p : PathPattern) (path : Text) : Bool :=
  p.matcher.fits path || (p.onName && p.matcher.fits (Path.base path))

/-- Patterns of paths. -/
abbrev PathPatterns := List PathPattern

namespace PathPatterns

/-- Reads one pattern. -/
def readOne (t : Text) : Except Failure PathPattern :=
  let t := Text.trimStartText t "./"
  match Glob.parse t with
  | .ok p => .ok ⟨Glob.compile p, !t.contains '/'⟩
  | .error e => .error (.plain ("invalid glob pattern " ++ Text.quoted t ++ ": " ++ e.message))

/-- Reads patterns; the first one that cannot be read is refused. -/
def read (ts : List Text) : Except Failure PathPatterns := ts.mapM readOne

/-- Whether the path has the form of one of the patterns. -/
def cover (ps : PathPatterns) (path : Text) : Bool := ps.any (·.covers path)

end PathPatterns
end LiquidLint
