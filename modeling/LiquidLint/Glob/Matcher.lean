import LiquidLint.Text.Utf8

/-!
# Matchers of paths

What patterns are turned into. A matcher says whether a whole text has its form (`fits`), and where
in a text something of its form starts and which lengths it may have there (`find?`).

Lengths count characters while offsets count bytes, and where a matcher takes a text apart by length
it advances as if the last character of each part had one byte. Paths in ASCII are not affected.
-/

namespace LiquidLint
namespace Glob

/-- A compiled pattern. -/
inductive Matcher where
  | nothing
  | text (t : Text)
  /-- No slash. -/
  | any
  | super
  /-- One character, no slash. -/
  | single
  | list (chars : List Char) (negated : Bool)
  | range (low high : Char) (negated : Bool)
  /-- At least so many characters. -/
  | atLeast (n : Nat)
  /-- At most so many characters. -/
  | atMost (n : Nat)
  | holds (t : Text)
  | lacks (t : Text)
  | startsWith (t : Text)
  | endsWith (t : Text)
  /-- The first text at the start and the second at the end; they may overlap. -/
  | startsAndEnds (first last : Text)
  /-- The text at the start, and no slash after it. -/
  | startsName (t : Text)
  /-- The text at the end, and no slash before it. -/
  | endsName (t : Text)
  | oneOf (ms : List Matcher)
  /-- Matchers of known lengths one after the other. -/
  | row (ms : List Matcher)
  /-- All matchers at once. -/
  | every (ms : List Matcher)
  /-- Something of the form `value`, with `left` before and `right` after it; without them, nothing
  may stand there. -/
  | split (value : Matcher) (left right : Option Matcher)

/-! ## Characters of a text -/

/-- The characters of a text with their offsets. -/
def charsAt (offset : Nat) : List Text.CharUnit → List (Nat × Char)
  | [] => []
  | u :: rest =>
    let width := match u with
      | .char c => (Text.ofChar c).length
      | .stray _ => 1
    (offset, u.toChar) :: charsAt (offset + width) rest

/-- The characters of a text with their offsets. -/
def charsOf (t : Text) : List (Nat × Char) := charsAt 0 (Text.units t)

/-- How many bytes a character has. -/
def width (c : Char) : Nat := (Text.ofChar c).length

/-- Whether a text of at most one character has one that `q` accepts; the replacement character
stands for none. -/
def isLone (q : Char → Bool) (t : Text) : Bool :=
  match charsOf t with
  | [] => q Text.replacement
  | [(_, c)] => q c
  | _ => false

/-- The first character that `q` accepts, as a find. -/
def findChar? (q : Char → Bool) (t : Text) : Option (Nat × List Nat) :=
  (charsOf t).findSome? fun (i, c) => if q c then some (i, [width c]) else none

/-- The ends of the characters of a text, after `start` bytes before it. -/
def ends (start : Nat) (t : Text) : List Nat := (charsOf t).map fun (i, c) => start + i + width c

/-- The offsets of the characters of a text and its length, after `start` bytes before it. -/
def cuts (start : Nat) (t : Text) : List Nat :=
  (charsOf t).map (fun (i, _) => start + i) ++ [start + t.length]

/-- The part of a text before its first slash. -/
def firstName (t : Text) : Text := t.takeWhile fun (b : UInt8) => b ≠ '/'

/-- The lengths in either of two ascending lists. -/
def mergeLengths : List Nat → List Nat → List Nat
  | [], ys => ys
  | xs, [] => xs
  | x :: xs, y :: ys =>
    if x = y then x :: mergeLengths xs ys
    else if x < y then x :: mergeLengths xs (y :: ys)
    else y :: mergeLengths (x :: xs) ys
termination_by xs ys => xs.length + ys.length

/-- Every place from the last on where `suffix` ends in `t`, none overlapping the one before. -/
def suffixEnds (suffix : Text) : (fuel : Nat) → Text → List Nat
  | 0, _ => []
  | fuel + 1, t =>
    match Text.lastOffsetOf? t suffix with
    | none => []
    | some i => (i + suffix.length) :: suffixEnds suffix fuel (t.take i)

/-! ## Lengths -/

namespace Matcher

mutual

/-- How many characters the matcher takes, if that is fixed. -/
def size? : Matcher → Option Nat
  | .nothing => some 0
  | .text t => some (charsOf t).length
  | .single | .list _ _ | .range _ _ _ => some 1
  | .oneOf ms => sizeOfAny none ms
  | .row ms => some (sizeOfRow ms)
  | .every ms => if ms.isEmpty then some 0 else none
  | .split v l r =>
    match size? v, sizeOption l, sizeOption r with
    | some a, some b, some c => some (a + b + c)
    | _, _, _ => none
  | _ => none

/-- The common length of alternatives; those before the first of a fixed length do not count. -/
def sizeOfAny (known : Option Nat) : List Matcher → Option Nat
  | [] => known
  | m :: ms =>
    match known, size? m with
    | none, s => sizeOfAny s ms
    | some _, none => none
    | some a, some b => if a = b then sizeOfAny (some a) ms else none

/-- The sum of the lengths. -/
def sizeOfRow : List Matcher → Nat
  | [] => 0
  | m :: ms => (size? m).getD 0 + sizeOfRow ms

/-- The length of what may be missing. -/
def sizeOption : Option Matcher → Option Nat
  | none => some 0
  | some m => size? m

end

/-! ## Matching -/

/-- Whether some find between `offset` and `limit` has a left side and a right side that fit. -/
def search (find : Text → Option (Nat × List Nat)) (left right : Text → Bool) (t : Text)
    (limit : Nat) : (fuel offset : Nat) → Bool
  | 0, _ => false
  | fuel + 1, offset =>
    if limit ≤ offset then false
    else
      match find (Text.slice t offset limit) with
      | none => false
      | some (i, lengths) =>
        let here := offset + i
        if left (t.take here) && lengths.reverse.any fun n => right (t.drop (here + n)) then true
        else
          let step := match Text.nextChar? (t.drop here) with
            | some (c, _) => width c
            | none => 1
          search find left right t limit fuel (here + step)

mutual

/-- Whether the whole text has the form of the matcher. -/
def fits : Matcher → Text → Bool
  | .nothing, t => t.isEmpty
  | .text u, t => u = t
  | .any, t => !t.contains '/'
  | .super, _ => true
  | .single, t => isLone (· ≠ '/') t
  | .list cs negated, t => isLone (fun c => cs.contains c != negated) t
  | .range low high negated, t =>
    isLone (fun c => (decide (low ≤ c) && decide (c ≤ high)) != negated) t
  | .atLeast n, t => 0 < (charsOf t).length && n ≤ (charsOf t).length
  | .atMost n, t => (charsOf t).length ≤ n
  | .holds u, t => Text.hasText t u
  | .lacks u, t => !Text.hasText t u
  | .startsWith u, t => Text.startsWith t u
  | .endsWith u, t => Text.endsWith t u
  | .startsAndEnds u v, t => Text.startsWith t u && Text.endsWith t v
  | .startsName u, t =>
    match Text.dropStart? u t with
    | some rest => !rest.contains '/'
    | none => false
  | .endsName u, t => Text.endsWith t u && !(t.take (t.length - u.length)).contains '/'
  | .oneOf ms, t => fitsAny ms t
  | .row ms, t => (charsOf t).length = sizeOfRow ms && fitsRow ms t
  | .every ms, t => fitsEvery ms t
  | .split v l r, t =>
    let tooShort := match size? (.split v l r) with
      | some n => decide (t.length < n)
      | none => false
    if tooShort then false
    else
      search (fun u => find? v u) (fun u => fitsOption l u) (fun u => fitsOption r u) t
        (t.length - (sizeOption r).getD 0) (t.length + 1) ((sizeOption l).getD 0)

/-- Whether the text has the form of one of the matchers. -/
def fitsAny : List Matcher → Text → Bool
  | [], _ => false
  | m :: ms, t => fits m t || fitsAny ms t

/-- Whether the text has the forms of all matchers. -/
def fitsEvery : List Matcher → Text → Bool
  | [], _ => true
  | m :: ms, t => fits m t && fitsEvery ms t

/-- Whether the text starts with parts that have the forms of the matchers. -/
def fitsRow : List Matcher → Text → Bool
  | [], _ => true
  | m :: ms, t =>
    let cs := charsOf t
    match cs[(size? m).getD 0 - 1]? with
    | none => false
    | some (i, _) => fits m (t.take (i + 1)) && fitsRow ms (t.drop (i + 1))

/-- Whether the text has the form of a matcher, or is empty when there is none. -/
def fitsOption : Option Matcher → Text → Bool
  | none, t => t.isEmpty
  | some m, t => fits m t

/-- Where something of the form of the matcher starts in the text, and which lengths it may have. -/
def find? : Matcher → Text → Option (Nat × List Nat)
  | .nothing, _ => some (0, [0])
  | .text u, t => (Text.offsetOf? t u).map fun i => (i, [u.length])
  | .any, t => if t.head? = some 0x2F then some (0, [0]) else some (0, cuts 0 (firstName t))
  | .super, t => some (0, cuts 0 t)
  | .single, t => findChar? (· ≠ '/') t
  | .list cs negated, t => findChar? (fun c => cs.contains c != negated) t
  | .range low high negated, t =>
    findChar? (fun c => (decide (low ≤ c) && decide (c ≤ high)) != negated) t
  | .atLeast n, t =>
    if t.length < n then none
    else
      match (ends 0 t).drop (n - 1) with
      | [] => none
      | lengths => some (0, lengths)
  | .atMost n, t => some (0, 0 :: (ends 0 t).take n)
  | .holds u, t =>
    (Text.offsetOf? t u).map fun i =>
      let start := i + u.length
      if t.length ≤ start then (0, [start]) else (0, cuts start (t.drop start))
  | .lacks u, t =>
    match Text.offsetOf? t u with
    | some i => some (0, cuts 0 (t.take i))
    | none => some (0, cuts 0 t)
  | .startsWith u, t =>
    (Text.offsetOf? t u).map fun i => (i, u.length :: ends u.length (t.drop (i + u.length)))
  | .endsWith u, t => (Text.offsetOf? t u).map fun i => (0, [i + u.length])
  | .startsAndEnds u v, t =>
    match Text.offsetOf? t u with
    | none => none
    | some i =>
      if v.isEmpty then some (i, [t.length - i])
      else
        match (suffixEnds v (t.length + 1) (t.drop i)).reverse with
        | [] => none
        | lengths => some (i, lengths)
  | .startsName u, t =>
    (Text.offsetOf? t u).map fun i =>
      (i, u.length :: ends u.length (firstName (t.drop (i + u.length))))
  | .endsName u, t =>
    (Text.offsetOf? t u).map fun i =>
      let start := match Text.lastOffsetOf? (t.take i) "/" with
        | some k => k + 1
        | none => 0
      (start, [i + u.length - start])
  | .oneOf ms, t => findAny? none ms t
  | .row ms, t =>
    let n := sizeOfRow ms
    (charsOf t).findSome? fun (i, _) =>
      if n ≤ t.length - i && fitsRow ms (t.drop i) then some (i, [n]) else none
  | .every ms, t => findEvery? none ms t t 0
  | .split _ _ _, _ => none

/-- The first of the finds of several matchers, with all lengths that it may have. -/
def findAny? (best : Option (Nat × List Nat)) : List Matcher → Text → Option (Nat × List Nat)
  | [], _ => best
  | m :: ms, t =>
    let next :=
      match best, find? m t with
      | best, none => best
      | none, some found => some found
      | some (i, lengths), some (j, more) =>
        if j < i then some (j, more)
        else if i < j then some (i, lengths)
        else some (i, mergeLengths lengths more)
    findAny? next ms t

/-- The lengths on which the finds of all matchers agree; `rest` is what the next matcher looks at,
`offset` bytes further on. -/
def findEvery? (best : Option (Nat × List Nat)) :
    List Matcher → (t rest : Text) → (offset : Nat) → Option (Nat × List Nat)
  | [], _, _, _ => some (best.getD (0, []))
  | m :: ms, t, rest, offset =>
    match find? m rest with
    | none => none
    | some (i, lengths) =>
      let here := i + offset
      let agreed :=
        match best with
        | none => lengths
        | some (j, known) =>
          known.flatMap fun k => lengths.filter fun n => k + j = n + here
      if best.isSome && agreed.isEmpty then none
      else findEvery? (some (here, agreed)) ms t (t.drop here) (offset + i)

end

end Matcher
end Glob
end LiquidLint
