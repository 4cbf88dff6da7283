import LiquidLint.Text.Basic

/-!
# Digests

The SHA-256 digest of a text: thirty-two bytes that, for all one can tell in practice, differ when
the texts do. The text is padded to blocks of sixty-four bytes, each block is spread over sixty-four
words, and the words are mixed into a state of eight.
-/

namespace LiquidLint
namespace Digest

/-- The constants that are mixed in with the words of a block, one for each round. -/
def constants : List UInt32 :=
  [0x428a2f98, 0x71374491, 0xb5c0fbcf, 0xe9b5dba5, 0x3956c25b, 0x59f111f1, 0x923f82a4, 0xab1c5ed5,
    0xd807aa98, 0x12835b01, 0x243185be, 0x550c7dc3, 0x72be5d74, 0x80deb1fe, 0x9bdc06a7, 0xc19bf174,
    0xe49b69c1, 0xefbe4786, 0x0fc19dc6, 0x240ca1cc, 0x2de92c6f, 0x4a7484aa, 0x5cb0a9dc, 0x76f988da,
    0x983e5152, 0xa831c66d, 0xb00327c8, 0xbf597fc7, 0xc6e00bf3, 0xd5a79147, 0x06ca6351, 0x14292967,
    0x27b70a85, 0x2e1b2138, 0x4d2c6dfc, 0x53380d13, 0x650a7354, 0x766a0abb, 0x81c2c92e, 0x92722c85,
    0xa2bfe8a1, 0xa81a664b, 0xc24b8b70, 0xc76c51a3, 0xd192e819, 0xd6990624, 0xf40e3585, 0x106aa070,
    0x19a4c116, 0x1e376c08, 0x2748774c, 0x34b0bcb5, 0x391c0cb3, 0x4ed8aa4a, 0x5b9cca4f, 0x682e6ff3,
    0x748f82ee, 0x78a5636f, 0x84c87814, 0x8cc70208, 0x90befffa, 0xa4506ceb, 0xbef9a3f7, 0xc67178f2]

/-- The eight words that blocks are mixed into. -/
structure State where
  a : UInt32
  b : UInt32
  c : UInt32
  d : UInt32
  e : UInt32
  f : UInt32
  g : UInt32
  h : UInt32

/-- The state before the first block. -/
def State.start : State :=
  ⟨0x6a09e667, 0xbb67ae85, 0x3c6ef372, 0xa54ff53a, 0x510e527f, 0x9b05688c, 0x1f83d9ab, 0x5be0cd19⟩

/-- The eight words in order. -/
def State.words (s : State) : List UInt32 := [s.a, s.b, s.c, s.d, s.e, s.f, s.g, s.h]

/-- A word turned right. -/
def turn (n : UInt32) (w : UInt32) : UInt32 := (w >>> n) ||| (w <<< (32 - n))

/-- A word as four bytes, the highest first. -/
def bytesOf (w : UInt32) : Text :=
  [(w >>> 24).toUInt8, (w >>> 16).toUInt8, (w >>> 8).toUInt8, w.toUInt8]

/-- Words of four bytes each; bytes left over do not count. -/
def wordsOf : Text → List UInt32
  | a :: b :: c :: d :: rest =>
    ((a.toUInt32 <<< 24) ||| (b.toUInt32 <<< 16) ||| (c.toUInt32 <<< 8) ||| d.toUInt32) ::
      wordsOf rest
  | _ => []

/-- The next word of a block, from the words before it, the last one first. -/
def nextWord (before : List UInt32) : UInt32 :=
  let w (i : Nat) : UInt32 := before.getD (i - 1) 0
  let low := turn 7 (w 15) ^^^ turn 18 (w 15) ^^^ (w 15 >>> 3)
  let high := turn 17 (w 2) ^^^ turn 19 (w 2) ^^^ (w 2 >>> 10)
  w 16 + low + w 7 + high

/-- `n` more words after those before, the last one first. -/
def extend : (n : Nat) → (before : List UInt32) → List UInt32
  | 0, before => before
  | n + 1, before => extend n (nextWord before :: before)

/-- One round: a word and its constant are mixed into the state. -/
def round (s : State) (word : UInt32 × UInt32) : State :=
  let high := turn 6 s.e ^^^ turn 11 s.e ^^^ turn 25 s.e
  let choice := (s.e &&& s.f) ^^^ ((~~~s.e) &&& s.g)
  let first := s.h + high + choice + word.1 + word.2
  let low := turn 2 s.a ^^^ turn 13 s.a ^^^ turn 22 s.a
  let majority := (s.a &&& s.b) ^^^ (s.a &&& s.c) ^^^ (s.b &&& s.c)
  ⟨first + (low + majority), s.a, s.b, s.c, s.d + first, s.e, s.f, s.g⟩

/-- The state after a block. -/
def absorb (s : State) (block : Text) : State :=
  let words := (extend 48 (wordsOf block).reverse).reverse
  let t := (words.zip constants).foldl round s
  ⟨s.a + t.a, s.b + t.b, s.c + t.c, s.d + t.d, s.e + t.e, s.f + t.f, s.g + t.g, s.h + t.h⟩

/-- The text with a mark, zeros and its length in bits after it, so that whole blocks result. -/
def pad (t : Text) : Text :=
  let zeros := (119 - t.length % 64) % 64
  let bits := 8 * t.length
  t ++ 0x80 :: List.replicate zeros 0 ++
    bytesOf (UInt32.ofNat (bits / Nat.pow 2 32)) ++ bytesOf (UInt32.ofNat bits)

/-- Pieces of sixty-four bytes, `n` at most. -/
def blocks : (n : Nat) → Text → List Text
  | 0, _ => []
  | n + 1, t => t.take 64 :: blocks n (t.drop 64)

/-- The digest of a text. -/
def ofText (t : Text) : Text :=
  let padded := pad t
  ((blocks (padded.length / 64) padded).foldl absorb .start).words.flatMap bytesOf

end Digest
end LiquidLint
