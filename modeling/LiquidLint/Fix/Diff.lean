import LiquidLint.Text.Basic

/-!
# Diffs

The difference between two texts as hunks of lines. Lines that the texts share are found from the
longest common subsequence; a hunk has at most three shared lines before and after its changes, and
changes that few shared lines keep apart go into one hunk.
-/

namespace LiquidLint
namespace Diff

/-- What happens to a line. -/
inductive LineKind where
  | kept
  | added
  | removed
deriving DecidableEq

/-- The mark before a line. -/
def LineKind.mark : LineKind → UInt8
  | .kept => ' '
  | .added => '+'
  | .removed => '-'

/-- A line of a diff, without its mark. -/
structure Line where
  kind : LineKind
  text : Text
deriving DecidableEq

/-- The lines of a text, without their line breaks. -/
def linesOf (t : Text) : List Text :=
  if t.isEmpty then []
  else
    let pieces := Text.splitAtByte t '\n'
    let lines := if pieces.getLast? = some [] then pieces.dropLast else pieces
    lines.map (Text.trimEndText · "\r")

/-! ## Common subsequences -/

/-- The lengths of the longest common subsequences of `a :: as` and each rest of the second list,
given those of `as`. -/
def nextRow (a : Text) : List Text → (below : List Nat) → List Nat
  | [], _ => [0]
  | b :: bs, below =>
    let right := nextRow a bs below.tail
    let here := if a = b then below.tail.headD 0 + 1 else max (below.headD 0) (right.headD 0)
    here :: right

/-- A row of lengths for each rest of the first list, the empty rest last. -/
def table : List Text → List Text → List (List Nat)
  | [], bs => [List.replicate (bs.length + 1) 0]
  | a :: as, bs =>
    let below := table as bs
    nextRow a bs (below.headD []) :: below

/-- The edit script between two lists of lines, whose table of lengths is `t`. Of two ways of the
same length, the one that removes first is taken. -/
def scriptWith (as bs : List Text) (t : List (List Nat)) : List Line :=
  match as, bs with
  | [], bs => bs.map (⟨.added, ·⟩)
  | as, [] => as.map (⟨.removed, ·⟩)
  | a :: as, b :: bs =>
    if a = b then ⟨.kept, a⟩ :: scriptWith as bs (t.tail.map List.tail)
    else if (t.headD []).tail.headD 0 ≤ (t.tail.headD []).headD 0 then
      ⟨.removed, a⟩ :: scriptWith as (b :: bs) t.tail
    else ⟨.added, b⟩ :: scriptWith (a :: as) bs (t.map List.tail)
termination_by as.length + bs.length

/-- The edit script between two lists of lines. -/
def script (as bs : List Text) : List Line := scriptWith as bs (table as bs)

/-! ## Hunks -/

/-- How many shared lines surround the changes of a hunk. -/
def contextSize : Nat := 3

/-- A run of changes with the lines around it. The starts count lines from one. -/
structure Hunk where
  oldStart : Nat
  newStart : Nat
  lines : List Line

/-- How many lines of the old text the lines stand for. -/
def oldCount (ls : List Line) : Nat := ls.countP fun l => l.kind ≠ .added

/-- How many lines of the new text the lines stand for. -/
def newCount (ls : List Line) : Nat := ls.countP fun l => l.kind ≠ .removed

/-- Whether a line is shared. -/
def isKept (l : Line) : Bool := l.kind = .kept

/-- Whether no further change belongs to a hunk that has come to `ls`. -/
def endsHunk (ls : List Line) : Bool :=
  let run := (ls.takeWhile isKept).length
  2 * contextSize < run || run = ls.length

/-- The changes at the start of `ls` with the shared lines between them, and what follows. -/
def hunkBody : List Line → List Line × List Line
  | [] => ([], [])
  | l :: rest =>
    if isKept l && endsHunk (l :: rest) then ([], l :: rest)
    else
      let r := hunkBody rest
      (l :: r.1, r.2)

theorem length_hunkBody_le (ls : List Line) : (hunkBody ls).2.length ≤ ls.length := by
  induction ls with
  | nil => simp [hunkBody]
  | cons l rest ih =>
    unfold hunkBody
    split
    · simp
    · simp only [List.length_cons]
      omega

theorem length_hunkBody_lt {l : Line} (rest : List Line) (h : isKept l = false) :
    (hunkBody (l :: rest)).2.length < (l :: rest).length := by
  have := length_hunkBody_le rest
  simp only [hunkBody, h, Bool.false_and, List.length_cons]
  simp
  omega

theorem isKept_head_dropWhile {ls : List Line} {l : Line} {rest : List Line}
    (h : ls.dropWhile isKept = l :: rest) : isKept l = false := by
  have := List.head?_dropWhile_not isKept ls
  rw [h] at this
  simpa using this

/-- The hunks of the script `ls`, whose first line has the numbers `old` and `new`. -/
def hunksFrom (old new : Nat) (ls : List Line) : List Hunk :=
  match _h : ls.dropWhile isKept with
  | [] => []
  | l :: rest =>
    let before := ls.takeWhile isKept
    let passed := before.length - contextSize
    let body := hunkBody (l :: rest)
    let lines := before.drop passed ++ body.1 ++ body.2.take contextSize
    ⟨old + passed, new + passed, lines⟩ ::
      hunksFrom (old + passed + oldCount lines) (new + passed + newCount lines)
        (body.2.drop contextSize)
termination_by ls.length
decreasing_by
  have h₁ := length_hunkBody_lt rest (isKept_head_dropWhile _h)
  have h₂ : (l :: rest).length ≤ ls.length := by
    rw [← _h]
    exact (List.dropWhile_sublist _).length_le
  simp only [List.length_drop]
  omega

end Diff

/-- The difference between two versions of a file. -/
structure Diff where
  path : Text
  hunks : List Diff.Hunk
  additions : Nat
  deletions : Nat

namespace Diff

/-- The difference between two texts, where there is one that lines can show. -/
def of? (path old new : Text) : Option Diff :=
  if old = new then none
  else
    let ls := script (linesOf old) (linesOf new)
    match hunksFrom 1 1 ls with
    | [] => none
    | hunks =>
      some
        { path := path
          hunks := hunks
          additions := ls.countP fun l => l.kind = .added
          deletions := ls.countP fun l => l.kind = .removed }

/-- A line with its mark. -/
def Line.render (l : Line) : Text := l.kind.mark :: (l.text ++ "\n")

/-- The line that starts a hunk. -/
def Hunk.header (h : Hunk) : Text :=
  "@@ -" ++ Text.ofNat h.oldStart ++ "," ++ Text.ofNat (oldCount h.lines) ++ " +" ++
    Text.ofNat h.newStart ++ "," ++ Text.ofNat (newCount h.lines) ++ " @@"

/-- A hunk with its header. -/
def Hunk.render (h : Hunk) : Text := h.header ++ "\n" ++ h.lines.flatMap Line.render

/-- The diff in unified form. -/
def render (d : Diff) : Text :=
  "--- a/" ++ d.path ++ "\n+++ b/" ++ d.path ++ "\n" ++ d.hunks.flatMap Hunk.render

end Diff
end LiquidLint
