import LiquidLint.Text.Basic

/-!
# Slash-separated paths

Lexical operations on paths: nothing here looks at a disk.
-/

namespace LiquidLint
namespace Path

/-- Whether the path starts at the root. -/
def isAbsolute (p : Text) : Bool := Text.startsWith p ['/']

/-- The names between the slashes of `p`, after `stack` (last name first): empty names and single
dots are dropped, and a double dot takes the name before it away. -/
def resolve (rooted : Bool) (stack : List Text) : List Text → List Text
  | [] => stack.reverse
  | name :: rest =>
    if name = [] || name = "." then resolve rooted stack rest
    else if name = (".." : Text) then
      match stack with
      | [] => resolve rooted (if rooted then [] else [name]) rest
      | last :: below =>
        if last = (".." : Text) then resolve rooted (name :: last :: below) rest
        else resolve rooted below rest
    else resolve rooted (name :: stack) rest

/-- The names of the shortest equivalent path. -/
def names (p : Text) : List Text := resolve (isAbsolute p) [] (Text.splitAtByte p '/')

/-- The shortest equivalent path; a dot stands for the empty one. -/
def clean (p : Text) : Text :=
  let body := Text.joinWith ['/'] (names p)
  if isAbsolute p then '/' :: body else if body.isEmpty then ['.'] else body

/-- The parts joined by slashes and cleaned; empty parts are left out. -/
def join (parts : List Text) : Text :=
  match parts.filter (· ≠ []) with
  | [] => []
  | parts => clean (Text.joinWith ['/'] parts)

/-- What stands through the last slash, and what follows it. -/
def split (p : Text) : Text × Text :=
  match Text.lastOffsetOf? p ['/'] with
  | none => ([], p)
  | some i => (p.take (i + 1), p.drop (i + 1))

/-- The path without its last name. -/
def dir (p : Text) : Text := clean (split p).1

/-- The last name of the path. -/
def base (p : Text) : Text :=
  if p.isEmpty then ['.']
  else
    let trimmed := Text.trimRight (· = '/') p
    if trimmed.isEmpty then ['/'] else (split trimmed).2

/-- What stands from the last dot of the last name on. -/
def extension (p : Text) : Text :=
  let file := (split p).2
  match Text.lastOffsetOf? file ['.'] with
  | none => []
  | some i => file.drop i

/-- What the two lists start with in common is dropped. -/
def dropCommon : List Text → List Text → List Text × List Text
  | a :: as, b :: bs => if a = b then dropCommon as bs else (a :: as, b :: bs)
  | as, bs => (as, bs)

/-- The path that leads from `root` to `target`; `none` when one is absolute and the other is not,
or when `root` climbs above where `target` starts. -/
def relative? (root target : Text) : Option Text :=
  let root := clean root
  let target := clean target
  if root = target then some ['.']
  else if isAbsolute root ≠ isAbsolute target then none
  else
    let rest := dropCommon (names root) (names target)
    if rest.1.head? = some (".." : Text) then none
    else some (Text.joinWith ['/'] (rest.1.map (fun _ => (".." : Text)) ++ rest.2))

end Path
end LiquidLint
