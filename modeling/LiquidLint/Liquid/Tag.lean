import LiquidLint.Text.Basic

/-!
# Tag names

What the name of a Liquid tag says about its place in a template: block tags take a body and an end
tag, branch tags divide the body of some blocks, inline tags stand alone. `TagRole` is the reading
of a name that the tree builder works with.
-/

namespace LiquidLint
namespace Liquid

/-- The tags that take a body and a matching end tag. -/
def blockTags : List Text :=
  ["if", "unless", "case", "for", "tablerow", "capture", "comment", "raw", "form", "cache",
    "background", "parse_json", "try", "transaction", "content_for"]

/-- The tags that stand alone. -/
def inlineTags : List Text :=
  ["#", "assign", "break", "continue", "cycle", "decrement", "echo", "export", "function",
    "graphql", "hash_assign", "include", "include_form", "increment", "liquid", "log", "print",
    "redirect_to", "render", "response_headers", "response_status", "return", "rollback",
    "session", "sign_in", "spam_protection", "theme_render", "yield"]

/-- For each block with branches, the tags that open one. -/
def branchTable : List (Text × List Text) :=
  [("if", ["elsif", "else"]), ("unless", ["elsif", "else"]), ("case", ["when", "else"]),
    ("for", ["else"]), ("try", ["catch"])]

/-- Whether `name` takes a body and an end tag. -/
def isBlockTag (name : Text) : Bool := blockTags.contains name

/-- Whether `name` is a tag of the language that is neither an end tag nor a branch. -/
def isKnownTag (name : Text) : Bool := blockTags.contains name || inlineTags.contains name

/-- Whether the tag `name` opens a branch of the block `block`. -/
def isBranchOf (block name : Text) : Bool :=
  branchTable.any fun entry => entry.1 == block && entry.2.contains name

/-- Whether the tag `name` opens a branch of some block. -/
def isBranch (name : Text) : Bool := branchTable.any fun entry => entry.2.contains name

/-- The name of the block that the end tag `name` closes. -/
def closedBlock? (name : Text) : Option Text :=
  (Text.dropStart? "end" name).filter isBlockTag

/-- What a tag does, as far as its name tells. -/
inductive TagRole where
  /-- The tag has no name. -/
  | nameless
  /-- An end tag of the block `block`. -/
  | closes (block : Text)
  /-- A tag that opens a branch where the innermost open block has such a branch. -/
  | branch
  /-- The opening tag of a block. -/
  | opens
  /-- The tag whose lines are tags themselves. -/
  | lines
  /-- Any other tag of the language. -/
  | inline
  /-- A name that the language does not have. -/
  | unknown
deriving DecidableEq

/-- The role of a tag name. End tags come before branches and those before blocks. -/
def tagRole (name : Text) : TagRole :=
  if name.isEmpty then .nameless
  else match closedBlock? name with
    | some block => .closes block
    | none =>
      if isBranch name then .branch
      else if isBlockTag name then .opens
      else if name = "liquid" then .lines
      else if isKnownTag name then .inline
      else .unknown

end Liquid
end LiquidLint
