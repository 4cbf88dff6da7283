import LiquidLint.Markup.Token
import LiquidLint.Text.Case

/-!
# Attributes of a start tag

Where the attributes of a tag stand is read off the masked text; their names and values are taken
from the source, so that a Liquid expression inside a value is kept.
-/

namespace LiquidLint
namespace Markup

/-- An attribute with the offsets of its first byte and of the byte after its last one. -/
structure Attribute where
  /-- The name in lower case. -/
  name : Text
  value : Text
  start : Nat
  stop : Nat
deriving DecidableEq

/-- The value at the start of the masked text `m`, by its length, and what follows it. The text
before the value, its opening quote, is counted first. -/
def valueExtent (m : Text) : Nat × Nat × Text :=
  match m with
  | [] => (0, 0, [])
  | q :: rest =>
    if q = '"' || q = '\'' then
      let value := rest.takeWhile (· ≠ q)
      (1, value.length, rest.drop (value.length + 1))
    else
      let value := (q :: rest).takeWhile fun b => !(isTagSpace b || b = '>')
      (0, value.length, (q :: rest).drop value.length)

/-- The attributes in the masked text `m` of a tag that ends at the offset `stop`. A value without a
name is skipped. -/
def attributesFrom (src : Text) (stop : Nat) (m : Text) : List Attribute :=
  match m.dropWhile fun b => isTagSpace b || b = '/' with
  | [] => []
  | b :: rest =>
    if b = '>' then []
    else
      let here (rest : Text) : Nat := stop - rest.length
      let start := here (b :: rest)
      let afterName := (b :: rest).dropWhile fun b => !(endsTagName b || b = '=')
      let name := Text.toLower (Text.slice src start (here afterName))
      match afterName.dropWhile isTagSpace with
      | [] => [⟨name, [], start, here afterName⟩]
      | c :: more =>
        if c = '=' then
          let value := more.dropWhile isTagSpace
          let extent := valueExtent value
          let valueStart := here value + extent.1
          let attr : Attribute :=
            ⟨name, Text.slice src valueStart (valueStart + extent.2.1), start, here extent.2.2⟩
          let others :=
            if extent.2.2.length < m.length then attributesFrom src stop extent.2.2 else []
          if name.isEmpty then others else attr :: others
        else
          ⟨name, [], start, here afterName⟩ ::
            if afterName.length < m.length then attributesFrom src stop afterName else []
termination_by m.length
decreasing_by all_goals assumption

/-- The attributes of the start tag from `start` to `stop`. -/
def attributes (masked src : Text) (start stop : Nat) : List Attribute :=
  attributesFrom src stop
    ((Text.slice masked (start + 1) stop).dropWhile fun b => !endsTagName b)

end Markup
end LiquidLint
