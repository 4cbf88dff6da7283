import LiquidLint.Liquid.Token

/-!
# Masking

Before a template is read as HTML its Liquid regions are blanked out, so that quotes and angle
brackets inside them are not taken for markup. The mask keeps the length of the source and its line
feeds, so every offset in the mask is an offset in the source.
-/

namespace LiquidLint
namespace Markup

open Liquid

/-- The closer of a delimiter. -/
def closer (d : Delimiter) : Text := [d.closeMark, '}']

/-- How many bytes the region takes that opens with `d` before `body`: through the first closer, or
all of it. -/
def regionLength (d : Delimiter) (body : Text) : Nat :=
  match Text.offsetOf? body (closer d) with
  | none => body.length + 2
  | some n => n + 4

/-- The bytes of a region with all but its line feeds replaced by `fill`. -/
def blankOut (fill : UInt8) (region : Text) : Text :=
  region.map fun (b : UInt8) => if b = '\n' then b else fill

/-- The mask of `src`. A region right after an equals sign is filled with a letter, so that an
attribute keeps a value; any other is filled with spaces. -/
def maskFrom (afterEquals : Bool) (src : Text) : Text :=
  match src with
  | [] => []
  | b :: rest =>
    match opener? (b :: rest) with
    | none => b :: maskFrom (b = '=') rest
    | some (d, body) =>
      let n := regionLength d body
      blankOut (if afterEquals then 'x' else ' ') ((b :: rest).take n) ++
        maskFrom false ((b :: rest).drop n)
termination_by src.length
decreasing_by
  · simp
  · simp only [List.length_drop, List.length_cons, regionLength]
    split <;> omega

/-- The source with its Liquid regions blanked out. -/
def mask (src : Text) : Text := maskFrom false src

end Markup
end LiquidLint
