import LiquidLint.Check.Severity
import LiquidLint.Source.Position

/-!
# Offenses

What a check found, and where. Offenses are sorted by path, place and message; the fields that are
left decide between those that agree in these.
-/

namespace LiquidLint

open Source

/-- A finding of a check. -/
structure Offense where
  /-- The code of the check. -/
  code : Text
  severity : Severity
  message : Text
  path : Text
  /-- The version of the file in which it was found. -/
  version : Int := 0
  start : Position := {}
  stop : Position := {}
  /-- Whether a fix goes with it. -/
  correctable : Bool := false
deriving DecidableEq

namespace Offense

/-- The offense on one line: path, place counted from one, message and code. -/
def line (o : Offense) : Text :=
  o.path ++ ":" ++ Text.ofInt (o.start.line + 1) ++ ":" ++ Text.ofInt (o.start.column + 1) ++ ": " ++
    o.message ++ " [" ++ o.code ++ "]"

/-- The order of offenses. -/
def order (a b : Offense) : Ordering :=
  (Text.order a.path b.path).then <|
  (compare a.start.line b.start.line).then <|
  (compare a.start.column b.start.column).then <|
  (Text.order a.message b.message).then <|
  (Text.order a.code b.code).then <|
  (compare a.stop.offset b.stop.offset).then <|
  (compare a.severity.rank b.severity.rank).then <|
  (compare a.version b.version).then <|
  compare a.correctable b.correctable

/-- Whether `a` may stand before `b`. -/
def le (a b : Offense) : Bool := order a b != .gt

/-- The offenses in order. -/
def sort (os : List Offense) : List Offense := os.mergeSort le

end Offense
end LiquidLint
