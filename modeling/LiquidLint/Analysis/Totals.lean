import LiquidLint.Check.Offense

/-!
# Totals of offenses

Offenses counted per check and per file. The totals depend on which offenses there are and not on
their order.
-/

namespace LiquidLint
namespace Totals

/-- How totals are sorted; names decide between equals. -/
inductive SortField where
  | count
  | alpha
  | severity
deriving DecidableEq

/-- The sort field with a name. -/
def SortField.ofName? (t : Text) : Option SortField :=
  if t = "count" then some .count
  else if t = "alpha" then some .alpha
  else if t = "severity" then some .severity
  else none

/-- How totals are sorted. -/
structure Options where
  sortBy : SortField := .count
  /-- Whether the highest count comes first. -/
  descending : Bool := true

/-- How many offenses of each severity there are, by name. -/
def severityCounts (os : List Offense) : List (Text × Nat) :=
  (Text.sortDedup (os.map (·.severity.name))).map fun name =>
    (name, os.countP fun o => o.severity.name = name)

/-- The rank of the most severe offense. -/
def worstRank (os : List Offense) : Nat := os.foldl (fun r o => min r o.severity.rank) 2

/-- The offenses under one name. -/
structure Group where
  name : Text
  offenses : List Offense

/-- The offenses grouped by a name. -/
def groupBy (name : Offense → Text) (os : List Offense) : List Group :=
  (Text.sortDedup (os.map name)).map fun n => ⟨n, os.filter fun o => name o = n⟩

/-- The order of two groups. -/
def Group.order (opts : Options) (a b : Group) : Ordering :=
  let first :=
    match opts.sortBy with
    | .count =>
      let c := compare a.offenses.length b.offenses.length
      if opts.descending then c.swap else c
    | .severity => compare (worstRank a.offenses) (worstRank b.offenses)
    | .alpha => .eq
  first.then (Text.order a.name b.name)

/-- The groups in order. -/
def sortGroups (opts : Options) (gs : List Group) : List Group :=
  gs.mergeSort fun a b => a.order opts b != .gt

/-- The totals of one check. -/
structure CheckTotals where
  code : Text
  offenses : Nat
  correctable : Nat
  bySeverity : List (Text × Nat)
  files : List Text

/-- The totals of one file. -/
structure FileTotals where
  path : Text
  offenses : Nat
  bySeverity : List (Text × Nat)
  checks : List Text

/-- The totals of each check. -/
def byCheck (opts : Options) (os : List Offense) : List CheckTotals :=
  (sortGroups opts (groupBy (·.code) os)).map fun g =>
    { code := g.name
      offenses := g.offenses.length
      correctable := g.offenses.countP (·.correctable)
      bySeverity := severityCounts g.offenses
      files := Text.sortDedup (g.offenses.map (·.path)) }

/-- The totals of each file. -/
def byFile (opts : Options) (os : List Offense) : List FileTotals :=
  (sortGroups opts (groupBy (·.path) os)).map fun g =>
    { path := g.name
      offenses := g.offenses.length
      bySeverity := severityCounts g.offenses
      checks := Text.sortDedup (g.offenses.map (·.code)) }

end Totals
end LiquidLint
