import LiquidLint.Text.Basic

/-!
# Tables

Values by name. The names of a table stand in ascending order, each once, so that going through a
table never depends on how it was filled.
-/

namespace LiquidLint

/-- Values by name, in ascending order of the names. -/
structure Table (α : Type) where
  entries : List (Text × α) := []

namespace Table

variable {α β : Type}

/-- The entries with the value of `k` set to `v`. -/
def insertEntry (k : Text) (v : α) : List (Text × α) → List (Text × α)
  | [] => [(k, v)]
  | (j, w) :: rest =>
    match Text.order k j with
    | .lt => (k, v) :: (j, w) :: rest
    | .eq => (k, v) :: rest
    | .gt => (j, w) :: insertEntry k v rest

/-- The table with the value of `k` set to `v`. -/
def insert (t : Table α) (k : Text) (v : α) : Table α := ⟨insertEntry k v t.entries⟩

/-- The value of `k`, if it has one. -/
def get? (t : Table α) (k : Text) : Option α := t.entries.lookup k

/-- Whether `k` has a value. -/
def contains (t : Table α) (k : Text) : Bool := (t.get? k).isSome

/-- The table without a value of `k`. -/
def erase (t : Table α) (k : Text) : Table α := ⟨t.entries.filter fun e => e.1 ≠ k⟩

/-- The names in ascending order. -/
def keys (t : Table α) : List Text := t.entries.map (·.1)

/-- The table of a list of entries; of several values of one name the last one counts. -/
def ofList (es : List (Text × α)) : Table α := es.foldl (fun t e => t.insert e.1 e.2) {}

/-- The table with each value replaced. -/
def map (t : Table α) (f : α → β) : Table β := ⟨t.entries.map fun e => (e.1, f e.2)⟩

/-- The entries that `q` accepts. -/
def filter (t : Table α) (q : Text → α → Bool) : Table α :=
  ⟨t.entries.filter fun e => q e.1 e.2⟩

end Table
end LiquidLint
