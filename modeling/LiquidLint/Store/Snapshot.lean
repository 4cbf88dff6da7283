import LiquidLint.Failure
import LiquidLint.Table
import LiquidLint.Text.Utf8

/-!
# Storages and snapshots

A storage holds the files of a project and may refuse to read or write. An analysis never reads a
storage while it runs; it works on a snapshot that is taken before. Every content that is read is
well-formed UTF-8.
-/

namespace LiquidLint

/-- The failure of looking for a path that is not there. -/
def Failure.notFound (path : Text) : Failure :=
  { causes := [.notFound], message := "not found: " ++ path }

namespace Store

/-- What a snapshot knows of a content. -/
inductive Content where
  | loaded (text : Text)
  /-- The content was not asked for. -/
  | unread
  | failed (failure : Failure)

/-- The state of a path in a snapshot. -/
structure Entry where
  content : Content
  version : Int := 0

end Store

open Store

/-- The state of a storage at one time. -/
structure Snapshot where
  entries : Table Entry := {}

namespace Snapshot

/-- Every path in ascending order. -/
def paths (s : Snapshot) : List Text := s.entries.keys

/-- The state of a path. -/
def state? (s : Snapshot) (path : Text) : Option Entry := s.entries.get? path

/-- The content and version of a path; what was not asked for reads as empty. -/
def read (s : Snapshot) (path : Text) : Except Failure Text × Int :=
  match s.state? path with
  | none => (.error (.notFound path), 0)
  | some e =>
    (match e.content with
      | .loaded t => .ok t
      | .unread => .ok []
      | .failed f => .error f, e.version)

/-- Whether the path belongs to the snapshot. -/
def has (s : Snapshot) (path : Text) : Bool := (s.state? path).isSome

/-- The snapshot of given contents, all of version one. -/
def ofContents (files : List (Text × Text)) : Snapshot :=
  ⟨(Table.ofList files).map fun t => { content := .loaded (Text.replaceInvalid t), version := 1 }⟩

end Snapshot

/-- A place that holds the files of a project. Reading may change its state, as where it counts. -/
class Storage (σ : Type) where
  read : σ → (path : Text) → Except Failure Text × σ
  write : σ → (path content : Text) → Except Failure Unit × σ
  has : σ → (path : Text) → Bool
  /-- Every path in ascending order. -/
  paths : σ → List Text
  /-- The whole state at once, where the storage can tell it. -/
  snapshot? : σ → Option Snapshot := fun _ => none

namespace Storage

variable {σ : Type} [Storage σ]

/-- Reads paths one after the other, those that `load` accepts. -/
def readAll (load : Text → Bool) (s : σ) (taken : Table Entry) : List Text → Table Entry × σ
  | [] => (taken, s)
  | p :: rest =>
    if load p then
      let (result, s) := read s p
      let content := match result with
        | .ok t => .loaded t
        | .error f => .failed f
      readAll load s (taken.insert p { content }) rest
    else readAll load s (taken.insert p { content := .unread }) rest

/-- Takes a snapshot. A storage that cannot tell its state at once is read path by path, where `load`
asks for it. -/
def take (s : σ) (load : Text → Bool) : Snapshot × σ :=
  match snapshot? s with
  | some snap => (snap, s)
  | none =>
    let (entries, s) := readAll load s {} (paths s)
    (⟨entries⟩, s)

end Storage
end LiquidLint
