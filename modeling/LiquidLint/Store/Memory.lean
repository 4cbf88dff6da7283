import LiquidLint.Store.Snapshot

/-!
# Storages in memory

Three storages that hold their files in memory: a plain one, one that counts the versions of each
file, and one that fails where it is told to.
-/

namespace LiquidLint

open Store

/-! ## Plain -/

/-- Files by path. -/
structure MemoryStore where
  files : Table Text := {}

namespace MemoryStore

/-- The content of a path. -/
def read (s : MemoryStore) (path : Text) : Except Failure Text :=
  match s.files.get? path with
  | some t => .ok (Text.replaceInvalid t)
  | none => .error (.notFound path)

/-- Sets the content of a path. -/
def write (s : MemoryStore) (path content : Text) : MemoryStore := ⟨s.files.insert path content⟩

/-- Takes a path away. -/
def remove (s : MemoryStore) (path : Text) : MemoryStore := ⟨s.files.erase path⟩

/-- The whole state. -/
def snapshot (s : MemoryStore) : Snapshot :=
  ⟨s.files.map fun t => { content := .loaded (Text.replaceInvalid t) }⟩

instance : Storage MemoryStore where
  read s path := (s.read path, s)
  write s path content := (.ok (), s.write path content)
  has s path := s.files.contains path
  paths s := s.files.keys
  snapshot? s := some s.snapshot

end MemoryStore

/-! ## Versioned -/

/-- A content and how often it was written. -/
structure Revision where
  content : Text
  version : Int

/-- Files by path, each with a version that grows by one with every write. -/
structure VersionedStore where
  docs : Table Revision := {}

namespace VersionedStore

/-- The version of a path; zero when it is not there. -/
def version (s : VersionedStore) (path : Text) : Int := ((s.docs.get? path).map (·.version)).getD 0

/-- The content of a path. -/
def read (s : VersionedStore) (path : Text) : Except Failure Text :=
  match s.docs.get? path with
  | some d => .ok (Text.replaceInvalid d.content)
  | none => .error (.notFound path)

/-- Sets the content and version of a path. -/
def writeVersion (s : VersionedStore) (path content : Text) (version : Int) : VersionedStore :=
  ⟨s.docs.insert path ⟨content, version⟩⟩

/-- Sets the content of a path under the next version. -/
def write (s : VersionedStore) (path content : Text) : VersionedStore :=
  s.writeVersion path content (s.version path + 1)

/-- Takes a path away, and its version with it. -/
def remove (s : VersionedStore) (path : Text) : VersionedStore := ⟨s.docs.erase path⟩

/-- The whole state. -/
def snapshot (s : VersionedStore) : Snapshot :=
  ⟨s.docs.map fun d =>
    { content := .loaded (Text.replaceInvalid d.content), version := d.version }⟩

instance : Storage VersionedStore where
  read s path := (s.read path, s)
  write s path content := (.ok (), s.write path content)
  has s path := s.docs.contains path
  paths s := s.docs.keys
  snapshot? s := some s.snapshot

end VersionedStore

/-! ## Faulty -/

/-- A storage in memory that cannot tell its state at once and fails on chosen paths. -/
structure FaultyStore where
  store : MemoryStore := {}
  brokenReads : List Text := []
  brokenWrites : List Text := []
  /-- The paths whose content differs from the second read on. -/
  changing : List Text := []
  /-- How often each path was read. -/
  reads : Table Nat := {}

namespace FaultyStore

/-- The content of a path, and the storage with the read counted. -/
def read (s : FaultyStore) (path : Text) : Except Failure Text × FaultyStore :=
  if s.brokenReads.contains path then (.error (.plain "disk on fire"), s)
  else
    let count := (s.reads.get? path).getD 0
    let result :=
      match s.store.read path with
      | .ok t => .ok (if s.changing.contains path && 0 < count then t ++ "!" else t)
      | .error f => .error f
    (result, { s with reads := s.reads.insert path (count + 1) })

/-- Sets the content of a path, unless that fails. -/
def write (s : FaultyStore) (path content : Text) : Except Failure Unit × FaultyStore :=
  if s.brokenWrites.contains path then (.error (.plain "read-only storage"), s)
  else (.ok (), { s with store := s.store.write path content })

instance : Storage FaultyStore where
  read := read
  write := write
  has s path := s.store.files.contains path
  paths s := s.store.files.keys

end FaultyStore

/-- One of the storages in memory. -/
inductive AnyStore where
  | memory (s : MemoryStore)
  | versioned (s : VersionedStore)
  | faulty (s : FaultyStore)

namespace AnyStore

/-- Takes a path away. -/
def remove : AnyStore → (path : Text) → AnyStore
  | .memory s, path => .memory (s.remove path)
  | .versioned s, path => .versioned (s.remove path)
  | .faulty s, path => .faulty { s with store := s.store.remove path }

instance : Storage AnyStore where
  read s path :=
    match s with
    | .memory m => (m.read path, .memory m)
    | .versioned v => (v.read path, .versioned v)
    | .faulty f => let (r, f) := f.read path; (r, .faulty f)
  write s path content :=
    match s with
    | .memory m => (.ok (), .memory (m.write path content))
    | .versioned v => (.ok (), .versioned (v.write path content))
    | .faulty f => let (r, f) := f.write path content; (r, .faulty f)
  has s path :=
    match s with
    | .memory m => m.files.contains path
    | .versioned v => v.docs.contains path
    | .faulty f => f.store.files.contains path
  paths s :=
    match s with
    | .memory m => m.files.keys
    | .versioned v => v.docs.keys
    | .faulty f => f.store.files.keys
  snapshot? s :=
    match s with
    | .memory m => some m.snapshot
    | .versioned v => some v.snapshot
    | .faulty _ => none

end AnyStore
end LiquidLint
