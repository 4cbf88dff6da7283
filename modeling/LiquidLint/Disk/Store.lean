import LiquidLint.Disk.Listing
import LiquidLint.Disk.Write
import LiquidLint.Store.Snapshot

/-!
# The storage of a project on a disk

The files of a project are those below its directory. Paths within the project are relative to that
directory. Copies that were kept as backups do not belong to the project.
-/

namespace LiquidLint

/-- The files of a project on a disk. -/
structure DiskStore where
  disk : Disk
  /-- The directory of the project. -/
  root : Text
  skip : List Text := Disk.skippedDirectories
  backup : Disk.BackupPolicy := {}

namespace DiskStore

/-- The absolute path of a path within the project. -/
def absolute (s : DiskStore) (path : Text) : Text := Path.join [s.root, path]

/-- The path within the project of an absolute path that lies in it. -/
def relative? (s : DiskStore) (path : Text) : Option Text :=
  match Path.relative? s.root path with
  | none => none
  | some p =>
    if p = (".." : Text) || Text.startsWith p "../" then none else some (Path.clean p)

/-- The content of a path. -/
def read (s : DiskStore) (path : Text) : Except Failure Text :=
  match s.disk.read false (s.absolute path) with
  | .ok (content, _) => .ok (Text.replaceInvalid content)
  | .error f => .error (if f.causes.contains .notFound then .notFound path else f)

/-- Writes a path, after a copy was kept of it where the storage keeps copies. The conditions are
those for making the copy and those for writing the path. -/
def write (s : DiskStore) (path content : Text) (copying writing : Disk.Conditions := {}) :
    Except Failure Unit × DiskStore :=
  let place := s.absolute path
  match s.disk.backUp false place s.backup copying with
  | (.error f, disk) => (.error (f.within ("backup " ++ path)), { s with disk })
  | (.ok _, disk) =>
    match disk.writeIfChanged false place content writing with
    | (.error f, disk) => (.error (f.within ("write " ++ path)), { s with disk })
    | (.ok _, disk) => (.ok (), { s with disk })

/-- Whether a file of the project stands at a path. -/
def has (s : DiskStore) (path : Text) : Bool := s.disk.isFile (s.absolute path)

/-- Every path of the project in ascending order; none when the directory cannot be listed. -/
def paths (s : DiskStore) : List Text :=
  match s.disk.list false s.root { skip := s.skip } with
  | .ok ps => ps.filter fun p => !Disk.isBackup p
  | .error _ => []

/-- To an analysis the disk refuses no calls. -/
instance : Storage DiskStore where
  read s path := (s.read path, s)
  write s path content := s.write path content
  has := has
  paths := paths

end DiskStore
end LiquidLint
