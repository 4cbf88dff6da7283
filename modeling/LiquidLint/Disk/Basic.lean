import LiquidLint.Failure
import LiquidLint.Table
import LiquidLint.Text.Path

/-!
# Disks

A disk is a tree of directories and files, held as a table from absolute paths to what stands there.
A path is followed name by name, so that it matters which part of it is missing or is not a
directory. Every file has a time that grows with each writing, which is how a change is noticed.

An operation that fails says what was tried, the path as it was given and the fault. Besides what
stands on it a disk can refuse a call for reasons of its own, such as missing permissions or space;
which calls it refuses is a parameter of the operations by which files are written.
-/

namespace LiquidLint

namespace Disk

/-- Why a disk refuses a call, whatever stands on it. -/
inductive Refusal where
  | denied
  | notPermitted
  | readOnly
  | noSpace
  | overQuota
  | broken
  | other (wording : Text)
deriving DecidableEq

/-- The wording of a refusal. -/
def Refusal.wording : Refusal → Text
  | .denied => "permission denied"
  | .notPermitted => "operation not permitted"
  | .readOnly => "read-only file system"
  | .noSpace => "no space left on device"
  | .overQuota => "disk quota exceeded"
  | .broken => "input/output error"
  | .other wording => wording

/-- Why something on a disk fails. -/
inductive Fault where
  | missing
  | notDirectory
  | isDirectory
  | occupied
  | nameTooLong
  | invalidName
  /-- No name that was drawn is free. -/
  | noneFree
  /-- A name to draw from holds a slash. -/
  | slashInName
  | refused (r : Refusal)
deriving DecidableEq

/-- The wording of a fault. -/
def Fault.wording : Fault → Text
  | .missing => "no such file or directory"
  | .notDirectory => "not a directory"
  | .isDirectory => "is a directory"
  | .occupied => "file exists"
  | .nameTooLong => "file name too long"
  | .invalidName => "invalid argument"
  | .noneFree => "file already exists"
  | .slashInName => "pattern contains path separator"
  | .refused r => r.wording

/-- What a fault is rooted in. -/
def Fault.causes : Fault → List Cause
  | .missing => [.missingFile]
  | .refused .denied => [.permission]
  | .refused .notPermitted => [.permission]
  | _ => []

/-- The failure of trying something at a path. -/
def Fault.failure (tried path : Text) (f : Fault) : Failure where
  causes := f.causes
  message := tried ++ " " ++ path ++ ": " ++ f.wording

/-- The calls by which files are read and written. -/
inductive Call where
  | stat
  | openFile
  | read
  | makeDirectory
  | createFile
  | write
  | sync
  | close
  | setMode
  | rename
  | remove
deriving DecidableEq

/-- The word for a call in failures. -/
def Call.word : Call → Text
  | .stat => "stat"
  | .openFile => "open"
  | .read => "read"
  | .makeDirectory => "mkdir"
  | .createFile => "open"
  | .write => "write"
  | .sync => "sync"
  | .close => "close"
  | .setMode => "chmod"
  | .rename => "rename"
  | .remove => "remove"

/-- What an operation on files meets with, besides what stands on the disk. -/
structure Conditions where
  /-- The numbers that names are made of, by how many tries are left. -/
  drawn : Nat → UInt32 := fun left => 1000000000 + .ofNat left
  /-- The calls that are refused, with the path that they are made for. -/
  refuses : Call → Text → Option Refusal := fun _ _ => none
  /-- How many bytes of a content arrive where writing it is refused. -/
  arriving : Nat := 0

namespace Conditions

/-- The failure of a call that is refused. -/
def failure? (c : Conditions) (call : Call) (path : Text) : Option Failure :=
  (c.refuses call path).map fun r => (Fault.refused r).failure call.word path

/-- What comes of a call that may be refused. -/
def answer {α : Type} (c : Conditions) (call : Call) (path : Text) (result : Except Failure α) :
    Except Failure α :=
  match c.failure? call path with
  | some f => .error f
  | none => result

end Conditions

/-- A file with its permissions and the time of its last writing. -/
structure File where
  content : Text
  mode : Nat := 0o644
  time : Nat := 0

/-- What stands at a place. -/
inductive Item where
  | directory
  | file (f : File)

/-- Whether a directory stands there. -/
def Item.isDirectory : Item → Bool
  | .directory => true
  | .file _ => false

/-- The permissions of what stands there. -/
def Item.mode : Item → Nat
  | .directory => 0o755
  | .file f => f.mode

/-- The permissions as letters: what it is, then reading, writing and running for the owner, the
group and others. -/
def Item.modeText (i : Item) : Text :=
  let letter (bit : Nat) (c : Char) : UInt8 := if i.mode.testBit bit then c else '-'
  (if i.isDirectory then 'd' else '-') ::
    [letter 8 'r', letter 7 'w', letter 6 'x', letter 5 'r', letter 4 'w', letter 3 'x',
      letter 2 'r', letter 1 'w', letter 0 'x']

end Disk

/-- Directories and files by absolute path. -/
structure Disk where
  items : Table Disk.Item := {}
  /-- The directory that relative paths start from. -/
  workDir : Text := "/"
  /-- The time of the next writing. -/
  clock : Nat := 1

namespace Disk

/-- The longest name that a file can have. -/
def nameLimit : Nat := 255

/-- The length that no path reaches. -/
def pathLimit : Nat := 4096

/-! ## Places -/

/-- The absolute path of a place. -/
def absolute (d : Disk) (path : Text) : Text :=
  if Path.isAbsolute path then Path.clean path else Path.join [d.workDir, path]

/-- The absolute path of names, the last one first. -/
def pathOf (names : List Text) : Text := "/" ++ Text.joinWith "/" names.reverse

/-- What stands at the place of some names, the last one first. -/
def itemAt? (d : Disk) : (names : List Text) → Option Item
  | [] => some .directory
  | names => d.items.get? (pathOf names)

/-- Follows names from the place `here`, the last name of which comes first. -/
def follow (d : Disk) (here : List Text) : List Text → Except Fault (List Text)
  | [] => .ok here
  | name :: rest =>
    match d.itemAt? here with
    | none => .error .missing
    | some (.file _) => .error .notDirectory
    | some .directory =>
      if name = [] || name = "." then follow d here rest
      else if name = (".." : Text) then follow d here.tail rest
      else if nameLimit < name.length then .error .nameTooLong
      else if (d.itemAt? (name :: here)).isNone then .error .missing
      else follow d (name :: here) rest

/-- The place of a path and what stands there. -/
def find (d : Disk) (path : Text) : Except Fault (Text × Item) :=
  if path.isEmpty then .error .missing
  else if path.contains 0 then .error .invalidName
  else if pathLimit ≤ path.length then .error .nameTooLong
  else
    let start := if Path.isAbsolute path then [] else (Path.names d.workDir).reverse
    match d.follow start (Text.splitAtByte path '/') with
    | .error f => .error f
    | .ok names =>
      match d.itemAt? names with
      | some item => .ok (pathOf names, item)
      | none => .error .missing

/-- What stands at a path; `tried` names the attempt in a failure. -/
def look (d : Disk) (tried path : Text) : Except Failure Item :=
  match d.find path with
  | .ok (_, item) => .ok item
  | .error f => .error (f.failure tried path)

/-- What stands at a path. -/
def stat (d : Disk) (path : Text) (c : Conditions := {}) : Except Failure Item :=
  c.answer .stat path (d.look "stat" path)

/-- Whether a directory stands at a path. -/
def isDirectory (d : Disk) (path : Text) : Bool :=
  match d.find path with
  | .ok (_, item) => item.isDirectory
  | .error _ => false

/-- Whether a file stands at a path. -/
def isFile (d : Disk) (path : Text) : Bool :=
  match d.find path with
  | .ok (_, item) => !item.isDirectory
  | .error _ => false

/-- The content of the file at a path. -/
def contentOf (d : Disk) (path : Text) (c : Conditions := {}) : Except Failure Text :=
  match c.answer .openFile path (d.look "open" path) with
  | .error f => .error f
  | .ok .directory => .error (Fault.isDirectory.failure "read" path)
  | .ok (.file f) => c.answer .read path (.ok f.content)

/-! ## Changes -/

/-- The disk with an item at a place. -/
def put (d : Disk) (place : Text) (item : Item) : Disk := { d with items := d.items.insert place item }

/-- The disk with a file written at a place now. -/
def putFile (d : Disk) (place content : Text) (mode : Nat) : Disk :=
  { d.put place (.file ⟨content, mode, d.clock⟩) with clock := d.clock + 1 }

/-- A path and the paths of the directories that it leads through, the outermost first. -/
def stages (path : Text) : List Text :=
  let names := Text.splitAtByte path '/'
  ((List.range names.length).map fun i => Text.joinWith "/" (names.take (i + 1))).filter (· ≠ [])

/-- Makes directories one after the other, where there are none. -/
def makeAll (c : Conditions) (d : Disk) : (paths : List Text) → Except Failure Unit × Disk
  | [] => (.ok (), d)
  | path :: rest =>
    match d.find path with
    | .ok (_, .directory) => makeAll c d rest
    | .ok (_, .file _) => (.error (Fault.notDirectory.failure "mkdir" path), d)
    | .error .missing =>
      match c.failure? .makeDirectory path with
      | some f => (.error f, d)
      | none => makeAll c (d.put (d.absolute path) .directory) rest
    | .error f => (.error (f.failure "mkdir" path), d)

/-- Makes a directory and those that it lies in. -/
def makeDirectories (d : Disk) (path : Text) (c : Conditions := {}) : Except Failure Unit × Disk :=
  d.makeAll c (stages path)

/-- Writes a file where it stands. A new file can be read by everyone and written by its owner. -/
def writeFile (d : Disk) (path content : Text) : Except Failure Unit × Disk :=
  match d.find path with
  | .ok (_, .directory) => (.error (Fault.isDirectory.failure "open" path), d)
  | .ok (place, .file f) => (.ok (), d.putFile place content f.mode)
  | .error .missing =>
    match d.find (Path.dir path) with
    | .ok (_, .directory) => (.ok (), d.putFile (d.absolute path) content 0o644)
    | .ok (_, .file _) => (.error (Fault.notDirectory.failure "open" path), d)
    | .error f => (.error (f.failure "open" path), d)
  | .error f => (.error (f.failure "open" path), d)

/-- Takes away what stands at a path and all below it. -/
def remove (d : Disk) (path : Text) : Disk :=
  let place := d.absolute path
  let below := place ++ "/"
  { d with items := d.items.filter fun p _ => p ≠ place && !Text.startsWith p below }

/-- Moves what stands at a path to another one; what stood there is gone. -/
def rename (d : Disk) (source target : Text) : Disk :=
  match d.items.get? (d.absolute source) with
  | some item => (d.remove source).put (d.absolute target) item
  | none => d

/-- Sets the permissions of the file at a path. -/
def setMode (d : Disk) (path : Text) (mode : Nat) : Except Failure Unit × Disk :=
  match d.find path with
  | .error f => (.error (f.failure "chmod" path), d)
  | .ok (_, .directory) => (.ok (), d)
  | .ok (place, .file f) => (.ok (), d.put place (.file { f with mode }))

/-- Every file with its absolute path, in ascending order. -/
def files (d : Disk) : List (Text × File) :=
  d.items.entries.filterMap fun (p, i) =>
    match i with
    | .directory => none
    | .file f => some (p, f)

/-- The files that another disk does not have with the same content. -/
def newFiles (d other : Disk) : List (Text × File) :=
  d.files.filter fun (p, f) =>
    match other.items.get? p with
    | some (.file g) => f.content ≠ g.content
    | _ => true

end Disk
end LiquidLint
