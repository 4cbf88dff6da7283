import LiquidLint.Disk.Basic

/-!
# Listings

The files below a directory. Some directories are never entered, and hidden files and directories,
whose names start with a dot, only on request. The directory that is listed may itself be either.
-/

namespace LiquidLint
namespace Disk

/-- Which files a listing leaves out. -/
structure ListOptions where
  /-- The names of directories that are not entered. -/
  skip : List Text := []
  hidden : Bool := false

/-- The directories that never hold sources. -/
def skippedDirectories : List Text := [".git", "node_modules", "tmp", ".log"]

/-- Whether a name is that of a hidden file. -/
def isHidden (name : Text) : Bool := 1 < name.length && Text.startsWith name "."

/-- Whether a listing reaches the file with the given names below the directory. -/
def ListOptions.reaches (o : ListOptions) : List Text → Bool
  | [] => true
  | [name] => o.hidden || !isHidden name
  | name :: rest => !o.skip.contains name && (o.hidden || !isHidden name) && o.reaches rest

/-- The paths of the files below a directory, relative to it, in ascending order. The listing of a
file is the file itself. -/
def list (d : Disk) (cancelled : Bool) (root : Text) (o : ListOptions) :
    Except Failure (List Text) :=
  let context : Text := "list " ++ root
  match d.find root with
  | .error f => .error ((f.failure "lstat" root).within context)
  | .ok (place, item) =>
    if cancelled then .error (Failure.cancelled.within context)
    else if !item.isDirectory then .ok ["."]
    else
      let above : Text := if place = "/" then "/" else place ++ "/"
      .ok ((d.files.filterMap fun (p, _) => Text.dropStart? above p).filter fun p =>
        o.reaches (Text.splitAtByte p '/'))

end Disk
end LiquidLint
