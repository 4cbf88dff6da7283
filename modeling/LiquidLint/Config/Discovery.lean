import LiquidLint.Config.Basic
import LiquidLint.Disk.Basic

/-!
# Where configurations lie

There may be a configuration for the system, one for the user and one for the project. That of the
project is looked for upwards from a directory. The search ends at the root of an application, at
the root of a version control system, at the home of the user and at the root of the disk.
-/

namespace LiquidLint
namespace Config

/-- The configurations that were found; an empty path stands for none. -/
structure Paths where
  system : Text := []
  user : Text := []
  project : Text := []
  explicit : Text := []
  /-- The directory that the search settled on for the project. -/
  root : Text := []

/-- The names of the configuration of a project, the preferred one first. -/
def projectFiles : List Text := [fileName, ".platformos-check.yaml"]

/-- The directories that mark the root of an application. -/
def layoutDirectories : List Text := ["app", "modules", "marketplace_builder"]

/-- The files that mark the root of an application. -/
def layoutFiles : List Text := [".pos"]

/-- The directories that mark the root of a version control system. -/
def versionControlDirectories : List Text := [".git", ".hg", ".svn"]

/-- Whether a directory is the root of an application. -/
def isLayoutRoot (d : Disk) (directory : Text) : Bool :=
  (layoutDirectories.any fun n => d.isDirectory (Path.join [directory, n])) ||
    layoutFiles.any fun n => d.isFile (Path.join [directory, n])

/-- Whether a directory is the root of a version control system. -/
def isVersionControlRoot (d : Disk) (directory : Text) : Bool :=
  versionControlDirectories.any fun n => d.isDirectory (Path.join [directory, n])

/-- The first of some files that a directory has. -/
def firstFile (d : Disk) (directory : Text) (names : List Text) : Text :=
  ((names.map fun n => Path.join [directory, n]).find? d.isFile).getD []

/-- The names of a configuration that is not bound to a project, the preferred one first. -/
def sharedFiles : List Text := ["config.yml", "config.yaml"]

/-- The directory of the configuration for the system. -/
def systemDirectory : Text := "/etc/poscheck"

/-- The value of a variable; empty when it is not set. -/
def valueOf (env : Table Text) (name : Text) : Text := (env.get? name).getD []

/-- The directory of the configuration of the user; empty when the user has no home. -/
def userDirectory (env : Table Text) : Text :=
  let chosen := valueOf env "XDG_CONFIG_HOME"
  let home := valueOf env "HOME"
  if chosen ≠ [] then Path.join [chosen, "poscheck"]
  else if home = [] then []
  else Path.join [home, ".config", "poscheck"]

/-- The configuration of the user. -/
def userFile (d : Disk) (env : Table Text) : Text :=
  if userDirectory env = [] then [] else firstFile d (userDirectory env) sharedFiles

/-- An absolute directory and those above it, the innermost first. -/
def upward (directory : Text) : List Text :=
  let names := Path.names directory
  (List.range (names.length + 1)).reverse.map fun i => "/" ++ Text.joinWith "/" (names.take i)

/-- The first of some directories that ends the search: the configuration of the project, if it
lies there, and the root of the project, if that is one. -/
def search (d : Disk) (home : Text) : (directories : List Text) → Text × Text
  | [] => ([], [])
  | directory :: above =>
    let file := firstFile d directory projectFiles
    if file ≠ [] then (file, directory)
    else if isLayoutRoot d directory then ([], directory)
    else if isVersionControlRoot d directory || directory = home then ([], [])
    else search d home above

/-- The configuration and the root of the project that a directory lies in. -/
def searchFrom (d : Disk) (env : Table Text) (cancelled : Bool) (directory : Text) :
    Except Failure (Text × Text) :=
  if cancelled then .error (Failure.cancelled.within "context cancelled")
  else .ok (search d (valueOf env "HOME") (upward (d.absolute directory)))

/-- Every configuration that counts for a directory. -/
def discover (d : Disk) (env : Table Text) (cancelled : Bool) (directory : Text) :
    Except Failure Paths :=
  match searchFrom d env cancelled directory with
  | .error f => .error f
  | .ok (project, root) =>
    .ok { system := firstFile d systemDirectory sharedFiles, user := userFile d env, project, root }

end Config
end LiquidLint
