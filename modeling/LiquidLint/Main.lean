import LiquidLint.Command.Run

/-!
# The program

The outer layer. It copies from the real disk what a command may look at, runs the command, writes
back the files that the command changed, and prints. While a project is watched it looks for changes
again and again.
-/

namespace LiquidLint
namespace Program

/-- A text as a string, for names and paths. -/
def stringOf (t : Text) : String := (String.fromUTF8? ⟨t.toArray⟩).getD ""

/-! ## Copying from the disk -/

/-- The disk with what really stands at an absolute path, if anything does. -/
def copyItem (d : Disk) (path : Text) : IO Disk := do
  let place := (← IO.currentDir) / stringOf path
  try
    match (← place.metadata).type with
    | .dir => return (d.makeDirectories path).2
    | .file =>
      let content ← IO.FS.readBinFile place
      return ((d.makeDirectories (Path.dir path)).2.writeFile path content.toList).2
    | _ => return d
  catch _ => return d

/-- The disk with what stands at each of some paths. -/
def copyItems (d : Disk) (paths : List Text) : IO Disk := paths.foldlM copyItem d

/-- The paths of what lies in a directory. -/
def entriesOf (directory : Text) : IO (List Text) := do
  try
    let entries ← ((← IO.currentDir) / stringOf directory).readDir
    return entries.toList.map fun e => Path.join [directory, Text.ofString e.fileName]
  catch _ => return []

/-- The disk with all below a directory, except for what never holds sources. -/
def copyBelow (d : Disk) (directory : Text) : IO Disk := do
  let mut disk ← copyItem d directory
  let mut todo := [directory]
  repeat
    match todo with
    | [] => break
    | next :: rest =>
      let entries ← entriesOf next
      disk ← copyItems disk entries
      let inner := entries.filter fun p =>
        disk.isDirectory p && !Disk.skippedDirectories.contains (Path.base p)
      todo := inner ++ rest
  return disk

/-- The variables that the program reads. -/
def environment : IO (Table Text) := do
  let own : List Text := ["HOME", "XDG_CONFIG_HOME", Command.levelVariable]
  let names := own ++ Config.variables.map (·.name)
  let mut env : Table Text := {}
  for name in names do
    if let some value ← IO.getEnv (stringOf name) then
      env := env.insert name (Text.ofString value)
  return env

/-- The names that the search for a project asks for in a directory. -/
def markers : List Text :=
  Config.projectFiles ++ Config.layoutDirectories ++ Config.layoutFiles ++
    Config.versionControlDirectories

/-- The paths that an argument may stand for. -/
def pathsOfArgument (d : Disk) (arg : Text) : List Text :=
  let value := ((Text.cut? arg "=").map (·.2)).getD arg
  [d.absolute value, Path.dir (d.absolute value)]

/-- The disk as far as it matters before the project is known. -/
def surroundings (env : Table Text) (args : List Text) : IO Disk := do
  let workDir := Text.ofString (← IO.currentDir).toString
  let d : Disk := { (({} : Disk).makeDirectories workDir).2 with workDir }
  let shared := [Config.systemDirectory, Config.userDirectory env].filter (· ≠ [])
  copyItems d
    (((Config.upward workDir).flatMap fun above => markers.map fun n => Path.join [above, n]) ++
      (shared.flatMap fun place => Config.sharedFiles.map fun n => Path.join [place, n]) ++
      args.flatMap (pathsOfArgument d))

/-! ## Writing -/

/-- Writes the files that a command changed. -/
def writeBack (before after : Disk) : IO Unit := do
  for (path, file) in after.newFiles before do
    IO.FS.createDirAll (stringOf (Path.dir path))
    IO.FS.writeBinFile (stringOf path) ⟨file.content.toArray⟩

/-- Prints a text and, aside of it, another one. -/
def print (output errors : Text) : IO Unit := do
  let out ← IO.getStdout
  out.write ⟨output.toArray⟩
  out.flush
  (← IO.getStderr).write ⟨errors.toArray⟩

/-! ## Running -/

/-- A random name for a run, in the usual form of five groups of digits. -/
def newRunId : IO Text := do
  let bytes := (← IO.getRandomBytes 16).toList
  let digits := bytes.zipIdx.flatMap fun (b, i) =>
    Text.hex 2 (if i = 6 then 0x40 + b.toNat % 0x10 else if i = 8 then 0x80 + b.toNat % 0x40
      else b.toNat)
  return Text.joinWith "-" [Text.slice digits 0 8, Text.slice digits 8 12, Text.slice digits 12 16,
    Text.slice digits 16 20, digits.drop 20]

/-- Follows the changes of a project. -/
def follow (level : Log.Level) (f : Command.Following) (disk : Disk) : IO Unit := do
  let mut watcher := f.watcher
  let mut seen := disk
  let mut last ← IO.monoNanosNow
  repeat
    IO.sleep (f.debounce.toNat / 1000000).toUInt32
    let current ← copyBelow { workDir := seen.workDir } watcher.root
    let changed := (current.newFiles seen ++ seen.newFiles current).filterMap fun (p, _) =>
      (watcher.project current).relative? p
    let time ← IO.monoNanosNow
    let whole := f.interval.toNat ≤ time - last
    if whole then last := time
    let step := watcher.react current {} whole changed
    print step.printed
      (Log.render level (step.around.log.map (·.within [("root", watcher.root)])))
    watcher := step.watcher
    seen := current

/-- Runs a command, and goes on with what it leaves to be followed. -/
def run (args : List Text) : IO Nat := do
  let env ← environment
  let known ← surroundings env args
  let request : Command.Invocation := { args, env, disk := known, runId := ← newRunId }
  let disk ← match Command.projectRoot? request with
    | some root => copyBelow known root
    | none => pure known
  let outcome := Command.run { request with disk }
  writeBack disk outcome.disk
  print outcome.output (outcome.errorOutput env)
  if let some f := outcome.following then follow (outcome.level env) f outcome.disk
  return outcome.status

end Program
end LiquidLint

/-- Runs the program with the arguments of the command line. -/
def main (args : List String) : IO UInt32 := do
  return (← LiquidLint.Program.run (args.map LiquidLint.Text.ofString)).toUInt32
