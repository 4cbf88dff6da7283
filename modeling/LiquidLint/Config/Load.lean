import LiquidLint.Config.Discovery
import LiquidLint.Config.Environment
import LiquidLint.Config.Layer
import LiquidLint.Config.Read
import LiquidLint.Config.Validation

/-!
# Loading configurations

The configuration of a run is built in layers: the standard one, those of the system, the user and
the project or, in place of the last, one that was asked for, then the variables of the environment
and at last the command line. Each file is validated by itself, and the whole once more.
-/

namespace LiquidLint
namespace Config

/-- How a configuration is loaded. -/
structure LoadOptions where
  /-- The directory that the search starts from. -/
  workDir : Text
  /-- A configuration that takes the place of that of the project; empty for none. -/
  explicit : Text := []
  ignoreSystem : Bool := false
  ignoreUser : Bool := false
  ignoreProject : Bool := false
  ignoreEnv : Bool := false
  /-- The layer of the command line. -/
  commandLine : Option Config := none

/-- A loaded configuration and where it came from. -/
structure Loaded where
  config : Config
  paths : Paths
  /-- The directory of the project. -/
  root : Text
  /-- The files that were read, the lowest layer first. -/
  loadedFrom : List Text := []
  warnings : List Text := []

/-- A file that is a layer. -/
structure LayerFile where
  name : Text
  path : Text
  skipped : Bool
  /-- Whether the directory of the file is that of the project. -/
  setsRoot : Bool

/-- The files that are layers, the lowest first. -/
def layerFiles (p : Paths) (o : LoadOptions) : List LayerFile :=
  [⟨"system", p.system, o.ignoreSystem, false⟩, ⟨"user", p.user, o.ignoreUser, false⟩,
    ⟨"project", p.project, o.ignoreProject || o.explicit ≠ [], true⟩,
    ⟨"explicit", p.explicit, false, true⟩]

/-- The configuration that a file holds. -/
def readFile (d : Disk) (registry : Registry) (path : Text) : Except Failure Config :=
  match d.contentOf path with
  | .error f => .error (f.within "read file")
  | .ok content =>
    match ofYaml content with
    | .error f => .error (f.within path)
    | .ok c =>
      match ((c.validate (some registry)).inFile path).failure? with
      | some f => .error f
      | none => .ok c

/-- What was loaded so far, with a layer above it. -/
def addLayer (d : Disk) (registry : Registry) (l : Loaded) (file : LayerFile) :
    Except Failure Loaded :=
  if file.skipped || file.path = [] then .ok l
  else
    match readFile d registry file.path with
    | .error f => .error (f.within ("load " ++ file.name ++ " config"))
    | .ok c =>
      .ok { l with
        config := l.config.overlay c
        loadedFrom := l.loadedFrom ++ [file.path]
        root := if file.setsRoot then Path.dir file.path else l.root }

/-- The configuration with the variables of the environment applied. -/
def addEnvironment (env : Table Text) (ignored : Bool) (c : Config) : Except Failure Config :=
  if ignored then .ok c
  else
    match c.applyEnvironment env with
    | .ok c => .ok c
    | .error f => .error (f.within "load environment")

/-- The validated whole. -/
def finish (registry : Registry) (o : LoadOptions) (l : Loaded) (c : Config) :
    Except Failure Loaded :=
  let c := match o.commandLine with
    | some upper => c.overlay upper
    | none => c
  let validation := c.validate (some registry)
  match validation.failure? with
  | some f => .error f
  | none => .ok { l with config := c, warnings := validation.warnings.map (·.line) }

/-- Loads the configuration of a run. -/
def load (d : Disk) (env : Table Text) (registry : Registry) (cancelled : Bool)
    (o : LoadOptions) : Except Failure Loaded :=
  let workDir := d.absolute o.workDir
  match discover d env cancelled workDir with
  | .error f => .error (f.within "discover paths")
  | .ok found =>
    let paths := { found with explicit := o.explicit }
    let root := if paths.root = [] then workDir else paths.root
    match (layerFiles paths o).foldlM (addLayer d registry) ⟨standard, paths, root, [], []⟩ with
    | .error f => .error f
    | .ok l =>
      match addEnvironment env o.ignoreEnv l.config with
      | .error f => .error f
      | .ok c => finish registry o l c

end Config
end LiquidLint
