import LiquidLint.Command.Basic
import LiquidLint.Config.Template
import LiquidLint.Report.Json

/-!
# Commands about the program itself

The list of checks, the version, and a configuration to start from.
-/

namespace LiquidLint
namespace Command

/-- What a command prints as lines of a log. -/
def printed (entries : List Log.Entry) : Text := Log.render .info entries

/-! ## Checks -/

/-- The names of the categories that a check looks at. -/
def categoryNames (info : CheckInfo) : List Text := info.categories.map (·.label)

/-- A check as JSON. -/
def checkJson (info : CheckInfo) : Report.Json :=
  .object
    [("code", .text info.code), ("doc", .text info.doc), ("severity", .text info.severity.name),
      ("categories", .array ((categoryNames info).map .text)),
      ("wholeProject", .bool info.wholeProject), ("correctable", .bool info.correctable)]

/-- A check as a line. -/
def checkEntry (info : CheckInfo) : Log.Entry :=
  ⟨.info, info.code,
    [("severity", info.severity.name), ("categories", Text.joinWith "," (categoryNames info)),
      ("scope", if info.wholeProject then "project" else "file"),
      ("correctable", if info.correctable then "yes" else "-"), ("doc", info.doc)]⟩

/-- Lists the checks. -/
def checks (i : Invocation) (p : Parsed) : Outcome :=
  let infos := i.registry.infos
  { disk := i.disk
    output :=
      if p.values.text "format" "text" = "json" then
        (Report.Json.array (infos.map checkJson)).render false
      else printed (⟨.info, "available checks", []⟩ :: infos.map checkEntry) }

/-! ## Version -/

/-- Tells the version. -/
def version (i : Invocation) : Outcome where
  disk := i.disk
  output := printed [⟨.info, programName,
    [("version", i.build.version), ("commit", i.build.commit), ("built", i.build.date)]⟩]

/-! ## Configuration -/

/-- What the template of a configuration says about a check. -/
def sectionOf (info : CheckInfo) : Template.Section where
  code := info.code
  doc := info.doc
  severity := info.severity.name
  categories := categoryNames info
  wholeProject := info.wholeProject
  correctable := info.correctable

/-- The template that flags ask for. -/
def templateFor (i : Invocation) (vs : Values) : Text :=
  if vs.isOn "full" then
    Template.full (i.registry.infos.map sectionOf) ((vs.texts? "only").getD [])
  else Template.short

/-- Writes a configuration to start from. A file that is there is only replaced on request. -/
def init (i : Invocation) (p : Parsed) : Outcome :=
  let vs := p.values
  let given := vs.text "output" Config.fileName
  let path := i.disk.absolute given
  let existed := match i.disk.stat path with
    | .ok _ => true
    | .error _ => false
  if !vs.isOn "force" && i.disk.isFile path then
    { disk := i.disk
      failure := some ((Failure.plain (path ++ " already exists (use --force to overwrite)")).exiting
        usageStatus) }
  else
    match i.disk.writeFile path (templateFor i vs) with
    | (.error f, disk) => { disk, failure := some ((f.within "write file").exiting usageStatus) }
    | (.ok (), disk) =>
      { disk
        output := printed
          ((if existed then [⟨.warn, "overwrote existing file", [("path", given)]⟩] else []) ++
            [⟨.info, "created configuration file", [("path", given)]⟩,
              ⟨.info, "run 'poscheck checks' to see all available checks", []⟩]) }

end Command
end LiquidLint
