import LiquidLint.Project.Vendor
import LiquidLint.Text.Case
import LiquidLint.Text.Path

/-!
# Classification of project paths

The category of a file decides how it is read and which checks apply to it; the kind follows the
directory layout of an application and, with the logical name, is what references between files
resolve to. Both depend on the path alone.
-/

namespace LiquidLint
namespace Project

/-- How a file is read. -/
inductive Category where
  | liquid
  | html
  | yaml
  | graphql
  | asset
  | other
deriving DecidableEq

namespace Category

/-- Every category. -/
def all : List Category := [.liquid, .html, .yaml, .graphql, .asset, .other]

/-- The word for a category. -/
def label : Category → Text
  | .liquid => "liquid"
  | .html => "html"
  | .yaml => "yaml"
  | .graphql => "graphql"
  | .asset => "asset"
  | .other => "other"

/-- The category with a word. -/
def ofLabel? (t : Text) : Option Category := all.find? fun c => c.label = t

/-- The categories of checks that apply to a file of category `c`. Templates hold HTML, so checks
of HTML apply to them too. -/
def covers (c : Category) : List Category :=
  if c = .liquid then [.liquid, .html] else [c]

/-- Whether files of category `c` are parsed and checked. -/
def isAnalyzable : Category → Bool
  | .liquid | .html | .yaml | .graphql => true
  | .asset | .other => false

end Category

/-- The role of a file in an application. -/
inductive Kind where
  | page
  | partialTemplate
  | layout
  | form
  | email
  | sms
  | apiCall
  | migration
  | translation
  | schema
  | userSchema
  | config
  | graphql
  | authorizationPolicy
  | asset
  | other
deriving DecidableEq

/-- The word for a kind. -/
def Kind.label : Kind → Text
  | .page => "page"
  | .partialTemplate => "partial"
  | .layout => "layout"
  | .form => "form"
  | .email => "email"
  | .sms => "sms"
  | .apiCall => "api_call"
  | .migration => "migration"
  | .translation => "translation"
  | .schema => "schema"
  | .userSchema => "user_schema"
  | .config => "config"
  | .graphql => "graphql"
  | .authorizationPolicy => "authorization_policy"
  | .asset => "asset"
  | .other => "other"

/-- The classification of a path. -/
structure FileInfo where
  category : Category
  kind : Kind
  /-- The name of the module that the file belongs to; empty outside of modules. -/
  module : Text
  /-- The name by which other files refer to the file; empty when none can. -/
  name : Text
deriving DecidableEq

/-- The directories below the root of an application and the kinds of files in them. -/
def layoutDirs : List (Text × Kind) :=
  [("views/pages", .page), ("views/partials", .partialTemplate), ("views/layouts", .layout),
    ("lib", .partialTemplate), ("forms", .form), ("form_configurations", .form),
    ("emails", .email), ("notifications/email_notifications", .email), ("smses", .sms),
    ("notifications/sms_notifications", .sms), ("api_calls", .apiCall),
    ("notifications/api_call_notifications", .apiCall), ("migrations", .migration),
    ("translations", .translation), ("schema", .schema), ("custom_model_types", .schema),
    ("model_schemas", .schema), ("graphql", .graphql), ("graph_queries", .graphql),
    ("authorization_policies", .authorizationPolicy), ("assets", .asset)]

/-! ## Categories -/

/-- The file endings that decide a category. An ending without a category belongs to another
language and hides the shorter ending inside it. -/
def endings : List (Text × Option Category) :=
  [(".liquid", some .liquid), (".hta", some .html), (".htm", some .html), (".html", some .html),
    (".html.hl", some .html), (".inc", some .html), (".xht", some .html), (".xhtml", some .html),
    (".mir", some .yaml), (".reek", some .yaml), (".rviz", some .yaml),
    (".sublime-syntax", some .yaml), (".syntax", some .yaml), (".yaml", some .yaml),
    (".yaml-tmlanguage", some .yaml), (".yaml.sed", some .yaml), (".yml", some .yaml),
    (".yml.mysql", some .yaml), (".gql", some .graphql), (".graphql", some .graphql),
    (".graphqls", some .graphql), (".antlers.html", none), (".html.eex", none)]

/-- The category of the longest known ending of `t`, which is the one at the leftmost dot. -/
def endingCategory? : Text → Option Category
  | [] => none
  | b :: rest =>
    match if b = '.' then endings.lookup (b :: rest) else none with
    | some category => category
    | none => endingCategory? rest

/-- The endings of images. -/
def imageEndings : List Text := [".png", ".jpg", ".jpeg", ".gif"]

/-- Whether the path lies in an assets directory. -/
def inAssets (p : Text) : Bool := Text.hasText p "/assets/" || Text.startsWith p "assets/"

/-- The category of a path. -/
def categoryOf (p : Text) : Category :=
  if inAssets p then .asset
  else match endingCategory? (Text.toLower p) with
    | some c => c
    | none => if isVendored p || imageEndings.contains (Path.extension p) then .asset else .other

/-! ## Kinds and names -/

/-- The module name and the rest of a path below a directory of modules. The rest has no
visibility directory. -/
def splitModule (rest : Text) : Text × Text :=
  match Text.cut? rest ['/'] with
  | none => (rest, [])
  | some (name, tail) =>
    match Text.dropStart? "public/" tail with
    | some after => (name, after)
    | none => (name, (Text.dropStart? "private/" tail).getD tail)

/-- The module of a path and the path below the root of its application or module. -/
def splitAppRoot (p : Text) : Text × Text :=
  match Text.dropStart? "app/" p with
  | some rest =>
    match Text.dropStart? "modules/" rest with
    | some inModules => splitModule inModules
    | none => ([], rest)
  | none =>
    match Text.dropStart? "modules/" p with
    | some inModules => splitModule inModules
    | none => ([], p)

/-- The path without what follows the first dot of its last name, a leading dot apart. -/
def logicalName (rel : Text) : Text :=
  let parts := Path.split rel
  match Text.offsetOf? parts.2 ['.'] with
  | some (i + 1) => parts.1 ++ parts.2.take (i + 1)
  | _ => rel

/-- The kind and logical name of a path below the root of the application or of `module`. -/
def placeOf (module rel : Text) : Kind × Text :=
  match layoutDirs.findSome? fun entry =>
      (Text.dropStart? (entry.1 ++ "/") rel).map fun below => (entry.2, logicalName below) with
  | none => (.other, [])
  | some (kind, name) =>
    (kind, if module ≠ [] && name ≠ [] then "modules/" ++ module ++ "/" ++ name else name)

/-- The classification of a slash-separated project path. -/
def classify (path : Text) : FileInfo :=
  let p := Path.clean (Text.trimStartText path "./")
  let root := splitAppRoot p
  let category := categoryOf p
  if root.2 = "config.yml" then { category, kind := .config, module := root.1, name := [] }
  else if root.2 = "user.yml" then { category, kind := .userSchema, module := root.1, name := [] }
  else
    let place := placeOf root.1 root.2
    { category, kind := if category = .asset then .asset else place.1, module := root.1,
      name := place.2 }

end Project
end LiquidLint
