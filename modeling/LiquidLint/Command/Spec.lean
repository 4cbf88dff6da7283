import LiquidLint.Command.Flag

/-!
# The commands

The program is a tree of commands: each has a path of names, a description and flags. Some flags
belong to the program and can be given to every command.
-/

namespace LiquidLint
namespace Command

/-- The name of the program. -/
def programName : Text := "poscheck"

/-- A command. -/
structure Spec where
  /-- The names that lead to the command; the program itself has none. -/
  path : List Text
  /-- What stands after the name on the line that shows the usage. -/
  arguments : Text := []
  short : Text := []
  long : Text := []
  flags : List Flag := []
  /-- Whether the command does anything by itself. -/
  runnable : Bool := true
  /-- Whether the command takes arguments besides its flags. -/
  takesArguments : Bool := true
  /-- Whether the usage line says that there are flags. -/
  showsFlags : Bool := true

namespace Spec

/-- The last name of a command. -/
def name (s : Spec) : Text := s.path.getLast?.getD programName

/-- The names of a command with that of the program in front. -/
def fullName (s : Spec) : Text := Text.joinWith " " (programName :: s.path)

/-- Whether the command is the program itself. -/
def isProgram (s : Spec) : Bool := s.path.isEmpty

/-- Whether the command explains other commands. -/
def isHelp (s : Spec) : Bool := s.path = [("help" : Text)]

/-- Whether a command stands right below another one. -/
def isChildOf (child parent : Spec) : Bool :=
  !child.path.isEmpty && child.path.dropLast = parent.path

end Spec

/-- The flags that every command takes. -/
def globalFlags : List Flag :=
  [{ name := "color", kind := .text, standard := "auto"
     usage := "colorize output: auto, always, never" },
    { name := "config", kind := .text, usage := "path to config file" },
    { name := "debug", usage := "enable debug logging" }]

/-- The flag that asks for the description of a command. -/
def helpFlag (s : Spec) : Flag :=
  { name := "help", letter := some 'h', usage := "help for " ++ s.name }

/-- The flags that choose checks and files. -/
def selectionFlags : List Flag :=
  [{ name := "disable", kind := .texts, usage := "check codes to disable" },
    { name := "enable", kind := .texts, usage := "check codes to enable" },
    { name := "ignore", kind := .texts, usage := "glob patterns to ignore" },
    { name := "jobs", kind := .integer, usage := "number of parallel parsers (0 = auto)" }]

/-- The program. -/
def program : Spec where
  path := []
  runnable := false
  short := "Linter and autocorrector for platformOS Liquid projects"
  flags := globalFlags
  long := Text.joinWith "\n"
    ["poscheck inspects the Liquid, HTML, GraphQL and YAML files of a platformOS",
      "project and reports offenses: syntax errors, deprecated tags, unused",
      "assigns, missing partials and more.", "",
      "Many offenses can be corrected automatically. Corrections are applied in",
      "passes until the files stop changing, conflicting edits are deferred to",
      "the next pass, and dry runs print the diff instead of writing it."]

/-- Checks a project. -/
def checkSpec : Spec where
  path := ["check"]
  arguments := "[paths...]"
  short := "Check a platformOS project"
  long := Text.joinWith "\n"
    ["Check every Liquid, HTML, GraphQL and YAML file of the project, or only",
      "the given files and directories. Whole-project checks such as",
      "MissingTemplate and UnusedPartial run only when the whole project is", "checked.", "",
      "Examples:", "  poscheck check                        # Check the project",
      "  poscheck check app/views/pages        # Check one directory",
      "  poscheck check --fix                  # Correct offenses in place",
      "  poscheck check --fix --dry-run --format diff",
      "                                        # Print corrections as a diff",
      "  poscheck check --format json          # Output as JSON for CI",
      "  poscheck check --fail-level error     # Fail only on errors"]
  flags :=
    [{ name := "fix", usage := "correct offenses where possible" },
      { name := "dry-run", usage := "compute corrections without writing them" },
      { name := "no-backups", usage := "disable backups when writing corrections" },
      { name := "format", kind := .text, usage := "output format: text, json, diff" },
      { name := "fail-level", kind := .text, standard := "style"
        usage := "lowest severity that fails the run: error, suggestion, style" },
      { name := "no-context", usage := "hide source line context in output" },
      { name := "compact", usage := "use compact JSON output" },
      { name := "by-check", usage := "append per-check totals to text output" }] ++ selectionFlags

/-- Lists the checks. -/
def checksSpec : Spec where
  path := ["checks"]
  short := "List available checks"
  long := Text.joinWith "\n"
    ["List all available checks with their default severity, the file",
      "categories they inspect, and whether they can correct offenses."]
  flags := [{ name := "format", kind := .text, standard := "text"
              usage := "output format: text, json" }]

/-- Writes a configuration to start from. -/
def initSpec : Spec where
  path := ["init"]
  short := "Create a .platformos-check.yml configuration file"
  long := Text.joinWith "\n"
    ["Create a .platformos-check.yml file in the current directory. The file",
      "can enable or disable checks, change their severity, and ignore paths.", "",
      "Examples:", "  poscheck init                      Create a minimal configuration",
      "  poscheck init --full               List every check with its defaults",
      "  poscheck init --full --only MissingTemplate,UnusedPartial",
      "  poscheck init --output ci.yml      Write to a custom file path"]
  flags :=
    [{ name := "force", letter := some 'f', usage := "overwrite an existing configuration file" },
      { name := "full", usage := "document every check in the template" },
      { name := "only", kind := .texts, usage := "limit a full template to these check codes" },
      { name := "output", letter := some 'o', kind := .text, standard := Config.fileName
        usage := "output file path" }]

/-- Checks a project again and again. -/
def watchSpec : Spec where
  path := ["watch"]
  short := "Re-check the project as files change"
  takesArguments := false
  long := Text.joinWith "\n"
    ["Watch the project directory and print offense changes as files are",
      "edited. Changed files are checked right away; whole-project checks run",
      "at most once per --project-interval. Stop with Ctrl-C."]
  flags :=
    [{ name := "debounce", kind := .duration, standard := "200ms"
       usage := "quiet period before changed files are checked" },
      { name := "project-interval", kind := .duration, standard := "5s"
        usage := "minimum time between whole-project checks" }] ++ selectionFlags

/-- Tells the version. -/
def versionSpec : Spec where
  path := ["version"]
  short := "Print version information"
  long := "Print the version, commit hash, and build date of poscheck."

/-- Explains a command. -/
def helpSpec : Spec where
  path := ["help"]
  arguments := "[command]"
  short := "Help about any command"
  long := Text.joinWith "\n"
    ["Help provides help for any command in the application.",
      "Simply type poscheck help [path to command] for full details."]

/-! ## Completion -/

/-- The flag that leaves descriptions out of completions. -/
def plainCompletionFlag : Flag :=
  { name := "no-descriptions", usage := "disable completion descriptions" }

/-- The completions of a shell. -/
def completionOf (shell : Text) (showsFlags : Bool) (long : List Text) : Spec where
  path := ["completion", shell]
  short := "Generate the autocompletion script for " ++ shell
  takesArguments := false
  showsFlags := showsFlags
  flags := [plainCompletionFlag]
  long := Text.joinWith "\n" long

/-- The commands for the completion of command lines by shells. -/
def completionSpecs : List Spec :=
  [{ path := ["completion"]
     short := "Generate the autocompletion script for the specified shell"
     long := Text.joinWith "\n"
       ["Generate the autocompletion script for poscheck for the specified shell.",
         "See each sub-command's help for details on how to use the generated script.", ""]
     runnable := false
     takesArguments := false },
    completionOf "bash" false
      ["Generate the autocompletion script for the bash shell.", "",
        "This script depends on the 'bash-completion' package.",
        "If it is not installed already, you can install it via your OS's package manager.", "",
        "To load completions in your current shell session:", "",
        "\tsource <(poscheck completion bash)", "",
        "To load completions for every new session, execute once:", "", "#### Linux:", "",
        "\tposcheck completion bash > /etc/bash_completion.d/poscheck", "", "#### macOS:", "",
        "\tposcheck completion bash > $(brew --prefix)/etc/bash_completion.d/poscheck", "",
        "You will need to start a new shell for this setup to take effect.", ""],
    completionOf "zsh" true
      ["Generate the autocompletion script for the zsh shell.", "",
        "If shell completion is not already enabled in your environment you will need",
        "to enable it.  You can execute the following once:", "",
        "\techo \"autoload -U compinit; compinit\" >> ~/.zshrc", "",
        "To load completions in your current shell session:", "",
        "\tsource <(poscheck completion zsh)", "",
        "To load completions for every new session, execute once:", "", "#### Linux:", "",
        "\tposcheck completion zsh > \"$\x7bfpath[1]\x7d/_poscheck\"", "", "#### macOS:", "",
        "\tposcheck completion zsh > $(brew --prefix)/share/zsh/site-functions/_poscheck", "",
        "You will need to start a new shell for this setup to take effect.", ""],
    completionOf "fish" true
      ["Generate the autocompletion script for the fish shell.", "",
        "To load completions in your current shell session:", "",
        "\tposcheck completion fish | source", "",
        "To load completions for every new session, execute once:", "",
        "\tposcheck completion fish > ~/.config/fish/completions/poscheck.fish", "",
        "You will need to start a new shell for this setup to take effect.", ""],
    completionOf "powershell" true
      ["Generate the autocompletion script for powershell.", "",
        "To load completions in your current shell session:", "",
        "\tposcheck completion powershell | Out-String | Invoke-Expression", "",
        "To load completions for every new session, add the output of the above command",
        "to your powershell profile.", ""]]

/-- The commands that do the work of the program. -/
def ownSpecs : List Spec :=
  [program, checkSpec, checksSpec, initSpec, watchSpec, versionSpec]

/-- Every command. -/
def allSpecs : List Spec := ownSpecs ++ [helpSpec] ++ completionSpecs

/-- The commands right below a command. -/
def childrenOf (specs : List Spec) (parent : Spec) : List Spec :=
  specs.filter (·.isChildOf parent)

/-- Whether a command is offered to users: it can be run, or there are commands below it. The one
that explains commands does not count. -/
def isAvailable (specs : List Spec) (s : Spec) : Bool :=
  !s.isHelp && (s.runnable || !(childrenOf specs s).isEmpty)

end Command
end LiquidLint
