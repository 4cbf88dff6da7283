import LiquidLint.Command.Spec
import LiquidLint.Report.Style

/-!
# Descriptions of commands

The description of a command, its usage, the commands below it and its flags. Flags stand in
columns, sorted by name.
-/

namespace LiquidLint
namespace Command

open Report

/-- What a description is made for. -/
structure HelpContext where
  specs : List Spec
  colored : Bool := false
  /-- Whether the command has a flag that asks for its description. -/
  helpFlag : Bool := true
  /-- Whether the flags of the program were added to those of the command before. -/
  merged : Bool := true

/-- A flag and its value as they are shown. -/
def Flag.heading (f : Flag) : Text :=
  let spelled : Text := match f.letter with
    | some c => "  -" ++ Text.ofChar c ++ ", --" ++ f.name
    | none => "    --" ++ f.name
  if f.kind.word.isEmpty then spelled else spelled ++ " " ++ f.kind.word

/-- What a flag does, and its value when it is not given. -/
def Flag.explanation (f : Flag) : Text :=
  if f.standard.isEmpty then f.usage
  else f.usage ++ " (default " ++ Text.quoted f.standard ++ ")"

/-- The flags in columns. -/
def flagTable (colored : Bool) (flags : List Flag) : Text :=
  let sorted := flags.mergeSort fun f g => Text.le f.name g.name
  let width := sorted.foldl (fun w f => max w f.heading.length) 0
  Text.joinWith "\n" (sorted.map fun f =>
    paint colored .helpFlag f.heading ++ Text.times (width - f.heading.length + 3) " " ++
      f.explanation)

/-- A heading and what stands below it, after an empty line; nothing if there is nothing below. -/
def block (colored : Bool) (heading : Text) (body : Text) : Text :=
  if body.isEmpty then [] else "\n\n" ++ paint colored .helpHeading heading ++ body

/-- How wide the names of commands are shown. -/
def nameWidth : Nat := 11

/-- The line of a command among those below another one. -/
def commandLine (colored : Bool) (s : Spec) : Text :=
  let padded := s.name ++ Text.times (nameWidth - s.name.length) " "
  "\n  " ++ paint colored .helpName padded ++ " " ++ s.short

/-- The usage of a command on one line. -/
def useLine (x : HelpContext) (s : Spec) : Text :=
  let line := if s.arguments.isEmpty then s.fullName else s.fullName ++ " " ++ s.arguments
  if s.showsFlags && (x.merged || x.helpFlag || !s.flags.isEmpty) then line ++ " [flags]" else line

/-- The usage of a command. -/
def usage (x : HelpContext) (s : Spec) : Text :=
  let children := (childrenOf x.specs s).mergeSort fun a b => Text.le a.name b.name
  let hasChildren := children.any (isAvailable x.specs)
  let shown := if hasChildren then
      children.filter fun c => isAvailable x.specs c || c.isHelp
    else []
  let ownFlags := s.flags ++ if x.helpFlag then [helpFlag s] else []
  let table (flags : List Flag) : Text :=
    if flags.isEmpty then [] else "\n" ++ flagTable x.colored flags
  let runLine : Text :=
    if s.runnable then "\n  " ++ paint x.colored .helpCommand (useLine x s) else []
  let childLine : Text :=
    if hasChildren then "\n  " ++ paint x.colored .helpCommand s.fullName ++ " [command]" else []
  let more : Text :=
    if hasChildren then
      "\n\nUse \"" ++ paint x.colored .helpCommand (s.fullName ++ " [command] --help") ++
        "\" for more information about a command."
    else []
  paint x.colored .helpHeading "Usage:" ++ runLine ++ childLine ++
    block x.colored "Available Commands:" (shown.flatMap (commandLine x.colored)) ++
    block x.colored "Flags:" (table ownFlags) ++
    block x.colored "Global Flags:" (table (if s.isProgram then [] else globalFlags)) ++
    more ++ "\n"

/-- A text without blanks at the ends of its lines. -/
def withoutTrailingBlanks (t : Text) : Text :=
  Text.joinWith "\n" ((Text.splitAtByte t '\n').map
    (Text.trimRight fun (b : UInt8) => b = ' ' || b = '\t'))

/-- The description of a command and its usage. -/
def description (x : HelpContext) (s : Spec) : Text :=
  let about := if s.long.isEmpty then s.short else s.long
  let opening : Text := if about.isEmpty then [] else withoutTrailingBlanks about ++ "\n\n"
  opening ++ usage x s

end Command
end LiquidLint
