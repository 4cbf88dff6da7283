import LiquidLint.Command.Check
import LiquidLint.Command.Help
import LiquidLint.Command.Info
import LiquidLint.Command.Watch

/-!
# Running the program

The arguments choose a command. A command that was asked for its description shows it, and so does
one that does nothing by itself.
-/

namespace LiquidLint
namespace Command

/-- Shows the description of a command. -/
def describe (i : Invocation) (s : Spec) : Outcome where
  disk := i.disk
  output := description { specs := allSpecs, colored := i.coloredHelp } s

/-- Explains the command that arguments name; other names are told apart with the usage of the
program. -/
def help (i : Invocation) (topic : List Text) : Outcome :=
  match find allSpecs topic with
  | .ok (s, _) => describe i s
  | .error _ =>
    { disk := i.disk
      notices := "Unknown help topic [" ++ Text.joinWith " " (topic.map Text.quotedRaw) ++ "]\n" ++
        usage { specs := allSpecs, colored := i.coloredHelp, helpFlag := false } program }

/-- Carries out a command. -/
def perform (i : Invocation) (s : Spec) (p : Parsed) : Outcome :=
  if s.path = checkSpec.path then check i p
  else if s.path = checksSpec.path then checks i p
  else if s.path = initSpec.path then init i p
  else if s.path = watchSpec.path then watch i p
  else if s.path = versionSpec.path then version i
  else if s.isHelp then help i p.arguments
  else { disk := i.disk }

/-- Runs the program. -/
def run (i : Invocation) : Outcome :=
  match find allSpecs i.args with
  | .error f => { disk := i.disk, failure := some f }
  | .ok (s, args) =>
    match parse s args with
    | .error f => { disk := i.disk, failure := some f }
    | .ok p =>
      if p.values.isOn "help" || !s.runnable then describe i s
      else
        match s.takesArguments, p.arguments with
        | false, name :: _ =>
          { disk := i.disk
            failure := some (.plain ("unknown command " ++ Text.quoted name ++ " for " ++
              Text.quoted s.fullName)) }
        | _, _ => { perform i s p with debug := p.values.isOn "debug" }

/-- Shows the usage of the command that arguments name, before the commands that every program has
are there. -/
def showUsage (i : Invocation) : Outcome :=
  match find ownSpecs i.args with
  | .error f => { disk := i.disk, failure := some f }
  | .ok (s, args) =>
    { disk := i.disk
      output := usage
        { specs := ownSpecs
          colored := i.coloredHelp
          helpFlag := false
          merged := s.isProgram || !args.isEmpty } s }

/-- The directory of the project that a command is about, if it is about one. -/
def projectRoot? (i : Invocation) : Option Text :=
  match find allSpecs i.args with
  | .error _ => none
  | .ok (s, args) =>
    if s.path ≠ checkSpec.path && s.path ≠ watchSpec.path then none
    else
      match parse s args with
      | .error _ => none
      | .ok p =>
        match loadConfig i p.values (layerOf p.values) with
        | .error _ => none
        | .ok l => some (i.disk.absolute l.root)

end Command
end LiquidLint
