import LiquidLint.Command.Spec
import LiquidLint.Text.Case

/-!
# Arguments

The first arguments that are not flags name the command; the rest are its flags and arguments. A
name that no command has is an error at the top only, where similar names are suggested.
-/

namespace LiquidLint
namespace Command

/-! ## Finding the command -/

/-- The flag with a name. -/
def flagNamed? (flags : List Flag) (name : Text) : Option Flag :=
  flags.find? fun f => f.name = name

/-- The flag with a letter, given as a byte. -/
def flagLettered? (flags : List Flag) (b : UInt8) : Option Flag :=
  flags.find? fun f => f.letter.any fun c => c.toNat = b.toNat

/-- Whether a flag can stand without a value. -/
def isSwitch (f : Option Flag) : Bool := f.any fun f => f.kind = .switch

/-- Whether an argument is a flag whose value is the next argument. Flags that are not known are
taken to be of this kind. -/
def takesNext (flags : List Flag) (arg : Text) : Bool :=
  !arg.contains '=' &&
    match arg with
    | 0x2D :: 0x2D :: name => !isSwitch (flagNamed? flags name)
    | [0x2D, b] => !isSwitch (flagLettered? flags b)
    | _ => false

/-- The arguments that are neither flags nor values of flags. -/
def plainArguments (flags : List Flag) : List Text → List Text
  | [] => []
  | arg :: rest =>
    if arg = "--" then []
    else if takesNext flags arg then
      match rest with
      | [] | [_] => []
      | _ :: more => plainArguments flags more
    else if arg ≠ [] && !Text.startsWith arg "-" then arg :: plainArguments flags rest
    else plainArguments flags rest

/-- The arguments without the first plain one that is `name`. -/
def withoutName (flags : List Flag) (name : Text) : List Text → List Text
  | [] => []
  | arg :: rest =>
    if arg = "--" then arg :: rest
    else if takesNext flags arg then
      match rest with
      | [] => [arg]
      | value :: more => arg :: value :: withoutName flags name more
    else if !Text.startsWith arg "-" && arg = name then rest
    else arg :: withoutName flags name rest

/-- The flags of a command that are known before its help flag. -/
def flagsOf (s : Spec) : List Flag := if s.isProgram then s.flags else s.flags ++ globalFlags

/-- The command that arguments lead to from a command, and the arguments left for it. Every step
uses an argument up, so `fuel` need not exceed their number. -/
def descend (specs : List Spec) : (fuel : Nat) → Spec → List Text → Spec × List Text
  | 0, s, args => (s, args)
  | fuel + 1, s, args =>
    match plainArguments (flagsOf s) args with
    | [] => (s, args)
    | name :: _ =>
      match (childrenOf specs s).find? fun c => c.name = name with
      | none => (s, args)
      | some child => descend specs fuel child (withoutName (flagsOf s) name args)

/-! ## Suggestions -/

/-- The next row of the table of distances, for a byte `b` of the first text: `left` is the last
distance of the row, and the list has the bytes of the second text with the distances above. -/
def nextRow (b : UInt8) (diagonal left : Nat) : List (UInt8 × Nat) → List Nat
  | [] => []
  | (c, above) :: rest =>
    let here := if b = c then diagonal else min (min above left) diagonal + 1
    here :: nextRow b above here rest

/-- The rows of the table of distances one after the other, for the bytes of a text. -/
def lastRow (t : Text) : (i : Nat) → (row : List Nat) → Text → List Nat
  | _, row, [] => row
  | i, row, b :: rest => lastRow t (i + 1) (nextRow b i (i + 1) (t.zip row)) rest

/-- How many bytes have to be inserted, taken away or replaced to turn one text into the other. -/
def distance (s t : Text) : Nat :=
  ((lastRow t 0 ((List.range t.length).map (· + 1)) s).getLast?).getD s.length

/-- How far a name may be from the one that was meant. -/
def suggestionDistance : Nat := 2

/-- The names of commands that are similar to a name. -/
def suggestions (specs : List Spec) (parent : Spec) (name : Text) : List Text :=
  (((childrenOf specs parent).filter (isAvailable specs)).map (·.name)).filter fun n =>
    distance (Text.toLower name) (Text.toLower n) ≤ suggestionDistance ||
      Text.startsWith (Text.toLower n) (Text.toLower name)

/-- The failure of a name that no command has. -/
def unknownCommand (specs : List Spec) (s : Spec) (name : Text) : Failure :=
  let similar := suggestions specs s name
  let hint : Text :=
    if similar.isEmpty then []
    else "\n\nDid you mean this?\n" ++ similar.flatMap fun n => ("\t" ++ n ++ "\n" : Text)
  .plain ("unknown command " ++ Text.quoted name ++ " for " ++ Text.quoted s.fullName ++ hint)

/-- The command that arguments name, and the arguments left for it. -/
def find (specs : List Spec) (args : List Text) : Except Failure (Spec × List Text) :=
  let (s, rest) := descend specs args.length program args
  match s.isProgram, plainArguments (flagsOf s) rest with
  | true, name :: _ => .error (unknownCommand specs s name)
  | _, _ => .ok (s, rest)

/-! ## Reading flags -/

/-- The flags and other arguments that were read. -/
structure Parsed where
  values : Values := {}
  arguments : List Text := []

/-- The failure of a flag that is not known by its name. -/
def unknownFlag (name : Text) : Failure := .plain ("unknown flag: --" ++ name)

/-- The character that stands for a byte in messages about letters. -/
def letterShown (b : UInt8) : Char :=
  match String.utf8EncodeChar (Char.ofNat b.toNat) with
  | first :: _ => Char.ofNat first.toNat
  | [] => Char.ofNat b.toNat

/-- Reads a flag given by its name. What stands after the dashes is `body`; the arguments after it
are `rest`, and those that are left come back. -/
def readLong (flags : List Flag) (body : Text) (rest : List Text) (vs : Values) :
    Except Failure (Values × List Text) :=
  match body with
  | [] | 0x2D :: _ | 0x3D :: _ => .error (.plain ("bad flag syntax: --" ++ body))
  | _ =>
    let (name, given) := match Text.cut? body "=" with
      | some (name, value) => (name, some value)
      | none => (body, none)
    match flagNamed? flags name with
    | none => .error (unknownFlag name)
    | some f =>
      match given, f.kind, rest with
      | some value, _, _ => (f.set value vs).map (·, rest)
      | none, .switch, _ => (f.set "true" vs).map (·, rest)
      | none, _, value :: more => (f.set value vs).map (·, more)
      | none, _, [] => .error (.plain ("flag needs an argument: --" ++ name))

/-- Reads flags given by their letters, which stand together. -/
def readLetters (flags : List Flag) (rest : List Text) (vs : Values) :
    Text → Except Failure (Values × List Text)
  | [] => .ok (vs, rest)
  | b :: more =>
    match flagLettered? flags b with
    | none =>
      .error (.plain ("unknown shorthand flag: " ++ Text.quotedChar (letterShown b) ++ " in -" ++
        (b :: more)))
    | some f =>
      match more, f.kind, rest with
      | 0x3D :: c :: value, _, _ => (f.set (c :: value) vs).map (·, rest)
      | _, .switch, _ =>
        match f.set "true" vs with
        | .error e => .error e
        | .ok vs => readLetters flags rest vs more
      | c :: value, _, _ => (f.set (c :: value) vs).map (·, rest)
      | [], _, value :: others => (f.set value vs).map (·, others)
      | [], _, [] =>
        .error (.plain ("flag needs an argument: " ++ Text.quotedChar (letterShown b) ++ " in -" ++
          [b]))

/-- Reads flags and other arguments; after two dashes there are no more flags. Every step uses an
argument up, so `fuel` need not exceed their number. -/
def readAll (flags : List Flag) (p : Parsed) : (fuel : Nat) → List Text → Except Failure Parsed
  | _, [] => .ok p
  | 0, _ => .ok p
  | fuel + 1, arg :: rest =>
    match arg with
    | [0x2D, 0x2D] => .ok { p with arguments := p.arguments ++ rest }
    | 0x2D :: 0x2D :: body =>
      match readLong flags body rest p.values with
      | .error f => .error f
      | .ok (values, rest) => readAll flags { p with values } fuel rest
    | 0x2D :: b :: letters =>
      match readLetters flags rest p.values (b :: letters) with
      | .error f => .error f
      | .ok (values, rest) => readAll flags { p with values } fuel rest
    | _ => readAll flags { p with arguments := p.arguments ++ [arg] } fuel rest

/-- Reads the flags and arguments of a command. -/
def parse (s : Spec) (args : List Text) : Except Failure Parsed :=
  readAll (flagsOf s ++ [helpFlag s]) {} args.length args

end Command
end LiquidLint
