import Packwright.CommandLine.Number
import Packwright.Text.Quoted

/-! # Commands and options

The commands of the program, the options they know, and the values options take. The last value
given counts, and a value on the command line counts more than one from the environment.
-/

namespace Packwright.CommandLine

open Text (ascii)

/-- What the program can be asked to do with namespaces. -/
inductive Command where
  | build
  | emit
  | init
  deriving DecidableEq, Repr

/-- The command a word names. -/
def Command.named? (word : Text) : Option Command :=
  [(ascii "build", Command.build), (ascii "emit", .emit), (ascii "init", .init)].lookup word

/-- An option of a command. -/
inductive Flag where
  | root
  | pack
  | verbose
  | shareBlocks
  | maxPasses
  | noColor
  | description
  | help
  | version
  deriving DecidableEq, Repr

/-- The long name of an option. -/
def Flag.name : Flag → Text
  | .root => ascii "root"
  | .pack => ascii "datapack"
  | .verbose => ascii "verbose"
  | .shareBlocks => ascii "dedupe-blocks"
  | .maxPasses => ascii "max-passes"
  | .noColor => ascii "no-color"
  | .description => ascii "description"
  | .help => ascii "help"
  | .version => ascii "version"

/-- The one-letter name of an option. -/
def Flag.letter? : Flag → Option Text
  | .root => some (ascii "r")
  | .pack => some (ascii "d")
  | .verbose => some (ascii "v")
  | .noColor => some (ascii "C")
  | .help => some (ascii "h")
  | .version => some (ascii "v")
  | _ => none

/-- All names of an option. -/
def Flag.names (f : Flag) : List Text := f.name :: f.letter?.toList

/-- Whether an option has a value. The others are switches. -/
def Flag.hasValue : Flag → Bool
  | .root | .pack | .maxPasses | .description => true
  | _ => false

/-- The options of a command. -/
def Command.flags : Command → List Flag
  | .build => [.root, .pack, .verbose, .shareBlocks, .maxPasses, .help]
  | .emit => [.root, .pack, .verbose, .shareBlocks, .maxPasses, .noColor, .help]
  | .init => [.root, .pack, .verbose, .description, .help]

/-- Why a command line was refused. -/
inductive Refusal where
  /-- No option has this name. -/
  | undefined (name : Text)
  /-- The argument names an option whose value is missing. -/
  | missingValue (argument : Text)
  /-- The value of an option is no number. -/
  | badNumber (name value : Text) (error : NumberError)
  /-- The value of a switch is neither true nor false. -/
  | badSwitch (name value : Text)
  /-- No pack was named. -/
  | packMissing
  deriving DecidableEq, Repr

/-- The wording of a refusal. -/
def Refusal.message : Refusal → Text
  | .undefined name => ascii "flag provided but not defined: -" ++ name
  | .missingValue argument => ascii "flag needs an argument: " ++ argument
  | .badNumber name value error =>
    ascii "invalid value " ++ Text.quote value ++ ascii " for flag -" ++ name
      ++ ascii ": strconv.ParseInt: parsing " ++ Text.quote value ++ ascii ": " ++ error.message
  | .badSwitch name value =>
    ascii "invalid value " ++ Text.quote value ++ ascii " for flag -" ++ name
      ++ ascii ": parse error"
  | .packMissing => ascii "Required flag \"datapack\" not set"

/-- What the program finds around it. -/
structure Environment where
  /-- The directory packs live in, when no option names it. -/
  root : Option Text := none
  /-- The name of the pack, when no option names it. -/
  pack : Option Text := none
  /-- Whether colour is unwanted everywhere. -/
  noColor : Bool := false
  /-- Whether the output is a terminal. -/
  terminal : Bool := false
  deriving DecidableEq, Repr

/-- The values of the options. -/
structure Options where
  root : Option Text := none
  pack : Option Text := none
  verbose : Bool := false
  shareBlocks : Bool := false
  maxPasses : Int := 1000
  noColor : Bool := false
  description : Text := []
  help : Bool := false
  version : Bool := false
  /-- The options that were given a value. -/
  given : List Flag := []
  deriving DecidableEq, Repr

/-- The options before a command line is read. A variable that is empty is given all the same. -/
def Options.ofEnvironment (env : Environment) : Options :=
  { root := env.root
    pack := env.pack
    given := env.root.toList.map (fun _ => .root) ++ env.pack.toList.map (fun _ => .pack) }

/-- The names of the options that were given a value. -/
def Options.givenNames (o : Options) : List Text := o.given.flatMap Flag.names

/-- Reads the value of a switch. -/
def switchValue? (value : Text) : Option Bool :=
  if [ascii "1", ascii "t", ascii "T", ascii "true", ascii "TRUE", ascii "True"].contains value then
    some true
  else if [ascii "0", ascii "f", ascii "F", ascii "false", ascii "FALSE", ascii "False"].contains
      value then
    some false
  else none

/-- Sets an option, which the command line called `name`. -/
def Options.set (o : Options) (flag : Flag) (name value : Text) : Except Refusal Options :=
  let o := { o with given := o.given ++ [flag] }
  let switch (update : Bool → Options) : Except Refusal Options :=
    match switchValue? value with
    | some b => .ok (update b)
    | none => .error (.badSwitch name value)
  match flag with
  | .root => .ok { o with root := some value }
  | .pack => .ok { o with pack := some value }
  | .description => .ok { o with description := value }
  | .maxPasses =>
    match readNumber value with
    | .ok n => .ok { o with maxPasses := n }
    | .error error => .error (.badNumber name value error)
  | .verbose => switch fun b => { o with verbose := b }
  | .shareBlocks => switch fun b => { o with shareBlocks := b }
  | .noColor => switch fun b => { o with noColor := b }
  | .help => switch fun b => { o with help := b }
  | .version => switch fun b => { o with version := b }

end Packwright.CommandLine
