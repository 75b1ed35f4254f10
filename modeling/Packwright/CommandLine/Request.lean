import Packwright.CommandLine.Options
import Packwright.Text.WhiteSpace

/-! # Reading a command line

A command line names a command and gives it options and arguments in any order. An option with a
value takes it after an equals sign or from the next argument; several one-letter options may share
a dash; `--` ends the options. White space around an argument does not count, except in the value of
an option and after the end of the options.

Some arguments end the reading early. Of what stands behind a blank argument or a lone dash nothing
is read; a dash before something that is no letter, and a word that could be a command, leave
everything from there on as it stands.
-/

namespace Packwright.CommandLine

open Text (ascii)

/-- How an argument reads by itself. -/
inductive Argument where
  /-- Nothing but white space. -/
  | blank
  /-- A dash alone. -/
  | dash
  /-- Two dashes alone. -/
  | endOfOptions
  /-- A dash before something that is no letter. -/
  | dashed
  /-- A word. -/
  | plain (word : Text)
  /-- The name of an option after one dash or two, and what follows its equals sign. -/
  | option (short : Bool) (name : Text) (value : Option Text)
  deriving DecidableEq, Repr

/-- Divides the text after the dashes at its first equals sign. -/
def Argument.option? (short : Bool) (t : Text) : Argument :=
  let name := t.takeWhile (· != 61)
  .option short name (if name.length < t.length then some (t.drop (name.length + 1)) else none)

/-- Whether a byte is a letter of the first 256 characters. -/
def isLetter (b : UInt8) : Bool :=
  (97 ≤ b && b ≤ 122) || (65 ≤ b && b ≤ 90) || b == 0xAA || b == 0xB5 || b == 0xBA
    || (0xC0 ≤ b && b != 0xD7 && b != 0xF7)

/-- Reads an argument by itself. -/
def Argument.read (t : Text) : Argument :=
  match Text.trim t with
  | [] => .blank
  | [45] => .dash
  | [45, 45] => .endOfOptions
  | 45 :: 45 :: rest => Argument.option? false rest
  | 45 :: b :: rest => if isLetter b then Argument.option? true (b :: rest) else .dashed
  | word => .plain word

/-- What is known where arguments are read: the options, and the words that could be commands. -/
structure Grammar where
  flags : List Flag
  words : List Text
  deriving DecidableEq, Repr

/-- The words that ask for help. -/
def helpWords : List Text := [ascii "help", ascii "h"]

/-- What is known before the command. -/
def Grammar.top : Grammar :=
  { flags := [.help, .version]
    words := [ascii "build", ascii "emit", ascii "init"] ++ helpWords }

/-- What is known after a command. -/
def Command.grammar (c : Command) : Grammar := { flags := c.flags, words := helpWords }

namespace Grammar

/-- The option with a given name, long or short. -/
def flag? (g : Grammar) (name : Text) : Option Flag := g.flags.find? fun f => f.names.contains name

/-- The value of a switch: what was given, and true if nothing was. -/
def switchText (value : Text) : Text := if value.isEmpty then ascii "true" else value

/-- Sets the one-letter options that share a dash. All switches take the same value. An option with
a value has to come last, where it takes the value or, without one, the next argument; before that
it is passed over. -/
def setCluster (g : Grammar) (name value : Text) (next : Option Text) :
    Options → (letters : Text) → Except Refusal Options
  | o, [] => .ok o
  | o, letter :: more =>
    match g.flag? [letter] with
    | none => .error (.undefined name)
    | some flag =>
      if !flag.hasValue then do
        g.setCluster name value next (← o.set flag name (switchText value)) more
      else if !more.isEmpty then g.setCluster name value next o more
      else if !value.isEmpty then o.set flag name value
      else
        match next with
        | some value => o.set flag name value
        | none => .error (.missingValue [letter])

/-- Reads arguments in order: the options they set, and the plain arguments. An argument that a
shared dash took for its value is read again as an argument. -/
def read (g : Grammar) (o : Options) : List Text → Except Refusal (Options × List Text)
  | [] => .ok (o, [])
  | argument :: rest =>
    match Argument.read argument with
    | .blank => .ok (o, [])
    | .dash => .ok (o, [ascii "-"])
    | .endOfOptions => .ok (o, rest)
    | .dashed => .ok (o, argument :: rest)
    | .plain word =>
      if g.words.contains word then .ok (o, argument :: rest)
      else do
        let (o, plain) ← g.read o rest
        return (o, word :: plain)
    | .option short name value =>
      match g.flag? name with
      | some flag =>
        if !flag.hasValue then do
          g.read (← o.set flag name (switchText (value.getD []))) rest
        else
          match value, rest with
          | some (b :: value), rest => do g.read (← o.set flag name (b :: value)) rest
          | none, value :: rest => do g.read (← o.set flag name value) rest
          | _, _ => .error (.missingValue (Text.trim argument))
      | none =>
        if short then do
          g.read (← g.setCluster name (value.getD []) rest.head? o name) rest
        else .error (.undefined name)

end Grammar

/-- What a command line asks for. -/
inductive Request where
  | version
  | help
  /-- Help on something that is no command. -/
  | unknownTopic (word : Text)
  | run (command : Command) (options : Options) (arguments : List Text)
  deriving DecidableEq, Repr

/-- Help on a word. -/
def Request.helpOn (word : Text) : Request :=
  if (Command.named? word).isSome || helpWords.contains word then .help else .unknownTopic word

/-- The request of a command with its options and plain arguments. A first argument that is also the
name of an option given is not taken for a word of its own: an empty argument comes before it. -/
def Request.ofCommand (c : Command) (o : Options) : List Text → Except Refusal Request
  | [] => .ok (.run c o [])
  | first :: rest =>
    if helpWords.contains first then
      if o.pack.isSome then .ok .help else .error .packMissing
    else if o.givenNames.contains first then .ok (.run c o ([] :: first :: rest))
    else .ok (.run c o (first :: rest))

/-- Reads a command line. Before the command, only the version and help can be asked for. -/
def Request.read (env : Environment) (arguments : List Text) : Except Refusal Request := do
  let (top, plain) ← Grammar.top.read {} arguments
  if top.help then return .help
  if top.version then return .version
  match plain with
  | [] => return .help
  | word :: rest =>
    match Command.named? word with
    | some command =>
      let start := Options.ofEnvironment env
      let start := { start with given := start.given ++ top.given }
      let (options, plain) ← command.grammar.read start rest
      if options.help then return .help
      Request.ofCommand command options plain
    | none =>
      if helpWords.contains word then return (rest.head?.map Request.helpOn).getD .help
      if top.givenNames.contains word then return .help
      return .unknownTopic word

end Packwright.CommandLine
