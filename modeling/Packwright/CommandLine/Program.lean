import Packwright.Build
import Packwright.CommandLine.Request

/-! # The program

Runs a command line on a file tree. A run answers with the tree it leaves behind, what it printed,
its diagnostics and how it ended.
-/

namespace Packwright.CommandLine

open Text (ascii)

/-- How a run ended. -/
inductive Ending where
  | version
  | help
  | unknownTopic (word : Text)
  | refused (refusal : Refusal)
  | ran (fault : Option Fault)
  deriving DecidableEq, Repr

/-- The result of a run. -/
structure Report where
  files : FileTree
  output : Text := []
  log : List Note := []
  ending : Ending

/-- What the program answers when asked for its version. -/
def versionLine : Text := ascii "mcfc version v0.1.0\n"

/-- A command with what it needs. -/
def Command.usage : Command → Text
  | .build => ascii "mcfc build -d <datapack> <namespace>..."
  | .emit => ascii "mcfc emit -d <datapack> <namespace>"
  | .init => ascii "mcfc init -d <datapack> <namespace>..."

/-- What the program answers when asked for help. -/
def helpText : Text :=
  ascii "usage:\n"
    ++ [Command.build, .emit, .init].flatMap fun c => ascii "  " ++ c.usage ++ [Text.newline]

/-- Whether a command can work on this many namespaces. -/
def Command.takes : Command → Nat → Bool
  | .emit, n => n == 1
  | _, n => 0 < n

/-- The namespaces a command works on. All names are checked before any work starts. -/
def namespaces (root pack : Text) (names : List Text) : Except NameError (List Namespace) := do
  let p ← Pack.named root pack
  names.mapM p.namespaceNamed

/-- The compiler settings among the options. -/
def Options.settings (o : Options) : Settings :=
  { shareBlocks := o.shareBlocks, maxPasses := o.maxPasses }

/-- A tree after some work, the notes taken, and the fault that ended it. -/
structure Work where
  files : FileTree
  log : List Note := []
  fault : Option Fault := none

/-- Works on namespaces one after the other, up to the first fault. -/
def forEach (work : Namespace → FileTree → Work) (files : FileTree) : List Namespace → Work
  | [] => { files }
  | ns :: rest =>
    match work ns files with
    | ⟨files, log, none⟩ =>
      let w := forEach work files rest
      { w with log := log ++ w.log }
    | halted => halted

/-- Compiles a namespace into the pack. -/
def buildOne (settings : Settings) (ns : Namespace) (files : FileTree) : Work :=
  match Compiler.build settings ns files with
  | (w, fault) => { files := w.files, log := w.log, fault }

/-- Makes the functions directory of a namespace. -/
def initOne (ns : Namespace) (files : FileTree) : Work :=
  match files.makeDirectories ns.functionsDir with
  | (files, .error error) => { files, fault := some (.namespaceDirectory ns.functionsDir error) }
  | (files, .ok ()) => { files, log := [.namespaceInitialized ns.name ns.functionsDir] }

/-- Describes a pack and makes the functions directories of its namespaces. -/
def initAll (description : Text) (spaces : List Namespace) (files : FileTree) : Work :=
  match spaces with
  | [] => { files }
  | ns :: _ =>
    match { ns.pack with description }.writeMeta files with
    | (files, .error fault) => { files, fault := some fault }
    | (files, .ok ()) => forEach initOne files spaces

/-- Runs a command on namespaces. -/
def Command.perform (c : Command) (o : Options) (color : Bool) (spaces : List Namespace)
    (files : FileTree) : Report :=
  match c, spaces with
  | .emit, ns :: _ =>
    match Compiler.emit o.settings ns files color with
    | (p, fault) => { files, output := p.text, log := p.log, ending := .ran fault }
  | .emit, [] => { files, ending := .ran none }
  | .build, spaces =>
    let w := forEach (buildOne o.settings) files spaces
    { files := w.files, log := w.log, ending := .ran w.fault }
  | .init, spaces =>
    let w := initAll o.description spaces files
    { files := w.files, log := w.log, ending := .ran w.fault }

/-- The notes that show among the diagnostics: warnings, and with `verbose` all of them. -/
def shownNotes (verbose : Bool) (log : List Note) : List Note :=
  log.filter fun n => verbose || n.level == .warn

/-- Runs a command line. The pack has to be named, then the number of namespaces has to be right,
then all names have to be valid. -/
def run (arguments : List Text) (env : Environment) (files : FileTree) : Report :=
  match Request.read env arguments with
  | .error refusal => { files, ending := .refused refusal }
  | .ok .version => { files, output := versionLine, ending := .version }
  | .ok .help => { files, output := helpText, ending := .help }
  | .ok (.unknownTopic word) => { files, ending := .unknownTopic word }
  | .ok (.run c o names) =>
    match o.pack with
    | none => { files, ending := .refused .packMissing }
    | some pack =>
      if !c.takes names.length then { files, ending := .ran (some (.usage c.usage)) }
      else
        match namespaces (o.root.getD Path.here) pack names with
        | .error error => { files, ending := .ran (some (.name error)) }
        | .ok spaces =>
          let color := env.terminal && !o.noColor && !env.noColor
          let report := c.perform o color spaces files
          { report with log := shownNotes o.verbose report.log }

/-- What a run writes to the log, each line after a stamp. -/
def Report.logText (r : Report) (stamp : Text) : Text :=
  r.log.flatMap fun n => stamp ++ n.logLine

/-- The message of a run that did not succeed. -/
def Report.failure? (r : Report) : Option Text :=
  match r.ending with
  | .refused refusal => some (ascii "error: " ++ refusal.message)
  | .ran (some fault) => some (ascii "error: " ++ fault.message)
  | .unknownTopic word => some (ascii "No help topic for '" ++ word ++ ascii "'")
  | _ => none

/-- All diagnostics of a run: the log and, on failure, a line that says why. -/
def Report.diagnostics (r : Report) (stamp : Text) : Text :=
  r.logText stamp ++ match r.failure? with
    | some message => message ++ [Text.newline]
    | none => []

/-- The directories a command line is about: that of the pack and those of the functions. -/
def workDirs (arguments : List Text) (env : Environment) : List Text :=
  match Request.read env arguments with
  | .ok (.run _ o names) =>
    match o.pack with
    | none => []
    | some name =>
      let pack : Pack := { path := o.root.getD Path.here, name }
      pack.dir :: names.map fun name => Namespace.functionsDir { pack, name }
  | _ => []

/-- The exit code of a run. -/
def Report.exitCode (r : Report) : UInt32 :=
  match r.ending with
  | .version | .help | .ran none => 0
  | .refused _ | .ran (some _) => 1
  | .unknownTopic _ => 3

end Packwright.CommandLine
