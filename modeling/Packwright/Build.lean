import Packwright.Compiler
import Packwright.PackMeta
import Packwright.Sink
import Packwright.Source

/-! # Building packs

The source functions of a namespace are compiled and either written into the pack or printed.
Building writes each function as soon as it is compiled, while later sources are still unread.
-/

namespace Packwright

namespace Compiler

/-- Compiles the source functions of a namespace into a receiver that holds the file tree. -/
def compileNamespace {κ : Type} (settings : Settings) (files : κ → FileTree) (receive : Receiver κ)
    (ns : Namespace) (k : κ) : κ × Verdict :=
  let stages := Stage.standard
  match Source.feed (fun state : Pipeline.Memory stages × κ => files state.2)
      (Pipeline.deliver receive stages) ns (Pipeline.start settings stages, k) with
  | (state, .more) =>
    match Pipeline.finish receive stages state with
    | ((_, k), verdict) => (k, verdict)
  | ((_, k), verdict) => (k, verdict)

/-- Compiles a namespace and writes its functions into the pack. -/
def build (settings : Settings) (ns : Namespace) (files : FileTree) : Writer × Option Fault :=
  match compileNamespace settings Writer.files Writer.receive ns { files } with
  | (w, .fail fault) => (w, some fault)
  | (w, _) => ({ w with log := w.log ++ [.namespaceCompiled ns.name w.accepted] }, none)

/-- Compiles a namespace and prints its functions. -/
def emit (settings : Settings) (ns : Namespace) (files : FileTree) (color : Bool) :
    Printer × Option Fault :=
  match compileNamespace settings (fun _ => files) Printer.receive ns { color } with
  | (p, verdict) => (p, verdict.fault?)

end Compiler

namespace Pack

/-- Writes the file that describes a pack, making the directory of the pack if need be. -/
def writeMeta (p : Pack) (files : FileTree) : FileTree × Except Fault Unit :=
  match files.makeDirectories p.dir with
  | (files, .error error) => (files, .error (.packDirectory error))
  | (files, .ok ()) =>
    match files.write p.metaPath p.metaContent with
    | (files, .error error) => (files, .error (.unwritable p.metaPath error))
    | (files, .ok ()) => (files, .ok ())

end Pack

end Packwright
