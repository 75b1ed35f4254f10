import Packwright.FileTree.Basic
import Packwright.Pipeline.Event

/-! # Source functions

The source functions of a namespace are the files with the source extension below its functions
directory. They are found by walking the directory in the order of names, where a directory is
walked when its turn comes. A function is named by its path in the directory without the extension.

Links are not followed by the walk, but a link with the extension is read through. What cannot be
read is noted and left out; a missing functions directory is a fault.
-/

namespace Packwright.Source

variable {σ : Type}

/-- The name of a source function, given the directories that lead to its file and the file's
name. -/
def functionName (above : List Text) (file : Text) : Text :=
  Text.join [Text.slash]
    (above ++ [file.take (file.length - Pack.sourceExtension.length)])

/-- Reads one source file and hands it on. -/
def load (files : σ → FileTree) (receive : Receiver σ) (ns : Namespace) (path : Text)
    (above : List Text) (file : Text) (state : σ) : σ × Verdict :=
  match (files state).read path with
  | .error error => receive state (.note (.sourceSkipped path error))
  | .ok content =>
    let s : Scope := ⟨ns, functionName above file, content⟩
    takeEach receive state [.note (.sourceLoaded s.reference content.length), .scope s]

/-- Walks what a directory held when it was entered. `depth` bounds how far the walk goes down, and
`above` names the directories that lead here from the functions directory. A directory is listed
when its turn comes, so it shows what was written or removed until then. -/
def walk (files : σ → FileTree) (receive : Receiver σ) (ns : Namespace) :
    (depth : Nat) → (path : Text) → (above : List Text) → List (Text × Node) → σ → σ × Verdict
  | 0, _, _, _, state => (state, .more)
  | depth + 1, path, above, entries, state =>
    takeEach (fun state (name, node) =>
      let path := path ++ [Text.slash] ++ name
      match node with
      | .directory =>
        match (files state).list path with
        | .error error => receive state (.note (.pathSkipped path error))
        | .ok entries => walk files receive ns depth path (above ++ [name]) entries state
      | _ =>
        if Pack.sourceExtension.isSuffixOf name then
          load files receive ns path above name state
        else (state, .more)) state entries

/-- The fault of a functions directory that cannot be read. -/
def fault (ns : Namespace) (error : FileError) : Fault :=
  if error.cause = .missing then .noFunctions ns.name ns.functionsDir error
  else .unreadableFunctions ns.name error

/-- Hands out the source functions of a namespace. No chain of directories is longer than the number
of entries in the tree, so the walk reaches every one of them. -/
def feed (files : σ → FileTree) (receive : Receiver σ) (ns : Namespace) (state : σ) : σ × Verdict :=
  let root := ns.functionsDir
  match (files state).inspect root with
  | .error error => (state, .fail (fault ns error))
  | .ok .directory =>
    match (files state).list root with
    | .error error => (state, .fail (fault ns error))
    | .ok entries =>
      walk files receive ns ((files state).entries.length + 1) root [] entries state
  | .ok _ => (state, .more)

end Packwright.Source
