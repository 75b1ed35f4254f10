import Packwright.FileTree.Error
import Packwright.Path

/-! # File trees

A file system as the compiler sees it: files, directories and symbolic links at places below a root.
Every operation is a function on trees, and one that fails says so in the system's words. A path is
resolved step by step; links on the way are followed, and one at the end only on demand.
-/

namespace Packwright

/-- A place in a file tree: the names that lead to it from the root, the innermost one first. -/
abbrev Location := List Text

/-- What is found at a place. -/
inductive Node where
  | file (content : Text)
  | directory
  | link (target : Text)
  deriving DecidableEq, Repr

/-- The files, directories and links below a root, and the place relative paths start from. The root
itself is always a directory. No two places share a file, that is, there are no hard links. -/
structure FileTree where
  entries : List (Location × Node) := []
  start : Location := []
  deriving DecidableEq, Repr

namespace FileTree

/-- What is found at a place. -/
def node? (t : FileTree) (place : Location) : Option Node :=
  if place.isEmpty then some .directory else t.entries.lookup place

/-- Puts something at a place, in place of what is there. -/
def set (t : FileTree) (place : Location) (node : Node) : FileTree :=
  if (t.entries.lookup place).isSome then
    { t with entries := t.entries.map fun e => if e.1 == place then (place, node) else e }
  else { t with entries := t.entries ++ [(place, node)] }

/-- The name of a place inside a directory, if it lies right in it. -/
def nameIn? (dir : Location) : (place : Location) → Option Text
  | [] => none
  | name :: above => if above == dir then some name else none

/-- What a directory holds, sorted by name. -/
def children (t : FileTree) (dir : Location) : List (Text × Node) :=
  (t.entries.filterMap fun e => (nameIn? dir e.1).map fun name => (name, e.2)).mergeSort
    fun a b => Text.le a.1 b.1

/-- How many links are followed before a path is taken to lead nowhere. -/
def linkLimit : Nat := 40

/-- The greatest length of a name. -/
def nameLimit : Nat := 255

/-- The greatest length of a path. -/
def pathLimit : Nat := 4095

/-- What a path is resolved for: the entry it names, what the entry leads to, or a file that may
have to be created. -/
inductive Purpose where
  | entry
  | target
  | creation
  deriving DecidableEq, Repr

/-- Follows the steps of a path from a directory on, to a place and what is found there. Only the
last step may lead to a place where nothing is found, and a step can be made only from a directory,
also one that moves nowhere. A link is replaced by its target, at the end of the path unless the
entry itself is asked for, and from there on `follow` is asked. No file can be created under a name
with a slash at its end. -/
def resolveSteps (t : FileTree) (purpose : Purpose)
    (follow : Location → List Text → Except FileCause (Location × Option Node)) :
    (here : Location) → (path : List Text) → Except FileCause (Location × Option Node)
  | here, [] => .ok (here, t.node? here)
  | here, step :: rest =>
    if step.isEmpty || step == Path.here then t.resolveSteps purpose follow here rest
    else if step == Path.parent then t.resolveSteps purpose follow here.tail rest
    else if purpose == .creation && rest == [[]] then .error .isDirectory
    else if nameLimit < step.length then .error .nameTooLong
    else
      let place := step :: here
      match t.node? place with
      | none => if rest.isEmpty then .ok (place, none) else .error .missing
      | some .directory => t.resolveSteps purpose follow place rest
      | some (.file content) =>
        if rest.isEmpty then .ok (place, some (.file content)) else .error .notDirectory
      | some (.link target) =>
        if rest.isEmpty && purpose == .entry then .ok (place, some (.link target))
        else follow (if Path.isAbsolute target then [] else here) (Path.steps target ++ rest)

/-- Follows the steps of a path through a number of links at most. -/
def resolve (t : FileTree) (purpose : Purpose) :
    (links : Nat) → (here : Location) → (path : List Text) →
      Except FileCause (Location × Option Node)
  | 0 => t.resolveSteps purpose fun _ _ => .error .tooManyLinks
  | links + 1 => t.resolveSteps purpose (t.resolve purpose links)

/-- Why a text cannot be a path, if it cannot. -/
def pathFault? (path : Text) : Option FileCause :=
  if path.contains 0 then some .invalidArgument
  else if path.isEmpty then some .missing
  else if pathLimit < path.length then some .nameTooLong
  else none

/-- The place a path leads to, and what is found there. -/
def locate (t : FileTree) (purpose : Purpose) (path : Text) :
    Except FileCause (Location × Option Node) :=
  match pathFault? path with
  | some cause => .error cause
  | none =>
    t.resolve purpose linkLimit (if Path.isAbsolute path then [] else t.start) (Path.steps path)

/-- Looks at a path without following a link at its end. -/
def inspect (t : FileTree) (path : Text) : Except FileError Node :=
  match t.locate .entry path with
  | .ok (_, some node) => .ok node
  | .ok (_, none) => .error ⟨.inspect, path, .missing⟩
  | .error cause => .error ⟨.inspect, path, cause⟩

/-- What a path leads to when links are followed to the end. -/
def target? (t : FileTree) (path : Text) : Option Node :=
  match t.locate .target path with
  | .ok (_, node) => node
  | .error _ => none

/-- Lists a directory, sorted by name. -/
def list (t : FileTree) (path : Text) : Except FileError (List (Text × Node)) :=
  match t.locate .target path with
  | .ok (place, some .directory) => .ok (t.children place)
  | .ok (_, some _) => .error ⟨.access, path, .notDirectory⟩
  | .ok (_, none) => .error ⟨.access, path, .missing⟩
  | .error cause => .error ⟨.access, path, cause⟩

/-- Reads a file. -/
def read (t : FileTree) (path : Text) : Except FileError Text :=
  match t.locate .target path with
  | .ok (_, some (.file content)) => .ok content
  | .ok (_, some _) => .error ⟨.read, path, .isDirectory⟩
  | .ok (_, none) => .error ⟨.access, path, .missing⟩
  | .error cause => .error ⟨.access, path, cause⟩

/-- Writes a file, in place of an old one. Its directory has to exist. -/
def write (t : FileTree) (path content : Text) : FileTree × Except FileError Unit :=
  match t.locate .creation path with
  | .ok (_, some .directory) => (t, .error ⟨.access, path, .isDirectory⟩)
  | .ok (place, _) => (t.set place (.file content), .ok ())
  | .error cause => (t, .error ⟨.access, path, cause⟩)

/-- Makes something at a path where nothing is found yet. -/
def make (t : FileTree) (path : Text) (node : Node) : FileTree × Except FileError Unit :=
  match t.locate .entry path with
  | .ok (place, none) => (t.set place node, .ok ())
  | .ok (_, some _) => (t, .error ⟨.create, path, .alreadyExists⟩)
  | .error cause => (t, .error ⟨.create, path, cause⟩)

/-- Makes a link. Its target has to be a path but need not lead anywhere. -/
def makeLink (t : FileTree) (path target : Text) : FileTree × Except FileError Unit :=
  match pathFault? target with
  | some cause => (t, .error ⟨.create, path, cause⟩)
  | none => t.make path (.link target)

/-- Makes the directory with the given path steps, last one first, and those above it that are
missing. A step that moves nowhere new finds its directory made. Directories made before a failure
stay. -/
def makeAbove (t : FileTree) (absolute : Bool) : List Text → FileTree × Except FileError Unit
  | [] => (t, .ok ())
  | element :: above =>
    let path := Path.render absolute (element :: above).reverse
    match t.target? path with
    | some .directory => (t, .ok ())
    | some _ => (t, .error ⟨.create, path, .notDirectory⟩)
    | none =>
      match t.makeAbove absolute above with
      | (t, .error error) => (t, .error error)
      | (t, .ok ()) =>
        match t.make path .directory, t.inspect path with
        | (t, .error _), .ok .directory => (t, .ok ())
        | result, _ => result

/-- Makes a directory and those above it that are missing. -/
def makeDirectories (t : FileTree) (path : Text) : FileTree × Except FileError Unit :=
  t.makeAbove (Path.isAbsolute path) ((Path.steps path).filter fun s => !s.isEmpty).reverse

/-- Removes what is found at a path, with everything below it. A path that ends in `.` is left
alone. Behind slashes at the end, `.` and `..` name a directory that cannot be removed itself: it is
emptied. -/
def remove (t : FileTree) (path : Text) : FileTree :=
  let last := (Path.steps (Path.withoutFinalSlashes path)).getLast?
  let emptied := last == some Path.here || last == some Path.parent
  if last == some Path.here && Path.withoutFinalSlashes path == path then t
  else
    match t.locate .entry (Path.withoutFinalSlashes path) with
    | .ok (place, some _) =>
      { t with
        entries := t.entries.filter fun e =>
          !place.isSuffixOf e.1 || (emptied && e.1 == place) }
    | _ => t

/-- The path that leads from a directory to a place below it. -/
def pathFrom? (dir place : Location) : Option Text :=
  if dir.isSuffixOf place && dir.length < place.length then
    some (Text.join [Text.slash] (place.take (place.length - dir.length)).reverse)
  else none

/-- Everything below the place relative paths start from, each with its path, sorted by path. -/
def listing (t : FileTree) : List (Text × Node) :=
  (t.entries.filterMap fun e => (pathFrom? t.start e.1).map fun path => (path, e.2)).mergeSort
    fun a b => Text.le a.1 b.1

/-- What is new or different in a tree since an earlier one. -/
def changes (before after : FileTree) : List (Text × Node) :=
  listing { after with entries := after.entries.filter fun e => before.node? e.1 != some e.2 }

end FileTree

end Packwright
