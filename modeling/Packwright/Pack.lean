import Packwright.Name
import Packwright.Path

/-! # Packs and namespaces

A pack is a named directory; a namespace is a directory in it that holds functions. A function is
addressed in the game by its reference and on disk by its path.

```text
<path>/<pack>/pack.mcmeta
<path>/<pack>/data/<namespace>/functions/<name>.mcfunction
```
-/

namespace Packwright

open Text (ascii)

/-- A game release together with the pack format it reads. -/
structure Release where
  name : Text
  packFormat : Nat
  deriving DecidableEq, Repr

/-- The release that compiled functions are made for. -/
def Release.target : Release := ⟨ascii "1.17", 7⟩

/-- A pack and the directory it lives in. -/
structure Pack where
  path : Text
  name : Text
  description : Text := []
  release : Release := .target
  deriving DecidableEq, Repr

/-- A namespace of a pack. -/
structure Namespace where
  pack : Pack
  name : Text
  deriving DecidableEq, Repr

namespace Pack

/-- The extension of source functions. -/
def sourceExtension : Text := ascii ".mcf"

/-- The extension of compiled functions. -/
def functionExtension : Text := ascii ".mcfunction"

/-- The name of the file that describes a pack. -/
def metaFile : Text := ascii "pack.mcmeta"

/-- The pack called `name` in the directory `path`, where an empty path is the current directory. -/
def named (path name : Text) : Except NameError Pack := do
  Name.validate .pack name
  return { path := if path.isEmpty then Path.here else path, name }

/-- The directory of a pack. -/
def dir (p : Pack) : Text := Path.join [p.path, p.name]

/-- The path of the file that describes a pack. -/
def metaPath (p : Pack) : Text := Path.join [p.dir, metaFile]

/-- The namespace called `name` of a pack. -/
def namespaceNamed (p : Pack) (name : Text) : Except NameError Namespace := do
  Name.validate .space name
  return { pack := p, name }

end Pack

namespace Namespace

/-- The directory that holds the functions of a namespace. -/
def functionsDir (ns : Namespace) : Text :=
  Path.join [ns.pack.dir, ascii "data", ns.name, ascii "functions"]

/-- The path of the compiled function called `name`. -/
def functionPath (ns : Namespace) (name : Text) : Except NameError Text := do
  Name.validate .function name
  return Path.join [ns.functionsDir, name ++ Pack.functionExtension]

/-- What a command writes to call the function called `name`. -/
def reference (ns : Namespace) (name : Text) : Text := ns.name ++ ascii ":" ++ name

end Namespace

end Packwright
