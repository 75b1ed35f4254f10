import Packwright.CommandLine.Clock
import Packwright.CommandLine.Program
import Std.Time.DateTime.Timestamp

/-! # The executable

Reads the pack a command line is about into a file tree, runs the command on the tree, and writes
back what changed. Everything the program decides is decided by the command on the tree.
-/

namespace Packwright.Disk

/-- The bytes of a string. -/
def textOf (s : String) : Text := s.toUTF8.toList

/-- The string of a path, as far as it is well-formed. -/
def stringOf (t : Text) : String := String.ofList (Text.chars t)

/-- The place an absolute path names. -/
def placeOf (path : String) : Location := (Path.elements (textOf path)).reverse

/-- The absolute path of a place. -/
def pathOf (place : Location) : String := stringOf (Path.render true place.reverse)

/-- A target that no link leads to on a disk: file names hold no NUL byte. -/
def nowhere : Text := [0]

/-- Adds a place and the directories above it. -/
def addPlace (t : FileTree) (place : Location) (node : Node) : FileTree :=
  let above := (List.range place.length).map fun n => place.drop (place.length - n)
  (above.foldl (fun t dir => if (t.node? dir).isSome then t else t.set dir .directory) t).set place
    node

/-- Adds what is found at an absolute path. A link is added together with what it leads to. -/
partial def addEntry (t : FileTree) (path : String) : IO FileTree := do
  let here ← IO.currentDir
  match ← (here / path).symlinkMetadata.toBaseIO with
  | .error _ => return t
  | .ok found =>
    match found.type with
    | .dir => return addPlace t (placeOf path) .directory
    | .symlink =>
      match ← (IO.FS.realPath path).toBaseIO with
      | .error _ => return addPlace t (placeOf path) (.link nowhere)
      | .ok target =>
        let t := addPlace t (placeOf path) (.link (textOf target.toString))
        if target.toString == path then return t else addEntry t target.toString
    | _ =>
      let content ← IO.FS.readBinFile path
      return addPlace t (placeOf path) (.file content.toList)

/-- Adds everything below a directory, without following links. -/
partial def addBelow (t : FileTree) (path : String) : IO FileTree := do
  let here ← IO.currentDir
  let mut t := t
  for entry in ← (here / path).readDir do
    t ← addEntry t entry.path.toString
    if (← entry.path.symlinkMetadata).type == .dir then
      t ← addBelow t entry.path.toString
  return t

/-- Adds the steps of a path, one element after the other, and everything below its end. -/
partial def addPath (t : FileTree) (here : String) : List String → IO FileTree
  | [] => addBelow t here
  | element :: rest => do
    let next := ((← IO.currentDir) / here) / element
    let t ← addEntry t next.toString
    match ← (IO.FS.realPath next).toBaseIO with
    | .error _ => return t
    | .ok real =>
      if ← real.isDir then addPath t real.toString rest else return t

/-- The part of the file system that some directories lie in. -/
def readTree (dirs : List Text) : IO FileTree := do
  let start := (← IO.currentDir).toString
  let mut t := addPlace { start := placeOf start } (placeOf start) .directory
  for dir in dirs do
    t ← addPath t (if Path.isAbsolute dir then "/" else start) ((Path.elements dir).map stringOf)
  return t

/-- Writes what is new or different in a tree. Directories come before what they hold. -/
def writeChanges (before after : FileTree) : IO Unit := do
  for (place, node) in after.entries do
    if before.node? place != some node then
      match node with
      | .directory => IO.FS.createDirAll (pathOf place)
      | .file content => IO.FS.writeBinFile (pathOf place) ⟨content.toArray⟩
      | .link _ => pure ()

/-- What the program finds around it. -/
def readEnvironment : IO CommandLine.Environment := do
  let get (name : String) : IO (Option Text) := return (← IO.getEnv name).map textOf
  return {
    root := ← get "MCFC_ROOT"
    pack := ← get "MCFC_DATAPACK"
    noColor := !((← get "NO_COLOR").getD []).isEmpty
    terminal := ← (← IO.getStdout).isTty }

end Packwright.Disk

open Packwright in
def main (arguments : List String) : IO UInt32 := do
  let arguments := arguments.map Disk.textOf
  let env ← Disk.readEnvironment
  let before ← Disk.readTree (CommandLine.workDirs arguments env)
  let report := CommandLine.run arguments env before
  Disk.writeChanges before report.files
  let now ← Std.Time.Timestamp.now
  let stamp := CommandLine.logStamp now.toMillisecondsSinceUnixEpoch.val.toNat
  (← IO.getStdout).write ⟨report.output.toArray⟩
  (← IO.getStderr).write ⟨(report.diagnostics stamp).toArray⟩
  return report.exitCode
