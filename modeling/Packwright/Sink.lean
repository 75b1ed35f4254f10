import Packwright.FileTree.Basic
import Packwright.Pipeline.Event

/-! # Where compiled functions go

Compiled functions are written to their files in the pack, or printed one after the other. Both
count what they took.
-/

namespace Packwright

open Text (ascii)

/-- Writes functions into the pack. A function that comes twice in a run is refused, since the
second would silently replace the first. -/
structure Writer where
  files : FileTree
  /-- The paths written so far. -/
  written : List Text := []
  /-- The number of functions taken. -/
  accepted : Nat := 0
  log : List Note := []
  deriving Repr

namespace Writer

/-- Writes one function. -/
def put (w : Writer) (s : Scope) : Writer × Except Fault Unit :=
  match s.ns.functionPath s.name with
  | .error error => (w, .error (.name error))
  | .ok path =>
    if w.written.contains path then (w, .error (.producedTwice s.reference))
    else
      match w.files.makeDirectories (Path.directory path) with
      | (files, .error error) =>
        ({ w with files }, .error (.functionDirectory s.reference error))
      | (files, .ok ()) =>
        match files.write path s.content with
        | (files, .error error) => ({ w with files }, .error (.unwritable path error))
        | (files, .ok ()) =>
          ({ w with
              files
              written := path :: w.written
              accepted := w.accepted + 1
              log := w.log ++ [.functionWritten s.reference path] },
            .ok ())

/-- Takes functions and notes from a run. -/
def receive : Receiver Writer
  | w, .note n => ({ w with log := w.log ++ [n] }, .more)
  | w, .scope s =>
    match w.put s with
    | (w, .ok ()) => (w, .more)
    | (w, .error fault) => (w, .fail fault)

end Writer

/-- Prints functions as text, each under its reference. -/
structure Printer where
  /-- Whether references stand out in colour. -/
  color : Bool
  text : Text := []
  /-- The number of functions taken. -/
  accepted : Nat := 0
  log : List Note := []
  deriving Repr

namespace Printer

/-- The line above a printed function. -/
def header (color : Bool) (reference : Text) : Text :=
  if color then ascii "\x1b[1;36m" ++ reference ++ ascii ":\x1b[0m" else reference ++ ascii ":"

/-- A function as it is printed. -/
def entry (color : Bool) (s : Scope) : Text :=
  header color s.reference ++ [Text.newline] ++ s.content ++ [Text.newline, Text.newline]

/-- Takes functions and notes from a run. -/
def receive : Receiver Printer
  | p, .note n => ({ p with log := p.log ++ [n] }, .more)
  | p, .scope s =>
    ({ p with text := p.text ++ entry p.color s, accepted := p.accepted + 1 }, .more)

end Printer

end Packwright
