import Packwright.Text.Basic

/-! # Paths

Paths are joined with slashes and then cleaned lexically: empty and `.` elements go, and `..` takes
away the element before it.
-/

namespace Packwright.Path

open Text (ascii)

/-- The element that stays where it is. -/
def here : Text := ascii "."

/-- The element that goes one level up. -/
def parent : Text := ascii ".."

/-- Whether a path starts at the root of the file system. -/
def isAbsolute (path : Text) : Bool := path.head? == some Text.slash

/-- The elements of a path that move somewhere. -/
def elements (path : Text) : List Text :=
  (path.splitOn Text.slash).filter fun e => !e.isEmpty && e != here

/-- The elements of a path one after the other, those that move nowhere among them. A slash at the
end counts as an empty last element. -/
def steps (path : Text) : List Text :=
  (path.splitOn Text.slash).filter (fun e => !e.isEmpty)
    ++ if path.getLast? == some Text.slash then [[]] else []

/-- A path without the slashes at its end. -/
def withoutFinalSlashes (path : Text) : Text := (path.reverse.dropWhile (· == Text.slash)).reverse

/-- Adds an element to the elements passed so far, the last one first. `..` takes the last one
away; where nothing can be taken, it stays in a relative path and is dropped in an absolute one. -/
def descend (absolute : Bool) (passed : List Text) (element : Text) : List Text :=
  if element != parent then element :: passed
  else
    match passed with
    | last :: rest => if last == parent then element :: passed else rest
    | [] => if absolute then [] else [element]

/-- Writes elements as a path. The empty path is written `.` or, at the root, `/`. -/
def render (absolute : Bool) (es : List Text) : Text :=
  if absolute then Text.slash :: Text.join [Text.slash] es
  else if es.isEmpty then here
  else Text.join [Text.slash] es

/-- The shortest path with the same lexical meaning. -/
def clean (path : Text) : Text :=
  render (isAbsolute path) ((elements path).foldl (descend (isAbsolute path)) []).reverse

/-- Joins paths and cleans the result. Empty paths in front are left out, and of no
path at all the result is empty. -/
def join (paths : List Text) : Text :=
  match paths.dropWhile List.isEmpty with
  | [] => []
  | ps => clean (Text.join [Text.slash] ps)

/-- The path of the directory that holds a path: what stands before its last element, cleaned. -/
def directory (path : Text) : Text :=
  clean (path.reverse.dropWhile (· != Text.slash)).reverse

end Packwright.Path
