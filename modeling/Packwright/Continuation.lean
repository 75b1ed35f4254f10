import Packwright.Text.Line

/-! # Continuation lines

A line whose first word is `back` continues the line before it. The keyword and the one blank that
delimits it are dropped and everything after them is appended as it stands.
-/

namespace Packwright.Continuation

open Text (ascii)

/-- The word that starts a continuation line. -/
def keyword : Text := ascii "back"

/-- Whether a line continues the one before it. -/
def continues (line : Text) : Bool := Text.firstWord line == keyword

/-- What a continuation line adds to the line before it. -/
def tail (line : Text) : Text :=
  match (line.dropWhile Text.isBlank).drop keyword.length with
  | b :: rest => if Text.isBlank b then rest else b :: rest
  | [] => []

/-- Appends to `current` what the continuation lines at the front add, then goes on with the first
line that is none. -/
def absorb (current : Text) : List Text → List Text
  | [] => [current]
  | next :: rest =>
    if continues next then absorb (current ++ tail next) rest else current :: absorb next rest

/-- Joins continuation lines to the line they continue. A continuation line with no line before it
stays as it is. -/
def joinLines : List Text → List Text
  | [] => []
  | first :: rest => absorb first rest

/-- The text with its continuation lines joined. -/
def join (content : Text) : Text := Text.unlines (joinLines (Text.lines content))

end Packwright.Continuation
