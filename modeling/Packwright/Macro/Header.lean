import Packwright.Text.WhiteSpace

/-! # Definition headers

A macro definition starts with a line `generate function NAME PARAM...`. The first two words alone
make a line a header, so a header may lack its name.
-/

namespace Packwright.Macro

open Text (ascii)

/-- The word before the name of a function, in definitions and in calls. -/
def functionWord : Text := ascii "function"

/-- The head line of a definition: the name of the macro, if given, and its parameters. -/
structure Header where
  name : Option Text
  params : List Text
  deriving DecidableEq, Repr

/-- The word that starts a definition. -/
def generateWord : Text := ascii "generate"

/-- Reads a line as the head of a definition. -/
def Header.parse? (line : Text) : Option Header :=
  if Text.firstField line == generateWord then
    match Text.fields line with
    | _ :: second :: rest =>
      if second == functionWord then some ⟨rest.head?, rest.drop 1⟩ else none
    | _ => none
  else none

end Packwright.Macro
