import Packwright.Pack
import Packwright.Text.Line

/-! # Scopes

A scope is one function on its way through the compiler: a name in a namespace and the text that is
to become the body of the function.
-/

namespace Packwright

/-- A function being compiled. -/
structure Scope where
  ns : Namespace
  name : Text
  content : Text
  deriving DecidableEq, Repr

namespace Scope

/-- What a command writes to call the function. -/
def reference (s : Scope) : Text := s.ns.reference s.name

/-- The lines of a scope's content. -/
def lines (s : Scope) : List Text := Text.lines s.content

/-- The scope with its content replaced. -/
def withContent (s : Scope) (content : Text) : Scope := { s with content }

end Scope

end Packwright
