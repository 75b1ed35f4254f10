import Packwright.FileTree.Error
import Packwright.Name

/-! # Faults

Everything that ends a compilation early. A fault keeps its cause; its wording is made in one place.
Scopes and functions appear in faults by their references.
-/

namespace Packwright

open Text (ascii)

/-- Why a run ended early. -/
inductive Fault where
  /-- A name was refused. -/
  | name (error : NameError)
  /-- A macro was called that is defined nowhere in the run. -/
  | unknownMacro (called caller : Text) (suggestion : Option Text)
  /-- A call names no macro. -/
  | emptyCall (scope : Text)
  /-- A definition names no macro. -/
  | emptyDefinition (scope : Text)
  /-- A scope was expanded inline more often than allowed. -/
  | expansionLimit (scope : Text) (passes : Nat)
  /-- No id was left for the function of a call. -/
  | callsExhausted (scope called : Text)
  /-- No id was left for the function of a block. -/
  | blocksExhausted (scope : Text)
  /-- The functions directory of a namespace is missing. -/
  | noFunctions (ns dir : Text) (error : FileError)
  /-- The functions directory of a namespace cannot be read. -/
  | unreadableFunctions (ns : Text) (error : FileError)
  /-- One run produced a function twice. -/
  | producedTwice (function : Text)
  /-- The directory of a function cannot be made. -/
  | functionDirectory (function : Text) (error : FileError)
  /-- A file cannot be written. -/
  | unwritable (path : Text) (error : FileError)
  /-- The directory of a pack cannot be made. -/
  | packDirectory (error : FileError)
  /-- The functions directory of a namespace cannot be made. -/
  | namespaceDirectory (dir : Text) (error : FileError)
  /-- A command was given the wrong number of arguments. -/
  | usage (line : Text)
  /-- Something outside the compiler failed, with words of its own. -/
  | external (message : Text)
  deriving DecidableEq, Repr

/-- What is said when the ids of an allocator are used up. -/
def exhaustedMessage : Text := ascii "anonymous name space exhausted"

/-- The wording of a fault. -/
def Fault.message : Fault → Text
  | .name error => error.message
  | .unknownMacro called caller suggestion =>
    caller ++ ascii ": unknown macro " ++ Text.quote called ++
      match suggestion with
      | none | some [] => []
      | some near => ascii " (did you mean " ++ Text.quote near ++ ascii "?)"
  | .emptyCall scope => scope ++ ascii ": call without macro name"
  | .emptyDefinition scope => scope ++ ascii ": generate function without macro name"
  | .expansionLimit scope passes =>
    scope ++ ascii ": macro expansion did not settle after " ++ Text.decimal passes
      ++ ascii " passes"
  | .callsExhausted scope called =>
    scope ++ ascii ": calling " ++ called ++ ascii ": " ++ exhaustedMessage
  | .blocksExhausted scope => scope ++ ascii ": " ++ exhaustedMessage
  | .noFunctions ns dir error =>
    ascii "namespace " ++ ns ++ ascii " has no functions directory " ++ dir ++ ascii ": "
      ++ error.message
  | .unreadableFunctions ns error =>
    ascii "reading functions of " ++ ns ++ ascii ": " ++ error.message
  | .producedTwice function => ascii "function " ++ function ++ ascii " produced twice"
  | .functionDirectory function error =>
    ascii "creating directory for " ++ function ++ ascii ": " ++ error.message
  | .unwritable path error => ascii "writing " ++ path ++ ascii ": " ++ error.message
  | .packDirectory error => ascii "creating datapack dir: " ++ error.message
  | .namespaceDirectory dir error => ascii "creating " ++ dir ++ ascii ": " ++ error.message
  | .usage line => ascii "usage: " ++ line
  | .external message => message

/-- The file error behind a fault. -/
def Fault.fileError? : Fault → Option FileError
  | .noFunctions _ _ error | .unreadableFunctions _ error | .functionDirectory _ error
  | .unwritable _ error | .packDirectory error | .namespaceDirectory _ error => some error
  | _ => none

end Packwright
