import Packwright.Anonymous
import Packwright.Fault
import Packwright.Macro.Argument
import Packwright.Macro.Suggestion
import Packwright.Note
import Packwright.Scope

/-! # The macro table

What is known about macros at a point of a run: the definitions seen so far, the calls that have a
generated function, and the scopes that still have to be expanded. A call that comes before its
definition waits in the table until the definition shows up.
-/

namespace Packwright.Macro

open Text (ascii)

/-- A macro. A separate one never has its body put in place of a call. -/
structure Definition where
  name : Text
  params : List Text
  body : List Text
  separate : Bool
  /-- The reference of the scope that holds the definition. -/
  definedIn : Text
  deriving DecidableEq, Repr

/-- The body of a macro with arguments passed to it. -/
def Definition.expand (d : Definition) (args : List Text) : List Text :=
  d.body.map (passArguments d.params args)

/-- The line that keeps a macro from being put in place of its calls, when it comes first in the
body. -/
def Definition.separateLine : Text := ascii "with scope"

/-- Reads a definition off its header and its body lines, which are indented by more than `depth`
tabs and lose `depth + 1` of them. -/
def Definition.read (definedIn name : Text) (params : List Text) (depth : Nat) (raw : List Text) :
    Definition :=
  let body := raw.map fun line => line.drop (min (depth + 1) (Text.indent line))
  if (body.head?.map Text.trim) == some separateLine then
    { name, params, body := body.drop 1, separate := true, definedIn }
  else { name, params, body, separate := false, definedIn }

/-- A call that has a function of its own. Equal calls in one namespace share it. -/
structure Call where
  callee : Text
  args : List Text
  ns : Namespace
  scopeName : Text
  /-- The reference of the scope that made the call first. -/
  caller : Text
  /-- Whether the function has been made from the body of the macro. -/
  generated : Bool := false
  deriving DecidableEq, Repr

namespace Call

/-- The reference of the function of a call. -/
def reference (c : Call) : Text := c.ns.reference c.scopeName

/-- What makes calls share a function: the namespace, the macro and the arguments, with NUL bytes
between them. -/
def keyOf (ns : Namespace) (callee : Text) (args : List Text) : Text :=
  ns.name ++ [0] ++ callee ++ [0] ++ Text.join [Text.space] args

/-- The key of a call. -/
def key (c : Call) : Text := keyOf c.ns c.callee c.args

/-- Whether the function of a call is still to be made from the macro called `name`. -/
def waitsFor (name : Text) (c : Call) : Bool := c.callee == name && !c.generated

/-- The function of a call, made from the definition of its macro. -/
def scope (c : Call) (d : Definition) : Scope :=
  ⟨c.ns, c.scopeName, Text.unlines (d.expand c.args)⟩

end Call

/-- A scope to be expanded, and how often bodies have been put into it so far. -/
structure Pending where
  scope : Scope
  passes : Nat := 0
  deriving DecidableEq, Repr

/-- What is known about macros at a point of a run. -/
structure Table where
  /-- How many expansion passes may leave one scope unfinished. -/
  limit : Nat
  /-- Where the names of generated functions come from. -/
  ids : Allocator := .descending
  /-- The definitions, in the order in which they were met. -/
  definitions : List Definition := []
  /-- The calls that have a function, in the order in which they were met. -/
  calls : List Call := []
  /-- The scopes still to be expanded, the next one first. -/
  pending : List Pending := []
  /-- Notes not handed on yet, in the order in which they were taken. -/
  journal : List Note := []
  deriving DecidableEq, Repr

namespace Table

/-- Adds a note. -/
def note (t : Table) (n : Note) : Table := { t with journal := t.journal ++ [n] }

/-- The definition of a macro: the first one met. -/
def find? (t : Table) (name : Text) : Option Definition :=
  t.definitions.find? fun d => d.name == name

/-- The call that has a given key. -/
def call? (t : Table) (key : Text) : Option Call := t.calls.find? fun c => c.key == key

/-- Makes the functions of all calls that wait for a definition. The last one is expanded first. -/
def generate (t : Table) (d : Definition) : Table :=
  let waiting := t.calls.filter (Call.waitsFor d.name)
  { t with
    calls := t.calls.map fun c => if c.waitsFor d.name then { c with generated := true } else c
    pending := (waiting.map fun c => ⟨c.scope d, 0⟩).reverse ++ t.pending
    journal := t.journal ++ waiting.map fun c => .macroGenerated d.name c.reference }

/-- Adds a definition and makes the functions of the calls that waited for it. A macro that is
already defined stays as it is. -/
def define (t : Table) (d : Definition) : Table :=
  match t.find? d.name with
  | some first => t.note (.macroRedefined d.name first.definedIn d.definedIn)
  | none =>
    ({ t with definitions := t.definitions ++ [d] }.note
      (.macroDefined d.name d.params.length d.separate d.definedIn)).generate d

/-- Makes the functions of calls whose definition is known and that still wait. The pass itself does
not say whether it made any; that is asked before it, by `canClose`. -/
def close (t : Table) : Table := t.definitions.foldl generate t

/-- Whether some call waits although its macro is defined, which is whether closing the table makes a
function. -/
def canClose (t : Table) : Bool :=
  t.calls.any fun c => !c.generated && (t.find? c.callee).isSome

/-- The fault of the first call whose macro was never defined. -/
def unresolved (t : Table) : Option Fault :=
  (t.calls.find? fun c => !c.generated).map fun c =>
    .unknownMacro c.callee c.caller (suggestion c.callee (t.definitions.map (·.name)))

end Table

end Packwright.Macro
