import Packwright.Text.Basic

/-! # Passing arguments

Arguments replace whole-token occurrences of the parameters in one pass from left to right, so an
argument is never searched for parameters itself. Parameters and arguments are paired by position,
and what is left over on either side is ignored.
-/

namespace Packwright.Macro

/-- Whether a text starts with `param` as a whole token: where the parameter ends in a word byte, no
word byte follows. -/
def startsWithToken (param text : Text) : Bool :=
  !param.isEmpty && param.isPrefixOf text &&
    !(((text.drop param.length).head?.map Text.isWord).getD false
      && (param.getLast?.map Text.isWord).getD false)

/-- Of two candidates, the one with the longer parameter, the earlier one if they are equally
long. -/
def longer {α : Type} (best : Option (Text × α)) (candidate : Text × α) : Option (Text × α) :=
  match best with
  | none => some candidate
  | some b => if b.1.length < candidate.1.length then some candidate else some b

/-- The longest parameter that a text starts with as a whole token, with what is paired to it. -/
def matchParam {α : Type} (text : Text) (pairs : List (Text × α)) : Option (Text × α) :=
  (pairs.filter fun pair => startsWithToken pair.1 text).foldl longer none

/-- Replaces parameters in the rest of a line. `afterWord` says whether a word byte stands before
it, and `pending` counts the bytes of the parameter replaced last that are still to be passed. -/
def passFrom (pairs : List (Text × Text)) (afterWord : Bool) (pending : Nat) : Text → Text
  | [] => []
  | b :: rest =>
    match pending with
    | n + 1 => passFrom pairs (Text.isWord b) n rest
    | 0 =>
      match if afterWord then none else matchParam (b :: rest) pairs with
      | some (param, arg) => arg ++ passFrom pairs (Text.isWord b) (param.length - 1) rest
      | none => b :: passFrom pairs (Text.isWord b) 0 rest

/-- The line with its parameters replaced by the arguments. -/
def passArguments (params args : List Text) (line : Text) : Text :=
  passFrom (params.zip args) false 0 line

end Packwright.Macro
