import Packwright.Macro.CallSite
import Packwright.Macro.Header
import Packwright.Macro.Table

/-! # Expanding scopes

One pass over a scope cuts out its definitions and resolves its calls. A call of a macro that is
known and not separate, with nothing but white space before it, is replaced by the body of the
macro; any other call becomes a call of a generated function. A scope that had a body put into it is
expanded again later, since the body may hold calls itself.

Every pass uses up part of a supply (`Table.load`): passes left to the pending scopes, calls that
wait, and ids. So expansion comes to an end whatever the macros do.
-/

namespace Packwright.Macro

open Text (ascii)

/-- The line that calls a function, after what stood before the macro call. -/
def callLine (lead reference : Text) : Text := lead ++ functionWord ++ ascii " " ++ reference

/-- What a line or a scope became: its lines, and whether a body was put in. -/
structure Expanded where
  lines : List Text
  inlined : Bool := false
  deriving DecidableEq, Repr

/-- Puts the lines of a first part before those of a second. -/
def Expanded.append (a b : Expanded) : Expanded := ⟨a.lines ++ b.lines, a.inlined || b.inlined⟩

namespace Table

/-- Gives a call that has none yet a function: made at once if the macro is known, and later if it
is not. -/
def record (t : Table) (s : Scope) (callee : Text) (args : List Text) :
    Table × Except Fault Call :=
  match t.ids.draw with
  | none => (t, .error (.callsExhausted s.reference callee))
  | some (name, ids) =>
    let c : Call := { callee, args, ns := s.ns, scopeName := name, caller := s.reference }
    match t.find? callee with
    | some d =>
      ({ t with
          ids
          calls := t.calls ++ [{ c with generated := true }]
          pending := ⟨c.scope d, 0⟩ :: t.pending }.note (.macroGenerated callee c.reference),
        .ok c)
    | none =>
      ({ t with ids, calls := t.calls ++ [c] }.note (.forwardCall callee c.reference c.caller),
        .ok c)

/-- Resolves one call of a scope. An equal call made before decides first, then whether the body can
be put in place. -/
def resolve (t : Table) (s : Scope) (site : CallSite) : Table × Except Fault Expanded :=
  match Text.fields site.payload with
  | [] => (t, .error (.emptyCall s.reference))
  | callee :: args =>
    match t.call? (Call.keyOf s.ns callee args) with
    | some c => (t, .ok ⟨[callLine site.lead c.reference], false⟩)
    | none =>
      match (t.find? callee).filter fun d => !d.separate && Text.isSpace site.lead with
      | some d => (t, .ok ⟨(d.expand args).map (site.lead ++ ·), true⟩)
      | none =>
        match t.record s callee args with
        | (t, .error fault) => (t, .error fault)
        | (t, .ok c) => (t, .ok ⟨[callLine site.lead c.reference], false⟩)

/-- One pass over lines of a scope. What was learnt before a fault stays in the table. -/
def expandLines (t : Table) (s : Scope) (lines : List Text) : Table × Except Fault Expanded :=
  match lines with
  | [] => (t, .ok ⟨[], false⟩)
  | line :: rest =>
    match Header.parse? line with
    | some ⟨none, _⟩ => (t, .error (.emptyDefinition s.reference))
    | some ⟨some name, params⟩ =>
      let depth := Text.indent line
      let isBody (l : Text) : Bool := depth < Text.indent l
      (t.define (.read s.reference name params depth (rest.takeWhile isBody))).expandLines s
        (rest.dropWhile isBody)
    | none =>
      match CallSite.parse? line with
      | none =>
        match t.expandLines s rest with
        | (t, result) => (t, result.map (Expanded.append ⟨[line], false⟩))
      | some site =>
        match t.resolve s site with
        | (t, .error fault) => (t, .error fault)
        | (t, .ok expanded) =>
          match t.expandLines s rest with
          | (t, result) => (t, result.map expanded.append)
termination_by lines.length
decreasing_by
  · exact Nat.lt_succ_of_le (List.dropWhile_sublist _).length_le
  · exact Nat.lt_succ_self _
  · exact Nat.lt_succ_self _

/-- Expands a scope once. A finished scope is returned; an unfinished one goes back to the pending
scopes, unless it has used up its passes. -/
def process (t : Table) (p : Pending) : Table × Except Fault (Option Scope) :=
  match t.expandLines p.scope p.scope.lines with
  | (t, .error fault) => (t, .error fault)
  | (t, .ok expanded) =>
    let s := p.scope.withContent (Text.unlines expanded.lines)
    if !expanded.inlined then (t, .ok (some s))
    else if t.limit < p.passes + 1 then (t, .error (.expansionLimit s.reference (p.passes + 1)))
    else ({ t with pending := ⟨s, p.passes + 1⟩ :: t.pending }, .ok none)

end Table

end Packwright.Macro
