import Packwright.Fault
import Packwright.Note
import Packwright.Scope

/-! # Events

What passes along a pipeline: scopes, and the notes taken on the way. Whoever receives an event says
whether more is wanted, so a stream ends as soon as its receiver stops or something fails.
-/

namespace Packwright

/-- Something handed from one part of a pipeline to the next. -/
inductive Event where
  | scope (s : Scope)
  | note (n : Note)
  deriving DecidableEq, Repr

/-- The answer to an event: go on, stop because enough was received, or stop because of a fault. -/
inductive Verdict where
  | more
  | stop
  | fail (fault : Fault)
  deriving DecidableEq, Repr

/-- The fault a run ended with. -/
def Verdict.fault? : Verdict → Option Fault
  | .fail fault => some fault
  | _ => none

/-- The verdict once everything before a possible fault has been handed on. -/
def Verdict.orFault (v : Verdict) (fault : Option Fault) : Verdict :=
  match v, fault with
  | .more, some f => .fail f
  | v, _ => v

/-- Takes an event into a state. -/
abbrev Receiver (σ : Type) := σ → Event → σ × Verdict

/-- Takes the members of a list one by one, as long as more is wanted. -/
def takeEach {σ α : Type} (step : σ → α → σ × Verdict) (state : σ) : List α → σ × Verdict
  | [] => (state, .more)
  | a :: rest =>
    match step state a with
    | (state, .more) => takeEach step state rest
    | halted => halted

/-- How a part of a pipeline with memory `μ` answers: its new memory, what it hands on and, after
that, the fault it ends with. -/
structure Reaction (μ : Type) where
  memory : μ
  events : List Event
  fault : Option Fault := none

/-- The answer that hands on one scope and remembers nothing new. -/
def Reaction.pass {μ : Type} (memory : μ) (s : Scope) : Reaction μ :=
  { memory, events := [.scope s] }

end Packwright
