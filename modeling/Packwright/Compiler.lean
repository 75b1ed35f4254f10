import Packwright.Pipeline.Run

/-! # Compiling

The compiler runs the five stages in their fixed order. Each compilation starts afresh, so runs
share neither macros nor names and the same source always compiles to the same functions.
-/

namespace Packwright

/-- The stages of the compiler. -/
def Stage.standard : List Stage := [.comments, .macros, .blocks, .substitutions, .back]

/-- What was received from a run, in order. `wanted` is the number of scopes after which no more are
taken. -/
structure Collected where
  wanted : Option Nat := none
  scopes : List Scope := []
  log : List Note := []
  deriving Repr

/-- Collects scopes and notes. -/
def Collected.receive : Receiver Collected
  | c, .note n => ({ c with log := c.log ++ [n] }, .more)
  | c, .scope s =>
    let scopes := c.scopes ++ [s]
    ({ c with scopes }, if c.wanted = some scopes.length then .stop else .more)

namespace Compiler

/-- Compiles a source and takes the functions into a receiver. -/
def compileInto {κ : Type} (settings : Settings) (receive : Receiver κ) (k : κ)
    (source : List (Except Fault Scope)) :
    Pipeline.Outcome (Pipeline.Memory Stage.standard × κ) :=
  Pipeline.run receive Stage.standard (Pipeline.start settings Stage.standard, k) source

/-- Compiles a source and collects the functions, all of them or the first `wanted`. -/
def compile (settings : Settings) (wanted : Option Nat) (source : List (Except Fault Scope)) :
    Pipeline.Outcome Collected :=
  match compileInto settings Collected.receive { wanted } source with
  | ⟨(_, collected), pulled, verdict⟩ => ⟨collected, pulled, verdict⟩

end Compiler

end Packwright
