import Packwright.Block
import Packwright.Comment
import Packwright.Continuation
import Packwright.Macro.Supply
import Packwright.Pipeline.Event
import Packwright.Substitution

/-! # Stages

A stage takes scopes one by one and hands scopes on. The macro stage also has work of its own: once
no more scopes come in, it hands on what is pending. All other stages answer a scope at once.
-/

namespace Packwright

/-- The settings of a run. -/
structure Settings where
  /-- Whether equal blocks have one function. -/
  shareBlocks : Bool := false
  /-- How many expansion passes may leave one scope unfinished; the default applies when this is not
  positive. -/
  maxPasses : Int := 0
  /-- Where the functions of calls get their names. -/
  callIds : Allocator := .descending
  /-- Where the functions of blocks get their names. -/
  blockIds : Allocator := .ascending
  deriving DecidableEq, Repr

/-- The pass limit when none is set. -/
def Settings.defaultPasses : Nat := 1000

/-- The pass limit that applies. -/
def Settings.limit (s : Settings) : Nat :=
  if s.maxPasses ≤ 0 then defaultPasses else s.maxPasses.toNat

namespace Macro.Table

/-- Hands on the notes taken and what expanding a scope led to. -/
def reaction : Table × Except Fault (Option Scope) → Reaction Table
  | (t, result) =>
    let notes := t.journal.map Event.note
    let memory := { t with journal := [] }
    match result with
    | .ok (some s) => { memory, events := notes ++ [.scope s] }
    | .ok none => { memory, events := notes }
    | .error fault => { memory, events := notes, fault := some fault }

/-- Takes a scope from outside. -/
def accept (t : Table) (s : Scope) : Reaction Table := reaction (t.process ⟨s, 0⟩)

/-- The next step when no more scopes come in: expand what is pending, then make functions that
still wait, then report a call that is left over. -/
def advance? (t : Table) : Option (Reaction Table) :=
  match t.pending with
  | p :: rest => some (reaction ({ t with pending := rest }.process p))
  | [] =>
    if t.canClose then some (reaction (t.close, .ok none))
    else t.unresolved.map fun fault => { memory := t, events := [], fault := some fault }

theorem load_reaction (step : Table × Except Fault (Option Scope)) :
    (reaction step).memory.load = step.1.load := by
  obtain ⟨t, result⟩ := step
  unfold reaction
  dsimp only
  split <;> rfl

/-- Every step that ends without a fault uses up supply. -/
theorem load_advance {t : Table} {r : Reaction Table} (h : t.advance? = some r)
    (hfault : r.fault = none) : r.memory.load < t.load := by
  unfold advance? at h
  split at h
  next p rest hpending =>
    cases h
    rw [load_reaction]
    exact load_process_lt hpending
  next =>
    split at h
    next hclose =>
      cases h
      rw [load_reaction]
      exact load_close_lt hclose
    next =>
      obtain ⟨fault, -, rfl⟩ := Option.map_eq_some_iff.mp h
      cases hfault

end Macro.Table

namespace Block

/-- Takes a scope: the functions of its blocks are handed on before it. -/
def accept (m : Memory) (s : Scope) : Reaction Memory :=
  match lower m s with
  | (l, .error fault) =>
    { memory := l.memory, events := l.journal.map .note, fault := some fault }
  | (l, .ok s) =>
    { memory := l.memory, events := l.journal.map .note ++ (l.made ++ [s]).map .scope }

end Block

/-- The steps of compilation. -/
inductive Stage where
  | comments
  | macros
  | blocks
  | substitutions
  | back
  deriving DecidableEq, Repr

namespace Stage

/-- The name of a stage. -/
def name : Stage → Text
  | .comments => Text.ascii "comments"
  | .macros => Text.ascii "macros"
  | .blocks => Text.ascii "blocks"
  | .substitutions => Text.ascii "substitutions"
  | .back => Text.ascii "back"

/-- What a stage remembers from scope to scope. -/
@[reducible] def Memory : Stage → Type
  | .macros => Macro.Table
  | .blocks => Block.Memory
  | _ => Unit

/-- The memory of a stage at the start of a run. -/
def start (settings : Settings) : (stage : Stage) → stage.Memory
  | .comments => ()
  | .macros => { limit := settings.limit, ids := settings.callIds }
  | .blocks =>
    { ids := settings.blockIds, shared := if settings.shareBlocks then some [] else none }
  | .substitutions => ()
  | .back => ()

/-- Takes a scope from the stage before. -/
def accept : (stage : Stage) → stage.Memory → Scope → Reaction stage.Memory
  | .comments, m, s => .pass m (s.withContent (Comment.strip s.content))
  | .macros, t, s => t.accept s
  | .blocks, m, s => Block.accept m s
  | .substitutions, m, s => .pass m (s.withContent (Substitution.apply s))
  | .back, m, s => .pass m (s.withContent (Continuation.join s.content))

/-- The next step of a stage once the stage before has ended. -/
def advance? : (stage : Stage) → stage.Memory → Option (Reaction stage.Memory)
  | .macros, t => t.advance?
  | _, _ => none

/-- A bound on the steps left to a stage once the stage before has ended. -/
def backlog : (stage : Stage) → stage.Memory → Nat
  | .macros, t => t.load
  | _, _ => 0

theorem backlog_advance {stage : Stage} {m : stage.Memory} {r : Reaction stage.Memory}
    (h : stage.advance? m = some r) (hfault : r.fault = none) :
    stage.backlog r.memory < stage.backlog m := by
  cases stage with
  | macros => exact Macro.Table.load_advance h hfault
  | _ => cases h

end Stage

end Packwright
