import Packwright.Pipeline.Stage

/-! # Running a pipeline

Stages are run one behind the other. Each scope that a source hands out is followed through all
stages to the receiver at the end before the next one is asked for, so nothing is done that the
receiver does not need. The memory of the stages outlives a run: after a stop or a fault it shows
exactly the work done until then.
-/

namespace Packwright.Pipeline

/-- The memories of the stages of a pipeline. -/
@[reducible] def Memory : List Stage → Type
  | [] => Unit
  | stage :: rest => stage.Memory × Memory rest

/-- The memories at the start of a run. -/
def start (settings : Settings) : (stages : List Stage) → Memory stages
  | [] => ()
  | stage :: rest => (stage.start settings, start settings rest)

variable {κ : Type}

/-- Passes an event through the stages to a receiver. Notes go past the stages unchanged. -/
def deliver (receive : Receiver κ) : (stages : List Stage) → Receiver (Memory stages × κ)
  | [], (m, k), event =>
    match receive k event with
    | (k, verdict) => ((m, k), verdict)
  | _ :: rest, ((m, ms), k), .note n =>
    match deliver receive rest (ms, k) (.note n) with
    | ((ms, k), verdict) => (((m, ms), k), verdict)
  | stage :: rest, ((m, ms), k), .scope s =>
    let r := stage.accept m s
    match takeEach (deliver receive rest) (ms, k) r.events with
    | ((ms, k), verdict) => (((r.memory, ms), k), verdict.orFault r.fault)

/-- Lets a stage whose source has ended hand on what it still holds. -/
def settle {σ : Type} (receive : Receiver σ) (stage : Stage) (m : stage.Memory) (state : σ) :
    (stage.Memory × σ) × Verdict :=
  match h : stage.advance? m with
  | none => ((m, state), .more)
  | some r =>
    match takeEach receive state r.events with
    | (state, .more) =>
      match hfault : r.fault with
      | some fault => ((r.memory, state), .fail fault)
      | none =>
        have : stage.backlog r.memory < stage.backlog m := Stage.backlog_advance h hfault
        settle receive stage r.memory state
    | (state, verdict) => ((r.memory, state), verdict)
termination_by stage.backlog m

/-- Lets all stages hand on what they still hold, the first one first. -/
def finish (receive : Receiver κ) : (stages : List Stage) → Memory stages × κ →
    (Memory stages × κ) × Verdict
  | [], state => (state, .more)
  | stage :: rest, ((m, ms), k) =>
    match settle (deliver receive rest) stage m (ms, k) with
    | ((m, ms, k), .more) =>
      match finish receive rest (ms, k) with
      | ((ms, k), verdict) => (((m, ms), k), verdict)
    | ((m, ms, k), verdict) => (((m, ms), k), verdict)

/-- How a run over a source ended: the final state, the number of scopes the source handed out, and
the verdict. -/
structure Outcome (σ : Type) where
  state : σ
  pulled : Nat
  verdict : Verdict

/-- Hands out the scopes of a source, up to a fault in it, as long as more is wanted. -/
def pull {σ : Type} (receive : Receiver σ) (state : σ) : List (Except Fault Scope) → Outcome σ
  | [] => ⟨state, 0, .more⟩
  | .error fault :: _ => ⟨state, 0, .fail fault⟩
  | .ok s :: rest =>
    match receive state (.scope s) with
    | (state, .more) =>
      let o := pull receive state rest
      { o with pulled := o.pulled + 1 }
    | (state, verdict) => ⟨state, 1, verdict⟩

/-- Runs the stages over a source into a receiver. -/
def run (receive : Receiver κ) (stages : List Stage) (state : Memory stages × κ)
    (source : List (Except Fault Scope)) : Outcome (Memory stages × κ) :=
  match pull (deliver receive stages) state source with
  | ⟨state, pulled, .more⟩ =>
    match finish receive stages state with
    | (state, verdict) => ⟨state, pulled, verdict⟩
  | halted => halted

end Packwright.Pipeline
