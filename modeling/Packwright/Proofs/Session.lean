import Mathlib.Logic.Relation
import Packwright.Proofs.Flow

/-! # What a stage remembers from run to run

A stage is driven by two kinds of calls: it takes a scope, or it goes on by itself once no more
scopes come in. So whatever a source and a receiver do, and wherever runs end, the memory of a stage
is one that such calls lead to (`later_uses`). A receiver that always wants more leaves the memory
that the whole flow leaves, also where a fault ends it (`run_of_more`).
-/

namespace Packwright

open Relation (ReflTransGen)

namespace Stage

/-- What one call into a stage makes of its memory. -/
inductive Next (stage : Stage) : stage.Memory → stage.Memory → Prop
  | take (m : stage.Memory) (s : Scope) : Next stage m (stage.accept m s).memory
  | advance {m : stage.Memory} {r : Reaction stage.Memory} (h : stage.advance? m = some r) :
      Next stage m r.memory

/-- What a stage remembers later: any number of calls into it lead from one memory to the other. -/
def Later (stage : Stage) : stage.Memory → stage.Memory → Prop := ReflTransGen stage.Next

/-- What every call into a stage keeps is kept for good. -/
theorem Later.invariant {stage : Stage} {m m' : stage.Memory} {holds : stage.Memory → Prop}
    (hlater : stage.Later m m')
    (htake : ∀ (m : stage.Memory) (s : Scope), holds m → holds (stage.accept m s).memory)
    (hadvance : ∀ {m : stage.Memory} {r : Reaction stage.Memory}, stage.advance? m = some r →
      holds m → holds r.memory)
    (h : holds m) : holds m' := by
  induction hlater with
  | refl => exact h
  | tail _ hnext ih =>
      cases hnext with
      | take s => exact htake _ s ih
      | advance hstep => exact hadvance hstep ih

end Stage

namespace Pipeline

variable {κ σ : Type} {stage : Stage}

theorem settle_later (receive : Receiver σ) (stage : Stage) (m : stage.Memory) (state : σ) :
    stage.Later m (settle receive stage m state).1.1 := by
  fun_induction settle receive stage m state with
  | case1 => exact .refl
  | case2 m state r hsome => exact .single (.advance hsome)
  | case3 m state r hsome state' htake hfault _ ih => exact .head (.advance hsome) ih
  | case4 m state r hsome => exact .single (.advance hsome)

/-- A run of one stage leaves the memory that its first and only stage leaves. -/
theorem run_single (receive : Receiver κ) (m : stage.Memory) (k : κ)
    (source : List (Except Fault Scope)) :
    (run receive [stage] ((m, ()), k) source).state.1.1 =
      (stageRun (deliver receive []) stage (m, (), k) (Flow.ofSource source)).1.1 := by
  have hrun := run_eq_flowRun receive [stage] ((m, ()), k) source
  rw [show ((m, ()), k) = regroup (m, (), k) from rfl, flowRun_cons] at hrun
  rw [show ((m, ()), k) = regroup (m, (), k) from rfl, (Prod.mk.inj hrun).1]
  generalize stageRun (deliver receive []) stage (m, (), k) (Flow.ofSource source) = result
  obtain ⟨⟨m', state⟩, verdict⟩ := result
  cases verdict <;> rfl

theorem stageRun_later (receive : Receiver σ) (stage : Stage) (m : stage.Memory) (state : σ)
    (f : Flow) : stage.Later m (stageRun receive stage (m, state) f).1.1 := by
  obtain ⟨events, fault⟩ := f
  induction events generalizing m state with
  | nil =>
      cases fault with
      | some fault => exact .refl
      | none => exact settle_later receive stage m state
  | cons event es ih =>
      rw [stageRun_cons]
      have hevent : stage.Later m (before receive stage (m, state) event).1.1 := by
        cases event with
        | note n => exact .refl
        | scope s => exact .single (.take m s)
      generalize before receive stage (m, state) event = result at hevent ⊢
      obtain ⟨⟨m', state'⟩, verdict⟩ := result
      cases verdict with
      | more => exact ReflTransGen.trans hevent (ih m' state')
      | stop => exact hevent
      | fail fault => exact hevent

theorem run_later (receive : Receiver κ) (m : stage.Memory) (k : κ)
    (source : List (Except Fault Scope)) :
    stage.Later m (run receive [stage] ((m, ()), k) source).state.1.1 := by
  rw [run_single receive m k source]
  exact stageRun_later _ stage m _ _

/-! ## What every call into a stage keeps -/

section Invariant

variable (stage) (holds : stage.Memory → Prop)

theorem settle_invariant (receive : Receiver σ) (state : σ) {m : stage.Memory}
    (hadvance : ∀ {m : stage.Memory} {r : Reaction stage.Memory}, stage.advance? m = some r →
      holds m → holds r.memory)
    (h : holds m) : holds (settle receive stage m state).1.1 := by
  fun_induction settle receive stage m state with
  | case1 => exact h
  | case2 m state r hsome => exact hadvance hsome h
  | case3 m state r hsome state' htake hfault _ ih => exact ih (hadvance hsome h)
  | case4 m state r hsome => exact hadvance hsome h

theorem stageRun_invariant (receive : Receiver σ) (state : σ) (f : Flow) {m : stage.Memory}
    (htake : ∀ (m : stage.Memory), ∀ s ∈ f.scopes, holds m → holds (stage.accept m s).memory)
    (hadvance : ∀ {m : stage.Memory} {r : Reaction stage.Memory}, stage.advance? m = some r →
      holds m → holds r.memory)
    (h : holds m) : holds (stageRun receive stage (m, state) f).1.1 := by
  obtain ⟨events, fault⟩ := f
  induction events generalizing m state with
  | nil =>
      cases fault with
      | some fault => exact h
      | none => exact settle_invariant stage holds receive state hadvance h
  | cons event es ih =>
      rw [stageRun_cons]
      have hrest : ∀ (m : stage.Memory), ∀ s ∈ (Flow.mk es fault).scopes, holds m →
          holds (stage.accept m s).memory := by
        intro m s hs
        apply htake m s
        cases event with
        | note n => exact hs
        | scope s' => exact List.mem_cons_of_mem _ hs
      have hevent : holds (before receive stage (m, state) event).1.1 := by
        cases event with
        | note n => exact h
        | scope s => exact htake m s List.mem_cons_self h
      generalize before receive stage (m, state) event = result at hevent ⊢
      obtain ⟨⟨m', state'⟩, verdict⟩ := result
      cases verdict with
      | more => exact ih state' hevent hrest
      | stop => exact hevent
      | fail fault => exact hevent

/-- What taking a scope of the source keeps, and going on by itself, a run of one stage keeps. -/
theorem run_invariant (receive : Receiver κ) (k : κ) (source : List (Except Fault Scope))
    {m : stage.Memory}
    (htake : ∀ (m : stage.Memory), ∀ s ∈ (Flow.ofSource source).scopes, holds m →
      holds (stage.accept m s).memory)
    (hadvance : ∀ {m : stage.Memory} {r : Reaction stage.Memory}, stage.advance? m = some r →
      holds m → holds r.memory)
    (h : holds m) : holds (run receive [stage] ((m, ()), k) source).state.1.1 := by
  rw [run_single receive m k source]
  exact stageRun_invariant stage holds _ _ _ htake hadvance h

end Invariant

/-! ## Receivers that want everything -/

theorem settle_of_more {receive : Receiver σ} {m : stage.Memory} {state : σ}
    (h : (takeEach receive state (stage.drain m).2.events).2 = .more) :
    (settle receive stage m state).1.1 = (stage.drain m).1 := by
  fun_induction settle receive stage m state with
  | case1 m state hnone => rw [Stage.drain_of_none hnone]
  | case2 m state r hsome state' htake fault hfault => rw [Stage.drain_of_fault hsome hfault]
  | case3 m state r hsome state' htake hfault _ ih =>
      rw [Stage.drain_of_step hsome hfault] at h ⊢
      rw [Flow.preceded, takeEach_append, htake] at h
      exact ih h
  | case4 m state r hsome state' verdict hhalt htake =>
      obtain ⟨m', f, hdrain⟩ := Stage.drain_events hsome
      rw [hdrain, Flow.preceded, takeEach_append_of_halted htake hhalt] at h
      exact absurd h hhalt

theorem stageRun_of_more {receive : Receiver σ} {m : stage.Memory} {state : σ} {f : Flow}
    (h : (takeEach receive state (stage.transform m f.fault f.events).2.events).2 = .more) :
    (stageRun receive stage (m, state) f).1.1 = (stage.transform m f.fault f.events).1 := by
  obtain ⟨events, fault⟩ := f
  induction events generalizing m state with
  | nil =>
      cases fault with
      | some fault => rfl
      | none => exact settle_of_more h
  | cons event es ih =>
      rw [stageRun_cons]
      cases event with
      | note n =>
          rw [before]
          simp only [Stage.transform, Flow.preceded, List.singleton_append, takeEach] at h ⊢
          generalize receive state (.note n) = result at h ⊢
          obtain ⟨state', verdict⟩ := result
          cases verdict with
          | more => exact ih h
          | stop => cases h
          | fail fault => cases h
      | scope s =>
          rw [before]
          cases hfault : (stage.accept m s).fault with
          | some fault' =>
              rw [Stage.transform_scope_of_fault hfault] at h ⊢
              rw [h]
              rfl
          | none =>
              rw [Stage.transform_scope_of_none hfault] at h ⊢
              rw [Flow.preceded, takeEach_append] at h
              generalize takeEach receive state (stage.accept m s).events = result at h ⊢
              obtain ⟨state', verdict⟩ := result
              cases verdict with
              | more => exact ih h
              | stop => cases h
              | fail fault => cases h

/-- The verdict on a run of one stage is that of the receiver on the whole flow, or else the fault
of the flow. -/
theorem run_verdict (receive : Receiver κ) (m : stage.Memory) (k : κ)
    (source : List (Except Fault Scope)) {f : Flow} (hf : Flow.ofSource source = f) :
    let whole := stage.transform m f.fault f.events
    (run receive [stage] ((m, ()), k) source).verdict =
      (takeEach receive k whole.2.events).2.orFault whole.2.fault := by
  subst hf
  exact (Prod.mk.inj (run_agrees receive [stage] (m, ()) k source).fed).2

/-- A receiver that wants all that a stage hands on leaves the stage with what it remembers at the
end of its flow, also where a fault ends it. -/
theorem run_of_more (receive : Receiver κ) (m : stage.Memory) (k : κ)
    (source : List (Except Fault Scope)) {f : Flow} (hf : Flow.ofSource source = f)
    (h : (takeEach receive k (stage.transform m f.fault f.events).2.events).2 = .more) :
    let o := run receive [stage] ((m, ()), k) source
    let whole := stage.transform m f.fault f.events
    o.state.1.1 = whole.1 ∧ o.verdict = Verdict.more.orFault whole.2.fault := by
  intro o whole
  have hdeliver : (takeEach (deliver receive []) ((), k) whole.2.events).2 = .more := by
    rw [takeEach_deliver_nil]
    exact h
  have hverdict : o.verdict = _ := run_verdict receive m k source hf
  refine ⟨?_, ?_⟩
  · rw [show o.state.1.1 = _ from run_single receive m k source, hf]
    exact stageRun_of_more hdeliver
  · rw [hverdict, h]

/-- A receiver that may stop but never fails does not fail on a list of events. -/
theorem takeEach_ne_fail {receive : Receiver κ}
    (hreceive : ∀ k event fault, (receive k event).2 ≠ .fail fault) (k : κ) (es : List Event)
    (fault : Fault) : (takeEach receive k es).2 ≠ .fail fault := by
  induction es generalizing k with
  | nil => exact Verdict.noConfusion
  | cons event es ih =>
      have hevent := hreceive k event fault
      rw [takeEach]
      generalize receive k event = result at hevent ⊢
      obtain ⟨k', verdict⟩ := result
      cases verdict with
      | more => exact ih k'
      | stop => exact Verdict.noConfusion
      | fail fault' => exact hevent

/-- Where a receiver that never fails does not stop a run, it wanted the whole flow. -/
theorem takeEach_of_ne_stop (receive : Receiver κ) (m : stage.Memory) (k : κ)
    (source : List (Except Fault Scope)) {f : Flow} (hf : Flow.ofSource source = f)
    (hreceive : ∀ k event fault, (receive k event).2 ≠ .fail fault)
    (h : (run receive [stage] ((m, ()), k) source).verdict ≠ .stop) :
    (takeEach receive k (stage.transform m f.fault f.events).2.events).2 = .more := by
  rw [run_verdict receive m k source hf] at h
  have hfail := takeEach_ne_fail hreceive k (stage.transform m f.fault f.events).2.events
  generalize (takeEach receive k (stage.transform m f.fault f.events).2.events).2 = verdict
    at h hfail ⊢
  cases verdict with
  | more => rfl
  | stop => exact absurd rfl h
  | fail fault => exact absurd rfl (hfail fault)

end Pipeline

/-- A run of one stage alone leaves the memory at the end of its flow. -/
theorem Stage.run_memory (stage : Stage) (settings : Settings) (sources : List Scope) :
    (stage.run settings sources).state.1.1 =
      (stage.transform (stage.start settings) none (sources.map .scope)).1 := by
  have hall := ((Pipeline.takeEach_collected {} (stage.transform (stage.start settings) none
    (sources.map .scope)).2.events).2 rfl).1
  exact (Pipeline.run_of_more Collected.receive _ {} _ (Flow.ofSource_map_ok sources) hall).1

/-! ## One run after another -/

/-- A run of a stage: where its scopes come from and who receives what it hands on. -/
structure Use where
  State : Type
  receive : Receiver State
  state : State
  source : List (Except Fault Scope)

/-- What a stage remembers after a run. -/
def Stage.use (stage : Stage) (m : stage.Memory) (u : Use) : stage.Memory :=
  (Pipeline.run u.receive [stage] ((m, ()), u.state) u.source).state.1.1

/-- Runs one after another are calls into the stage. -/
theorem Stage.later_uses (stage : Stage) (m : stage.Memory) (uses : List Use) :
    stage.Later m (uses.foldl stage.use m) := by
  induction uses generalizing m with
  | nil => exact .refl
  | cons u rest ih =>
      have huse : stage.Later m (stage.use m u) := Pipeline.run_later u.receive m u.state u.source
      exact ReflTransGen.trans huse (ih (stage.use m u))

end Packwright
