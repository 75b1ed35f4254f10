import Packwright.Compiler

/-! # Flows

A run hands each event to its receiver as soon as it is made, and the receiver may stop the run at
any of them. What a stage hands on does not depend on that: it is a fixed list of events, a flow,
and stages behind one another turn one flow into the next. The main statement, `run_agrees`, says
that a run gives its receiver the events of such a flow, one after the other, until it stops.
-/

namespace Packwright

/-- All that a stream hands on if nobody stops it: its events, and the fault that ends them. -/
structure Flow where
  events : List Event
  fault : Option Fault := none

namespace Flow

variable {κ : Type}

/-- Puts events before those of a flow. -/
def preceded (es : List Event) (f : Flow) : Flow := { f with events := es ++ f.events }

/-- Hands a flow to a receiver, as long as it wants more. -/
def feed (receive : Receiver κ) (k : κ) (f : Flow) : κ × Verdict :=
  ((takeEach receive k f.events).1, (takeEach receive k f.events).2.orFault f.fault)

/-- The scopes of a flow, in order. -/
def scopes (f : Flow) : List Scope :=
  f.events.filterMap fun
    | .scope s => some s
    | .note _ => none

/-- The flow of a source: its scopes up to the first fault. -/
def ofSource : List (Except Fault Scope) → Flow
  | [] => ⟨[], none⟩
  | .error fault :: _ => ⟨[], some fault⟩
  | .ok s :: rest => (ofSource rest).preceded [.scope s]

/-- A source without faults. -/
def ofScopes (ss : List Scope) : Flow := ⟨ss.map .scope, none⟩

theorem ofSource_map_ok (ss : List Scope) : ofSource (ss.map .ok) = ofScopes ss := by
  induction ss with
  | nil => rfl
  | cons s rest ih =>
      rw [List.map_cons, ofSource, ih]
      rfl

@[simp] theorem scopes_ofScopes (ss : List Scope) : (ofScopes ss).scopes = ss := by
  induction ss with
  | nil => rfl
  | cons s rest ih => exact congrArg (s :: ·) ih

theorem scopes_notes (notes : List Note) (fault : Option Fault) :
    scopes ⟨notes.map .note, fault⟩ = [] := by
  induction notes with
  | nil => rfl
  | cons n rest ih => exact ih

theorem scopes_notes_append (notes : List Note) (ss : List Scope) (fault : Option Fault) :
    scopes ⟨notes.map .note ++ ss.map .scope, fault⟩ = ss := by
  induction notes with
  | nil => exact scopes_ofScopes ss
  | cons n rest ih => exact ih

@[simp] theorem scopes_preceded (es : List Event) (f : Flow) :
    (f.preceded es).scopes = scopes ⟨es, none⟩ ++ f.scopes := by
  simp [scopes, preceded]

end Flow

theorem takeEach_singleton {σ α : Type} (step : σ → α → σ × Verdict) (state : σ) (a : α) :
    takeEach step state [a] = step state a := by
  rw [takeEach]
  rcases step state a with ⟨state', verdict⟩
  cases verdict <;> rfl

/-- What comes after a halted list is not looked at. -/
theorem takeEach_append {σ α : Type} (step : σ → α → σ × Verdict) (state : σ) (as bs : List α) :
    takeEach step state (as ++ bs) =
      match takeEach step state as with
      | (state, .more) => takeEach step state bs
      | halted => halted := by
  induction as generalizing state with
  | nil => rfl
  | cons a rest ih =>
      rw [List.cons_append, takeEach, takeEach]
      rcases step state a with ⟨state', verdict⟩
      cases verdict with
      | more => exact ih state'
      | stop => rfl
      | fail fault => rfl

/-- A list that halts a receiver halts it whatever follows. -/
theorem takeEach_append_of_halted {σ α : Type} {step : σ → α → σ × Verdict} {state state' : σ}
    {as : List α} {verdict : Verdict} (h : takeEach step state as = (state', verdict))
    (hhalt : verdict ≠ .more) (bs : List α) :
    takeEach step state (as ++ bs) = (state', verdict) := by
  rw [takeEach_append, h]
  cases verdict with
  | more => exact absurd rfl hhalt
  | stop => rfl
  | fail fault => rfl

theorem Verdict.orFault_of_halted {verdict : Verdict} (hhalt : verdict ≠ .more)
    (fault : Option Fault) : verdict.orFault fault = verdict := by
  cases verdict with
  | more => exact absurd rfl hhalt
  | stop => rfl
  | fail fault => rfl

theorem Verdict.of_orFault_eq_fail {verdict : Verdict} {fault : Option Fault} {f : Fault}
    (h : verdict.orFault fault = .fail f) : verdict = .fail f ∨ fault = some f := by
  cases verdict with
  | more =>
      cases fault with
      | none => cases h
      | some fault => exact .inr (congrArg some (Verdict.fail.inj h))
  | stop => cases h
  | fail fault' => exact .inl h

@[simp] theorem Verdict.orFault_none (verdict : Verdict) : verdict.orFault none = verdict := by
  cases verdict <;> rfl

namespace Stage

/-- What a stage still hands on once no more scopes come in, and what it remembers then. -/
def drain (stage : Stage) (m : stage.Memory) : stage.Memory × Flow :=
  match h : stage.advance? m with
  | none => (m, ⟨[], none⟩)
  | some r =>
    match hfault : r.fault with
    | some fault => (r.memory, ⟨r.events, some fault⟩)
    | none =>
      have : stage.backlog r.memory < stage.backlog m := backlog_advance h hfault
      match stage.drain r.memory with
      | (m, f) => (m, f.preceded r.events)
termination_by stage.backlog m

section

variable {stage : Stage} {m : stage.Memory} {r : Reaction stage.Memory}

theorem drain_of_none (h : stage.advance? m = none) : stage.drain m = (m, ⟨[], none⟩) := by
  unfold drain
  split
  next => rfl
  next h' => rw [h] at h'; cases h'

theorem drain_of_fault {fault : Fault} (h : stage.advance? m = some r)
    (hfault : r.fault = some fault) : stage.drain m = (r.memory, ⟨r.events, some fault⟩) := by
  unfold drain
  split
  next h' => rw [h] at h'; cases h'
  next r' h' =>
    obtain rfl : r = r' := Option.some.inj (h.symm.trans h')
    split
    next fault' hfault' => rw [Option.some.inj (hfault.symm.trans hfault')]
    next hfault' => rw [hfault] at hfault'; cases hfault'

theorem drain_of_step (h : stage.advance? m = some r) (hfault : r.fault = none) :
    stage.drain m = ((stage.drain r.memory).1, (stage.drain r.memory).2.preceded r.events) := by
  rw [drain.eq_def stage m]
  split
  next h' => rw [h] at h'; cases h'
  next r' h' =>
    obtain rfl : r = r' := Option.some.inj (h.symm.trans h')
    split
    next fault' hfault' => rw [hfault] at hfault'; cases hfault'
    next => rfl

/-- Whatever follows, a stage that can go on hands on the events of its next step first. -/
theorem drain_events (h : stage.advance? m = some r) :
    ∃ m' f, stage.drain m = (m', Flow.preceded r.events f) := by
  cases hfault : r.fault with
  | some fault =>
      refine ⟨r.memory, ⟨[], some fault⟩, ?_⟩
      simp [drain_of_fault h hfault, Flow.preceded]
  | none => exact ⟨_, _, drain_of_step h hfault⟩

end

/-- The flow a stage makes of the flow that comes in, and what it remembers at the end. -/
def transform (stage : Stage) (m : stage.Memory) (fault : Option Fault) :
    List Event → stage.Memory × Flow
  | [] =>
    match fault with
    | some fault => (m, ⟨[], some fault⟩)
    | none => stage.drain m
  | .note n :: es =>
    match stage.transform m fault es with
    | (m, f) => (m, f.preceded [.note n])
  | .scope s :: es =>
    let r := stage.accept m s
    match r.fault with
    | some fault => (r.memory, ⟨r.events, some fault⟩)
    | none =>
      match stage.transform r.memory fault es with
      | (m, f) => (m, f.preceded r.events)

section

variable {stage : Stage} {m : stage.Memory} {s : Scope}

theorem transform_scope_of_fault {fault' : Fault} (h : (stage.accept m s).fault = some fault')
    (fault : Option Fault) (es : List Event) :
    stage.transform m fault (.scope s :: es) =
      ((stage.accept m s).memory, ⟨(stage.accept m s).events, some fault'⟩) := by
  simp only [transform, h]

theorem transform_scope_of_none (h : (stage.accept m s).fault = none) (fault : Option Fault)
    (es : List Event) :
    stage.transform m fault (.scope s :: es) =
      ((stage.transform (stage.accept m s).memory fault es).1,
        (stage.transform (stage.accept m s).memory fault es).2.preceded
          (stage.accept m s).events) := by
  simp only [transform, h]

/-- A stage that answers each scope with one scope and has no work of its own changes scopes one by
one. -/
theorem transform_pass {change : Scope → Scope}
    (haccept : ∀ m s, stage.accept m s = .pass m (change s))
    (hadvance : ∀ m, stage.advance? m = none) (m : stage.Memory) (fault : Option Fault)
    (es : List Event) :
    (stage.transform m fault es).2.scopes = (Flow.mk es none).scopes.map change ∧
      (stage.transform m fault es).2.fault = fault := by
  induction es with
  | nil =>
      cases fault with
      | some fault => exact ⟨rfl, rfl⟩
      | none =>
          rw [transform, drain_of_none (hadvance m)]
          exact ⟨rfl, rfl⟩
  | cons event es ih =>
      cases event with
      | note n => exact ih
      | scope s =>
          have hfault : (stage.accept m s).fault = none := by rw [haccept]; rfl
          rw [transform_scope_of_none hfault, haccept]
          exact ⟨congrArg (change s :: ·) ih.1, ih.2⟩

/-- What a stage makes of a flow depends on the scopes in it, not on the notes between them. -/
theorem transform_scopes (stage : Stage) (m : stage.Memory) (fault : Option Fault)
    (es : List Event) :
    let whole := stage.transform m fault es
    let bare := stage.transform m fault ((Flow.mk es none).scopes.map .scope)
    whole.2.scopes = bare.2.scopes ∧ whole.2.fault = bare.2.fault := by
  induction es generalizing m with
  | nil => exact ⟨rfl, rfl⟩
  | cons event es ih =>
      cases event with
      | note n => exact ih m
      | scope s =>
          have hscopes : (Flow.mk (.scope s :: es) none).scopes.map Event.scope =
              .scope s :: (Flow.mk es none).scopes.map .scope := rfl
          rw [hscopes]
          cases hfault : (stage.accept m s).fault with
          | some fault' =>
              rw [transform_scope_of_fault hfault, transform_scope_of_fault hfault]
              exact ⟨rfl, rfl⟩
          | none =>
              obtain ⟨hrest, hend⟩ := ih (stage.accept m s).memory
              rw [transform_scope_of_none hfault, transform_scope_of_none hfault]
              refine ⟨?_, hend⟩
              rw [Flow.scopes_preceded, Flow.scopes_preceded, hrest]

end

/-- The stages other than those for macros and blocks change the contents of scopes one by one. -/
theorem exists_change (stage : Stage) (hmacros : stage ≠ .macros) (hblocks : stage ≠ .blocks) :
    ∃ change : Scope → Scope, (∀ s, (change s).ns = s.ns ∧ (change s).name = s.name) ∧
      ∀ m fault es, (stage.transform m fault es).2.scopes = (Flow.mk es none).scopes.map change ∧
        (stage.transform m fault es).2.fault = fault := by
  cases stage with
  | macros => exact absurd rfl hmacros
  | blocks => exact absurd rfl hblocks
  | comments =>
      exact ⟨fun s => s.withContent (Comment.strip s.content), fun _ => ⟨rfl, rfl⟩,
        transform_pass (fun _ _ => rfl) fun _ => rfl⟩
  | substitutions =>
      exact ⟨fun s => s.withContent (Substitution.apply s), fun _ => ⟨rfl, rfl⟩,
        transform_pass (fun _ _ => rfl) fun _ => rfl⟩
  | back =>
      exact ⟨fun s => s.withContent (Continuation.join s.content), fun _ => ⟨rfl, rfl⟩,
        transform_pass (fun _ _ => rfl) fun _ => rfl⟩

end Stage

namespace Pipeline

/-- The flow that a pipeline makes of the flow of its source, and the memories at the end. -/
def flow : (stages : List Stage) → Memory stages → Flow → Memory stages × Flow
  | [], m, f => (m, f)
  | stage :: rest, (m, ms), f =>
    match stage.transform m f.fault f.events with
    | (m, f) =>
      match flow rest ms f with
      | (ms, f) => ((m, ms), f)

/-- Flows with the same scopes are made into flows with the same scopes. -/
theorem flow_congr (stages : List Stage) (m : Memory stages) {f g : Flow}
    (hscopes : f.scopes = g.scopes) (hfault : f.fault = g.fault) :
    (flow stages m f).2.scopes = (flow stages m g).2.scopes ∧
      (flow stages m f).2.fault = (flow stages m g).2.fault := by
  induction stages generalizing f g with
  | nil => exact ⟨hscopes, hfault⟩
  | cons stage rest ih =>
      obtain ⟨m, ms⟩ := m
      have hf := stage.transform_scopes m f.fault f.events
      have hg := stage.transform_scopes m g.fault g.events
      have hbare : (Flow.mk f.events none).scopes = (Flow.mk g.events none).scopes := hscopes
      rw [hbare, hfault] at hf
      refine ih ms ?_ ?_
      · rw [hfault]
        exact hf.1.trans hg.1.symm
      · rw [hfault]
        exact hf.2.trans hg.2.symm

/-- The flow that the compiler makes, stage by stage. -/
theorem flow_standard (m : Memory Stage.standard) (f : Flow) :
    let f₁ := (Stage.comments.transform m.1 f.fault f.events).2
    let f₂ := (Stage.macros.transform m.2.1 f₁.fault f₁.events).2
    let f₃ := (Stage.blocks.transform m.2.2.1 f₂.fault f₂.events).2
    let f₄ := (Stage.substitutions.transform m.2.2.2.1 f₃.fault f₃.events).2
    (flow Stage.standard m f).2 = (Stage.back.transform m.2.2.2.2.1 f₄.fault f₄.events).2 :=
  rfl

variable {κ σ μ : Type}

/-- A result of taking events agrees with a flow: the receiver was handed the flow until it stopped,
and unless something halted, the memory is the one at the end of the flow. -/
structure Agrees (receive : Receiver σ) (state : σ) (result : (μ × σ) × Verdict)
    (whole : μ × Flow) : Prop where
  fed : (result.1.2, result.2) = whole.2.feed receive state
  memory : result.2 = .more → result.1.1 = whole.1

/-- Events that the receiver took whole may be put before a flow. -/
theorem Agrees.preceded {receive : Receiver σ} {state state' : σ} {es : List Event}
    {result : (μ × σ) × Verdict} {m : μ} {f : Flow}
    (htake : takeEach receive state es = (state', .more))
    (h : Agrees receive state' result (m, f)) : Agrees receive state result (m, f.preceded es) := by
  refine ⟨?_, h.memory⟩
  rw [h.fed]
  simp [Flow.feed, Flow.preceded, takeEach_append, htake]

/-- Where the receiver halts, it does not matter what was to follow. -/
theorem Agrees.of_halted {receive : Receiver σ} {state state' : σ} {es : List Event}
    {verdict : Verdict} (htake : takeEach receive state es = (state', verdict))
    (hhalt : verdict ≠ .more) (m m' : μ) (f : Flow) :
    Agrees receive state ((m, state'), verdict) (m', f.preceded es) := by
  refine ⟨?_, fun h => absurd h hhalt⟩
  simp [Flow.feed, Flow.preceded, takeEach_append_of_halted htake hhalt,
    Verdict.orFault_of_halted hhalt]

/-- A receiver that puts one stage before another receiver. -/
def before (receive : Receiver σ) (stage : Stage) : Receiver (stage.Memory × σ)
  | (m, state), .note n => ((m, (receive state (.note n)).1), (receive state (.note n)).2)
  | (m, state), .scope s =>
    let r := stage.accept m s
    ((r.memory, (takeEach receive state r.events).1),
      (takeEach receive state r.events).2.orFault r.fault)

/-- Hands a flow to one stage before a receiver, and lets the stage settle at the end. -/
def stageRun (receive : Receiver σ) (stage : Stage) (state : stage.Memory × σ) (f : Flow) :
    (stage.Memory × σ) × Verdict :=
  match takeEach (before receive stage) state f.events with
  | (state, .more) =>
    match f.fault with
    | some fault => (state, .fail fault)
    | none => settle receive stage state.1 state.2
  | halted => halted

theorem stageRun_cons (receive : Receiver σ) (stage : Stage) (state : stage.Memory × σ)
    (event : Event) (es : List Event) (fault : Option Fault) :
    stageRun receive stage state ⟨event :: es, fault⟩ =
      match before receive stage state event with
      | (state, .more) => stageRun receive stage state ⟨es, fault⟩
      | halted => halted := by
  unfold stageRun
  rw [takeEach]
  rcases before receive stage state event with ⟨state', verdict⟩
  cases verdict <;> rfl

theorem settle_agrees (receive : Receiver σ) (stage : Stage) (m : stage.Memory) (state : σ) :
    Agrees receive state (settle receive stage m state) (stage.drain m) := by
  fun_induction settle receive stage m state with
  | case1 m state hnone =>
      rw [Stage.drain_of_none hnone]
      exact ⟨rfl, fun _ => rfl⟩
  | case2 m state r hsome state' htake fault hfault =>
      rw [Stage.drain_of_fault hsome hfault]
      exact ⟨by simp [Flow.feed, htake, Verdict.orFault], fun h => by cases h⟩
  | case3 m state r hsome state' htake hfault _ ih =>
      rw [Stage.drain_of_step hsome hfault]
      exact ih.preceded htake
  | case4 m state r hsome state' verdict hhalt htake =>
      obtain ⟨m', f, hdrain⟩ := Stage.drain_events hsome
      rw [hdrain]
      exact .of_halted htake (fun h => hhalt h) _ _ _

theorem stageRun_agrees (receive : Receiver σ) (stage : Stage) (m : stage.Memory) (state : σ)
    (f : Flow) :
    Agrees receive state (stageRun receive stage (m, state) f)
      (stage.transform m f.fault f.events) := by
  obtain ⟨events, fault⟩ := f
  induction events generalizing m state with
  | nil =>
      cases fault with
      | some fault => exact ⟨rfl, fun h => by cases h⟩
      | none => exact settle_agrees receive stage m state
  | cons event es ih =>
      rw [stageRun_cons]
      cases event with
      | note n =>
          rcases hreceive : receive state (.note n) with ⟨state', verdict⟩
          have htake : takeEach receive state [.note n] = (state', verdict) := by
            rw [takeEach, hreceive]
            cases verdict <;> rfl
          simp only [before, hreceive, Stage.transform]
          cases verdict with
          | more => exact (ih m state').preceded htake
          | stop => exact .of_halted htake (by simp) _ _ _
          | fail fault => exact .of_halted htake (by simp) _ _ _
      | scope s =>
          rcases htake : takeEach receive state (stage.accept m s).events with ⟨state', verdict⟩
          cases hfault : (stage.accept m s).fault with
          | some fault =>
              rw [Stage.transform_scope_of_fault hfault]
              simp only [before, htake, hfault]
              cases verdict with
              | more =>
                  exact ⟨by simp [Flow.feed, htake, Verdict.orFault], fun h => by cases h⟩
              | stop =>
                  rw [← List.append_nil (stage.accept m s).events]
                  exact .of_halted htake (by simp) _ _ ⟨[], _⟩
              | fail fault =>
                  rw [← List.append_nil (stage.accept m s).events]
                  exact .of_halted htake (by simp) _ _ ⟨[], _⟩
          | none =>
              rw [Stage.transform_scope_of_none hfault]
              simp only [before, htake, hfault]
              cases verdict with
              | more => exact (ih _ state').preceded htake
              | stop => exact .of_halted htake (by simp) _ _ _
              | fail fault => exact .of_halted htake (by simp) _ _ _

/-- Hands a flow to a pipeline before a receiver, and lets the stages settle at the end. -/
def flowRun (receive : Receiver κ) (stages : List Stage) (state : Memory stages × κ) (f : Flow) :
    (Memory stages × κ) × Verdict :=
  match takeEach (deliver receive stages) state f.events with
  | (state, .more) =>
    match f.fault with
    | some fault => (state, .fail fault)
    | none => finish receive stages state
  | halted => halted

/-- A pipeline sees its first stage and the stages behind it as one memory. -/
def regroup {α β : Type} : α × β × κ → (α × β) × κ
  | (a, b, k) => ((a, b), k)

theorem takeEach_deliver_cons (receive : Receiver κ) (stage : Stage) (rest : List Stage)
    (state : stage.Memory × Memory rest × κ) (es : List Event) :
    takeEach (deliver receive (stage :: rest)) (regroup state) es =
      (regroup (takeEach (before (deliver receive rest) stage) state es).1,
        (takeEach (before (deliver receive rest) stage) state es).2) := by
  induction es generalizing state with
  | nil => rfl
  | cons event es ih =>
      have hstep : deliver receive (stage :: rest) (regroup state) event =
          (regroup (before (deliver receive rest) stage state event).1,
            (before (deliver receive rest) stage state event).2) := by
        cases event <;> rfl
      rw [takeEach, takeEach, hstep]
      rcases before (deliver receive rest) stage state event with ⟨state', verdict⟩
      cases verdict with
      | more => exact ih state'
      | stop => rfl
      | fail fault => rfl

/-- A pipeline runs its first stage, and then the others unless something halted. -/
theorem flowRun_cons (receive : Receiver κ) (stage : Stage) (rest : List Stage)
    (state : stage.Memory × Memory rest × κ) (f : Flow) :
    flowRun receive (stage :: rest) (regroup state) f =
      match stageRun (deliver receive rest) stage state f with
      | ((m, state), .more) =>
        (regroup (m, (finish receive rest state).1), (finish receive rest state).2)
      | (state, verdict) => (regroup state, verdict) := by
  unfold flowRun stageRun
  rw [takeEach_deliver_cons]
  rcases takeEach (before (deliver receive rest) stage) state f.events with ⟨⟨m, ms, k⟩, verdict⟩
  cases verdict with
  | stop => rfl
  | fail fault => rfl
  | more =>
      cases f.fault with
      | some fault => rfl
      | none =>
          dsimp only [regroup]
          rw [finish]
          rcases settle (deliver receive rest) stage m (ms, k) with ⟨⟨m', ms', k'⟩, verdict⟩
          cases verdict <;> rfl

theorem takeEach_deliver_nil (receive : Receiver κ) (m : Memory []) (k : κ) (es : List Event) :
    takeEach (deliver receive []) (m, k) es =
      ((m, (takeEach receive k es).1), (takeEach receive k es).2) := by
  induction es generalizing k with
  | nil => rfl
  | cons event es ih =>
      rw [takeEach, takeEach, deliver]
      rcases receive k event with ⟨k', verdict⟩
      cases verdict with
      | more => exact ih k'
      | stop => rfl
      | fail fault => rfl

/-- What the first stage hands to the others is the flow it makes, up to where they halt. -/
theorem flowRun_cons_eq (receive : Receiver κ) (stage : Stage) (rest : List Stage)
    (m : stage.Memory) (ms : Memory rest) (k : κ) (f : Flow) :
    let g := (stage.transform m f.fault f.events).2
    let behind := flowRun receive rest (ms, k) g
    ∃ m', flowRun receive (stage :: rest) ((m, ms), k) f = (regroup (m', behind.1), behind.2) ∧
      (behind.2 = .more → m' = (stage.transform m f.fault f.events).1) := by
  intro g behind
  have hstage := stageRun_agrees (deliver receive rest) stage m (ms, k) f
  have hfed := hstage.fed
  have hmemory := hstage.memory
  rw [show ((m, ms), k) = regroup (m, ms, k) from rfl, flowRun_cons]
  generalize stageRun (deliver receive rest) stage (m, ms, k) f = result at hfed hmemory ⊢
  obtain ⟨⟨m', state⟩, verdict⟩ := result
  -- both runs feed the same events to the stages behind; they differ in who sees the fault
  have hbehind : behind = flowRun receive rest (ms, k) g := rfl
  unfold flowRun at hbehind
  rcases htake : takeEach (deliver receive rest) (ms, k) g.events with ⟨state', verdict'⟩
  simp only [Flow.feed, show (stage.transform m f.fault f.events).2 = g from rfl, htake,
    Prod.mk.injEq] at hfed
  obtain ⟨rfl, rfl⟩ := hfed
  rw [htake] at hbehind
  cases verdict' with
  | more =>
      cases hfault : g.fault with
      | some fault =>
          simp only [hfault] at hbehind ⊢
          exact ⟨m', by rw [hbehind]; rfl, fun h => by rw [hbehind] at h; cases h⟩
      | none =>
          simp only [hfault] at hbehind hmemory ⊢
          exact ⟨m', by rw [hbehind]; rfl, fun _ => hmemory rfl⟩
  | stop => exact ⟨m', by rw [hbehind]; rfl, fun h => by rw [hbehind] at h; cases h⟩
  | fail fault => exact ⟨m', by rw [hbehind]; rfl, fun h => by rw [hbehind] at h; cases h⟩

theorem flowRun_agrees (receive : Receiver κ) (stages : List Stage) (m : Memory stages) (k : κ)
    (f : Flow) :
    Agrees receive k (flowRun receive stages (m, k) f) (flow stages m f) := by
  induction stages generalizing f with
  | nil =>
      unfold flowRun
      rw [takeEach_deliver_nil]
      rcases htake : takeEach receive k f.events with ⟨k', verdict⟩
      cases verdict with
      | more =>
          cases hfault : f.fault with
          | some fault =>
              exact ⟨by simp [flow, Flow.feed, htake, hfault, Verdict.orFault], fun h => by cases h⟩
          | none => exact ⟨by simp [flow, Flow.feed, htake, hfault, finish], fun _ => rfl⟩
      | stop => exact ⟨by simp [flow, Flow.feed, htake, Verdict.orFault], fun h => by cases h⟩
      | fail fault => exact ⟨by simp [flow, Flow.feed, htake, Verdict.orFault], fun h => by cases h⟩
  | cons stage rest ih =>
      obtain ⟨m, ms⟩ := m
      obtain ⟨m', hrun, hm'⟩ := flowRun_cons_eq receive stage rest m ms k f
      have hrest := ih ms (stage.transform m f.fault f.events).2
      rw [hrun]
      refine ⟨hrest.fed, fun hmore => ?_⟩
      exact Prod.ext (hm' hmore) (hrest.memory hmore)

theorem pull_eq (receive : Receiver σ) (state : σ) (source : List (Except Fault Scope)) :
    ((pull receive state source).state, (pull receive state source).verdict) =
      (Flow.ofSource source).feed receive state := by
  induction source generalizing state with
  | nil => rfl
  | cons item rest ih =>
      cases item with
      | error fault => rfl
      | ok s =>
          rw [pull, Flow.ofSource, Flow.feed, Flow.preceded, List.singleton_append, takeEach]
          rcases receive state (.scope s) with ⟨state', verdict⟩
          cases verdict with
          | more => exact ih state'
          | stop => rfl
          | fail fault => rfl

theorem run_eq_flowRun (receive : Receiver κ) (stages : List Stage) (state : Memory stages × κ)
    (source : List (Except Fault Scope)) :
    ((run receive stages state source).state, (run receive stages state source).verdict) =
      flowRun receive stages state (Flow.ofSource source) := by
  have hpull := pull_eq (deliver receive stages) state source
  unfold run flowRun
  generalize pull (deliver receive stages) state source = outcome at hpull ⊢
  obtain ⟨state', pulled, verdict⟩ := outcome
  rcases htake : takeEach (deliver receive stages) state (Flow.ofSource source).events with ⟨_, v⟩
  simp only [Flow.feed, htake, Prod.mk.injEq] at hpull
  obtain ⟨rfl, rfl⟩ := hpull
  cases v with
  | more => cases (Flow.ofSource source).fault <;> rfl
  | stop => rfl
  | fail fault => rfl

/-- A run over a source hands its receiver the flow that the stages make of the source. Unless
something halted, the stages remember what they remember at the end of that flow. -/
theorem run_agrees (receive : Receiver κ) (stages : List Stage) (m : Memory stages) (k : κ)
    (source : List (Except Fault Scope)) :
    Agrees receive k
      ((run receive stages (m, k) source).state, (run receive stages (m, k) source).verdict)
      (flow stages m (Flow.ofSource source)) := by
  rw [run_eq_flowRun]
  exact flowRun_agrees receive stages m k _

/-- What is collected from events starts with what was there, and is completed by the scopes among
them unless the number wanted is reached before. -/
theorem takeEach_collected (c : Collected) (es : List Event) :
    (takeEach Collected.receive c es).1.scopes <+: c.scopes ++ (Flow.mk es none).scopes ∧
      (c.wanted = none → (takeEach Collected.receive c es).2 = .more ∧
        (takeEach Collected.receive c es).1.scopes = c.scopes ++ (Flow.mk es none).scopes) := by
  induction es generalizing c with
  | nil => simp [takeEach, Flow.scopes]
  | cons event es ih =>
      cases event with
      | note n => exact ih { c with log := c.log ++ [n] }
      | scope s =>
          have hrest := ih { c with scopes := c.scopes ++ [s] }
          have hscopes : (Flow.mk (.scope s :: es) none).scopes = s :: (Flow.mk es none).scopes :=
            rfl
          simp only [List.append_assoc, List.singleton_append, ← hscopes] at hrest
          rw [takeEach, Collected.receive]
          by_cases hwanted : c.wanted = some (c.scopes ++ [s]).length
          · simp only [hwanted, if_true]
            exact ⟨by simp [hscopes], by simp⟩
          · simp only [hwanted, if_false]
            exact hrest

/-- What is collected from events without a stop are all scopes among them. -/
theorem takeEach_collected_of_ne_stop {c : Collected} {es : List Event}
    (h : (takeEach Collected.receive c es).2 ≠ .stop) :
    (takeEach Collected.receive c es).2 = .more ∧
      (takeEach Collected.receive c es).1.scopes = c.scopes ++ (Flow.mk es none).scopes := by
  induction es generalizing c with
  | nil => exact ⟨rfl, (List.append_nil _).symm⟩
  | cons event es ih =>
      cases event with
      | note n => exact ih (c := { c with log := c.log ++ [n] }) h
      | scope s =>
          rw [takeEach, Collected.receive] at h ⊢
          by_cases hwanted : c.wanted = some (c.scopes ++ [s]).length
          · simp only [hwanted, if_true] at h
            exact absurd rfl h
          · simp only [hwanted, if_false] at h ⊢
            obtain ⟨hmore, hscopes⟩ := ih h
            exact ⟨hmore, hscopes.trans (List.append_assoc _ _ _)⟩

end Pipeline

/-- A run of one stage alone, from its start, over scopes. -/
def Stage.run (stage : Stage) (settings : Settings) (sources : List Scope) :
    Pipeline.Outcome (Pipeline.Memory [stage] × Collected) :=
  Pipeline.run Collected.receive [stage] (Pipeline.start settings [stage], {}) (sources.map .ok)

/-- A stage alone hands on the flow that it makes of the scopes. -/
theorem Stage.run_eq (stage : Stage) (settings : Settings) (sources : List Scope) :
    let o := stage.run settings sources
    let whole := stage.transform (stage.start settings) none (sources.map .scope)
    o.state.2.scopes = whole.2.scopes ∧ o.verdict = Verdict.more.orFault whole.2.fault ∧
      (o.verdict = .more → o.state.1.1 = whole.1) := by
  intro o whole
  have hagrees := Pipeline.run_agrees Collected.receive [stage] (Pipeline.start settings [stage]) {}
    (sources.map .ok)
  rw [Flow.ofSource_map_ok] at hagrees
  obtain ⟨hmore, hscopes⟩ := (Pipeline.takeEach_collected {} whole.2.events).2 rfl
  have hflow : Pipeline.flow [stage] (Pipeline.start settings [stage]) (Flow.ofScopes sources) =
      ((whole.1, ()), whole.2) := rfl
  have hfed := hagrees.fed
  rw [hflow, Flow.feed, hmore, Prod.mk.injEq] at hfed
  refine ⟨?_, hfed.2, fun h => ?_⟩
  · exact (congrArg Collected.scopes hfed.1).trans hscopes
  · have := hagrees.memory h
    rw [hflow] at this
    exact congrArg Prod.fst this

end Packwright
