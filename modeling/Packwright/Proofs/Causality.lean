import Packwright.Proofs.Flow

/-! # What was handed on does not depend on what follows

A fault cuts a flow short: what it ends is the beginning of the flow without it. All stages keep
this (`flow_cut`), since a stage answers each scope before it sees the next one. So a receiver that
stops has the first scopes of the whole compilation, a source that fails leaves a beginning of it,
and neither asks for more of the source (`compile_causal`).
-/

namespace Packwright

open Text (ascii)

/-! ## Flows that are cut short -/

/-- A flow is another one, or it ends with a fault of a given kind where the other one may go on. -/
def Flow.Cut (cuts : Fault → Prop) (f g : Flow) : Prop :=
  f = g ∨ (∃ fault, cuts fault ∧ f.fault = some fault) ∧ f.events <+: g.events

namespace Flow.Cut

variable {cuts : Fault → Prop} {f g : Flow}

theorem preceded (h : Cut cuts f g) (es : List Event) :
    Cut cuts (f.preceded es) (g.preceded es) := by
  rcases h with rfl | ⟨hfault, hevents⟩
  · exact .inl rfl
  · exact .inr ⟨hfault, (List.prefix_append_right_inj es).mpr hevents⟩

/-- The scopes of a flow that is cut short are the first ones of the other. -/
theorem scopes (h : Cut cuts f g) : f.scopes <+: g.scopes := by
  rcases h with rfl | ⟨-, hevents⟩
  · exact List.prefix_rfl
  · exact hevents.filterMap _

end Flow.Cut

/-- A stage makes a flow that is cut short of one that is. -/
theorem Stage.transform_cut {cuts : Fault → Prop} {f g : Flow} (h : f.Cut cuts g) (stage : Stage)
    (m : stage.Memory) :
    (stage.transform m f.fault f.events).2.Cut cuts (stage.transform m g.fault g.events).2 := by
  rcases h with rfl | ⟨⟨fault, hcuts, hfault⟩, more, hmore⟩
  · exact .inl rfl
  · rw [hfault, ← hmore]
    generalize f.events = es
    clear hfault hmore
    induction es generalizing m with
    | nil => exact .inr ⟨⟨fault, hcuts, rfl⟩, List.nil_prefix⟩
    | cons event es ih =>
        cases event with
        | note n => exact (ih m).preceded [.note n]
        | scope s =>
            rw [List.cons_append]
            cases haccept : (stage.accept m s).fault with
            | some fault' =>
                rw [transform_scope_of_fault haccept, transform_scope_of_fault haccept]
                exact .inl rfl
            | none =>
                rw [transform_scope_of_none haccept, transform_scope_of_none haccept]
                exact (ih _).preceded _

/-- A pipeline makes a flow that is cut short of one that is. -/
theorem Pipeline.flow_cut {cuts : Fault → Prop} {f g : Flow} (h : f.Cut cuts g)
    (stages : List Stage) (m : Memory stages) :
    (flow stages m f).2.Cut cuts (flow stages m g).2 := by
  induction stages generalizing f g with
  | nil => exact h
  | cons stage rest ih => exact ih (stage.transform_cut h m.1) m.2

/-! ## Compilations -/

namespace Compiler

/-- All that a compilation hands on if nobody stops it. -/
def flow (settings : Settings) (source : List (Except Fault Scope)) : Flow :=
  (Pipeline.flow Stage.standard (Pipeline.start settings Stage.standard) (Flow.ofSource source)).2

/-- A compilation hands its flow to the receiver that collects. -/
theorem compile_eq_feed (settings : Settings) (wanted : Option Nat)
    (source : List (Except Fault Scope)) :
    ((compile settings wanted source).state, (compile settings wanted source).verdict) =
      (flow settings source).feed Collected.receive { wanted } :=
  (Pipeline.run_agrees Collected.receive Stage.standard (Pipeline.start settings Stage.standard)
    { wanted } source).fed

/-- A compilation that is drained hands on all its scopes, and ends as its flow does. -/
theorem compile_drained (settings : Settings) (source : List (Except Fault Scope)) :
    let f := flow settings source
    (compile settings none source).state.scopes = f.scopes ∧
      (compile settings none source).verdict = Verdict.more.orFault f.fault := by
  intro f
  obtain ⟨hstate, hverdict⟩ := Prod.mk.inj (compile_eq_feed settings none source)
  obtain ⟨hmore, hscopes⟩ := (Pipeline.takeEach_collected {} f.events).2 rfl
  rw [hstate, hverdict, hmore]
  exact ⟨hscopes, rfl⟩

end Compiler

/-! ## Receivers that stop -/

theorem Verdict.of_orFault_eq_more {verdict : Verdict} {fault : Option Fault}
    (h : verdict.orFault fault = .more) : verdict = .more ∧ fault = none := by
  cases verdict with
  | more =>
      cases fault with
      | none => exact ⟨rfl, rfl⟩
      | some fault => cases h
  | stop => cases h
  | fail fault => cases h

namespace Pipeline

/-- A receiver that stops after a number of scopes has the first ones of all that come. -/
theorem takeEach_collected_take {c : Collected} {n : Nat} (hwanted : c.wanted = some n)
    (hlength : c.scopes.length < n) (es : List Event) :
    (takeEach Collected.receive c es).1.scopes =
      (c.scopes ++ (Flow.mk es none).scopes).take n := by
  induction es generalizing c with
  | nil =>
      simp only [takeEach, Flow.scopes, List.filterMap_nil, List.append_nil]
      exact (List.take_of_length_le (Nat.le_of_lt hlength)).symm
  | cons event es ih =>
      cases event with
      | note z => exact ih (c := { c with log := c.log ++ [z] }) hwanted hlength
      | scope s =>
          have hscopes : c.scopes ++ (Flow.mk (.scope s :: es) none).scopes =
              c.scopes ++ [s] ++ (Flow.mk es none).scopes := by
            simp [Flow.scopes]
          rw [hscopes, takeEach, Collected.receive]
          by_cases hfull : c.wanted = some (c.scopes ++ [s]).length
          · obtain rfl : n = (c.scopes ++ [s]).length := Option.some.inj (hwanted.symm.trans hfull)
            simp only [hfull, if_true, List.take_left]
          · simp only [hfull, if_false]
            refine ih (c := { c with scopes := c.scopes ++ [s] }) hwanted ?_
            have hne : n ≠ (c.scopes ++ [s]).length := fun h => hfull (h ▸ hwanted)
            simp only [List.length_append, List.length_singleton] at hne ⊢
            omega

section Outlasts

variable {κ σ σ' : Type} {R : σ → σ' → Prop} {receive : Receiver σ} {receive' : Receiver σ'}

/-- A receiver wants more wherever another one does, as long as their states are related. -/
def Outlasts (R : σ → σ' → Prop) (receive : Receiver σ) (receive' : Receiver σ') : Prop :=
  ∀ k k' event, R k k' → (receive k event).2 = .more →
    (receive' k' event).2 = .more ∧ R (receive k event).1 (receive' k' event).1

theorem Outlasts.takeEach (h : Outlasts R receive receive') {k : σ} {k' : σ'} (hR : R k k')
    {es : List Event} (hmore : (takeEach receive k es).2 = .more) :
    (takeEach receive' k' es).2 = .more ∧
      R (takeEach receive k es).1 (takeEach receive' k' es).1 := by
  induction es generalizing k k' with
  | nil => exact ⟨rfl, hR⟩
  | cons event es ih =>
      rw [Packwright.takeEach] at hmore
      rw [Packwright.takeEach, Packwright.takeEach]
      have hevent := h k k' event hR
      generalize receive k event = result at hmore hevent ⊢
      generalize receive' k' event = result' at hevent ⊢
      obtain ⟨k₁, verdict⟩ := result
      obtain ⟨k₁', verdict'⟩ := result'
      cases verdict with
      | more =>
          obtain ⟨rfl, hR₁⟩ := hevent rfl
          exact ih hR₁ hmore
      | stop => cases hmore
      | fail fault => cases hmore

/-- Stages before the receivers change nothing about which of them wants more. -/
theorem Outlasts.deliver (h : Outlasts R receive receive') (stages : List Stage) :
    Outlasts (fun s s' => s.1 = s'.1 ∧ R s.2 s'.2) (deliver receive stages)
      (deliver receive' stages) := by
  induction stages with
  | nil =>
      rintro ⟨m, k⟩ ⟨-, k'⟩ event ⟨rfl, hR⟩ hmore
      obtain ⟨hmore', hR'⟩ := h k k' event hR hmore
      exact ⟨hmore', rfl, hR'⟩
  | cons stage rest ih =>
      rintro ⟨⟨m, ms⟩, k⟩ ⟨-, k'⟩ event ⟨rfl, hR⟩ hmore
      have hbehind : (fun s s' : Memory rest × _ => s.1 = s'.1 ∧ R s.2 s'.2) (ms, k) (ms, k') :=
        ⟨rfl, hR⟩
      cases event with
      | note n =>
          obtain ⟨hmore', hms, hR'⟩ := ih (ms, k) (ms, k') (.note n) hbehind hmore
          exact ⟨hmore', congrArg (m, ·) hms, hR'⟩
      | scope s =>
          obtain ⟨htake, hfault⟩ := Verdict.of_orFault_eq_more hmore
          obtain ⟨hmore', hms, hR'⟩ := ih.takeEach hbehind htake
          refine ⟨?_, congrArg ((stage.accept m s).memory, ·) hms, hR'⟩
          simp only [Pipeline.deliver, hmore', hfault, Verdict.orFault_none]

/-- A receiver takes at least as much of a source as one that it outlasts. -/
theorem Outlasts.pulled_le (h : Outlasts R receive receive') {k : σ} {k' : σ'} (hR : R k k')
    (source : List (Except Fault Scope)) :
    (pull receive k source).pulled ≤ (pull receive' k' source).pulled := by
  induction source generalizing k k' with
  | nil => exact Nat.le_refl 0
  | cons item rest ih =>
      cases item with
      | error fault => exact Nat.le_refl 0
      | ok s =>
          rw [pull, pull]
          have hevent := h k k' (.scope s) hR
          generalize receive k (.scope s) = result at hevent ⊢
          generalize receive' k' (.scope s) = result' at hevent ⊢
          obtain ⟨k₁, verdict⟩ := result
          obtain ⟨k₁', verdict'⟩ := result'
          cases verdict with
          | more =>
              obtain ⟨rfl, hR₁⟩ := hevent rfl
              exact Nat.succ_le_succ (ih hR₁)
          | stop => cases verdict' <;> simp
          | fail fault => cases verdict' <;> simp

end Outlasts

/-! ## Sources that fail -/

section Pull

variable {κ σ : Type} {receive : Receiver σ} {state : σ}

/-- What comes after the part of a source that halts a receiver is not asked for. -/
theorem pull_append_of_halted {source : List (Except Fault Scope)}
    (h : (pull receive state source).verdict ≠ .more) (rest : List (Except Fault Scope)) :
    pull receive state (source ++ rest) = pull receive state source := by
  induction source generalizing state with
  | nil => exact absurd rfl h
  | cons item source ih =>
      cases item with
      | error fault => rfl
      | ok s =>
          rw [List.cons_append, pull, pull] at *
          generalize receive state (.scope s) = result at h ⊢
          obtain ⟨state', verdict⟩ := result
          cases verdict with
          | more =>
              dsimp only at h ⊢
              rw [ih h]
          | stop => rfl
          | fail fault => rfl

/-- Where a receiver takes all scopes, it goes on with what comes after them. -/
theorem pull_append_of_more {ss : List Scope}
    (h : (pull receive state (ss.map .ok)).verdict = .more) (rest : List (Except Fault Scope)) :
    pull receive state (ss.map .ok ++ rest) =
      let o := pull receive (pull receive state (ss.map .ok)).state rest
      { o with pulled := o.pulled + ss.length } := by
  induction ss generalizing state with
  | nil => rfl
  | cons s ss ih =>
      rw [List.map_cons, pull] at h
      rw [List.map_cons, List.cons_append, pull, pull]
      generalize receive state (.scope s) = result at h ⊢
      obtain ⟨state', verdict⟩ := result
      cases verdict with
      | more =>
          dsimp only at h ⊢
          rw [ih h]
          rfl
      | stop => cases h
      | fail fault => cases h

/-- No more scopes are asked for than there are. -/
theorem pulled_le_length (receive : Receiver σ) (state : σ) (source : List (Except Fault Scope)) :
    (pull receive state source).pulled ≤ source.length := by
  induction source generalizing state with
  | nil => exact Nat.le_refl 0
  | cons item rest ih =>
      cases item with
      | error fault => exact Nat.zero_le _
      | ok s =>
          rw [pull]
          rcases receive state (.scope s) with ⟨state', verdict⟩
          cases verdict with
          | more => exact Nat.succ_le_succ (ih state')
          | stop => simp
          | fail fault => simp

/-- A run that halts before its source ends is over then. -/
theorem run_of_halted {receive : Receiver κ} {stages : List Stage} {state : Memory stages × κ}
    {source : List (Except Fault Scope)}
    (h : (pull (deliver receive stages) state source).verdict ≠ .more) :
    run receive stages state source = pull (deliver receive stages) state source := by
  unfold run
  generalize pull (deliver receive stages) state source = o at h ⊢
  obtain ⟨state', pulled, verdict⟩ := o
  cases verdict with
  | more => exact absurd rfl h
  | stop => rfl
  | fail fault => rfl

/-- The end of a run takes nothing from its source. -/
theorem run_pulled (receive : Receiver κ) (stages : List Stage) (state : Memory stages × κ)
    (source : List (Except Fault Scope)) :
    (run receive stages state source).pulled =
      (pull (deliver receive stages) state source).pulled := by
  unfold run
  generalize pull (deliver receive stages) state source = o
  obtain ⟨state', pulled, verdict⟩ := o
  cases verdict <;> rfl

end Pull

end Pipeline

/-- A source that fails in place of the scope with number `k`. -/
def failingAt (k : Nat) (fault : Fault) (ss : List Scope) : List (Except Fault Scope) :=
  (ss.take k).map .ok ++ .error fault :: (ss.drop (k + 1)).map .ok

/-- The flow of a source that fails is that of the scopes before, cut by the fault. -/
theorem Flow.ofSource_failingAt (k : Nat) (fault : Fault) (ss : List Scope) :
    ofSource (failingAt k fault ss) = ⟨(ss.take k).map .scope, some fault⟩ := by
  unfold failingAt
  induction ss.take k with
  | nil => rfl
  | cons s rest ih =>
      rw [List.map_cons, List.cons_append, ofSource, ih]
      rfl

namespace Compiler

/-- What a compilation does while it handles scopes, before it knows whether more of them come. -/
def handle (settings : Settings) (ss : List Scope) :
    Pipeline.Outcome (Pipeline.Memory Stage.standard × Collected) :=
  Pipeline.pull (Pipeline.deliver Collected.receive Stage.standard)
    (Pipeline.start settings Stage.standard, {}) (ss.map .ok)

variable {settings : Settings} {ss : List Scope}

/-- A compilation that halts while it handles scopes does not look at what comes after them. -/
theorem compile_of_halted (h : (handle settings ss).verdict ≠ .more)
    (rest : List (Except Fault Scope)) :
    compile settings none (ss.map .ok ++ rest) =
      let o := handle settings ss
      ⟨o.state.2, o.pulled, o.verdict⟩ := by
  have hpull : Pipeline.pull (Pipeline.deliver Collected.receive Stage.standard)
      (Pipeline.start settings Stage.standard, {}) (ss.map .ok ++ rest) = handle settings ss :=
    Pipeline.pull_append_of_halted h rest
  rw [compile, compileInto, Pipeline.run_of_halted (by rwa [hpull]), hpull]

/-- A compilation that handles scopes and wants more meets the fault that comes after them. -/
theorem compile_of_more (h : (handle settings ss).verdict = .more) (fault : Fault)
    (rest : List (Except Fault Scope)) :
    compile settings none (ss.map .ok ++ .error fault :: rest) =
      ⟨(handle settings ss).state.2, ss.length, .fail fault⟩ := by
  have hpull := Pipeline.pull_append_of_more h (.error fault :: rest)
  rw [compile, compileInto, Pipeline.run_of_halted (by rw [hpull]; exact Verdict.noConfusion),
    hpull]
  simp [Pipeline.pull, handle]

/-- Nothing that comes after a fault of the source matters. -/
theorem compile_error (settings : Settings) (ss : List Scope) (fault : Fault)
    (rest rest' : List (Except Fault Scope)) :
    compile settings none (ss.map .ok ++ .error fault :: rest) =
      compile settings none (ss.map .ok ++ .error fault :: rest') := by
  by_cases h : (handle settings ss).verdict = .more
  · rw [compile_of_more h, compile_of_more h]
  · rw [compile_of_halted h, compile_of_halted h]

theorem compile_pulled (settings : Settings) (wanted : Option Nat)
    (source : List (Except Fault Scope)) :
    (compile settings wanted source).pulled =
      (Pipeline.pull (Pipeline.deliver Collected.receive Stage.standard)
        (Pipeline.start settings Stage.standard, { wanted }) source).pulled :=
  Pipeline.run_pulled _ _ _ source

/-- A compilation that handles scopes and wants more asks for one more if there is one. -/
theorem lt_pulled_of_more (h : (handle settings ss).verdict = .more) (s : Scope)
    (rest : List (Except Fault Scope)) :
    ss.length < (compile settings none (ss.map .ok ++ .ok s :: rest)).pulled := by
  have hpull := Pipeline.pull_append_of_more h (.ok s :: rest)
  rw [compile_pulled, hpull]
  dsimp only
  rw [Pipeline.pull]
  generalize Pipeline.deliver _ _ _ _ = result
  obtain ⟨state, verdict⟩ := result
  cases verdict with
  | more => dsimp only; omega
  | stop => dsimp only; omega
  | fail fault => dsimp only; omega

/-- A compilation that is drained does not stop. -/
theorem handle_ne_stop (settings : Settings) (ss : List Scope) :
    (handle settings ss).verdict ≠ .stop := by
  intro h
  have hdrained := (compile_drained settings (ss.map .ok ++ [])).2
  rw [compile_of_halted (by rw [h]; exact Verdict.noConfusion)] at hdrained
  dsimp only at hdrained
  rw [h] at hdrained
  cases hfault : (flow settings (ss.map .ok ++ [])).fault with
  | none => rw [hfault] at hdrained; cases hdrained
  | some fault => rw [hfault] at hdrained; cases hdrained

/-- A receiver that stops after some scopes has the first ones of the drained compilation, and asks
for no more of the source. -/
theorem compile_wanted (settings : Settings) {n : Nat} (hn : 1 ≤ n)
    (source : List (Except Fault Scope)) :
    let o := compile settings (some n) source
    let out := compile settings none source
    o.state.scopes = out.state.scopes.take n ∧ o.pulled ≤ out.pulled := by
  intro o out
  constructor
  · have hstate : o.state = _ := (Prod.mk.inj (compile_eq_feed settings (some n) source)).1
    rw [hstate, (compile_drained settings source).1]
    exact Pipeline.takeEach_collected_take rfl hn _
  · have houtlasts : Pipeline.Outlasts (fun _ c' => c'.wanted = none) Collected.receive
        Collected.receive := by
      intro c c' event hc' hmore
      cases event with
      | note z => exact ⟨rfl, hc'⟩
      | scope s => exact ⟨by simp [Collected.receive, hc'], hc'⟩
    rw [show o.pulled = _ from compile_pulled .., show out.pulled = _ from compile_pulled ..]
    refine (houtlasts.deliver Stage.standard).pulled_le ?_ source
    exact ⟨rfl, rfl⟩

/-- Where the source fails, the first scopes of the drained compilation have been handed on. -/
theorem compile_failingAt_scopes (settings : Settings) (k : Nat) (fault : Fault) (ss : List Scope) :
    (compile settings none (failingAt k fault ss)).state.scopes <+:
      (compile settings none (ss.map .ok)).state.scopes := by
  rw [(compile_drained _ _).1, (compile_drained _ _).1]
  have hcut : (Flow.ofSource (failingAt k fault ss)).Cut (· = fault)
      (Flow.ofSource (ss.map .ok)) := by
    rw [Flow.ofSource_failingAt, Flow.ofSource_map_ok]
    exact .inr ⟨⟨fault, rfl, rfl⟩, (List.take_prefix k ss).map _⟩
  exact (Pipeline.flow_cut hcut _ _).scopes

/-- Where the source fails in place of a scope, its fault ends the compilation unless another one
did while the scopes before were handled. -/
theorem compile_failingAt (settings : Settings) (k : Nat) (fault : Fault) (ss : List Scope) :
    let o := compile settings none (failingAt k fault ss)
    let out := compile settings none (ss.map .ok)
    match (handle settings (ss.take k)).verdict.fault? with
    | some f => o = out ∧ out.verdict = .fail f ∧ out.pulled ≤ k
    | none => o.verdict = .fail fault ∧ (k < ss.length → k < out.pulled) := by
  intro o out
  have hsplit : ss.map (@Except.ok Fault Scope) = (ss.take k).map .ok ++ (ss.drop k).map .ok := by
    rw [← List.map_append, List.take_append_drop]
  cases hverdict : (handle settings (ss.take k)).verdict with
  | stop => exact absurd hverdict (handle_ne_stop _ _)
  | fail f =>
      have hhalt : (handle settings (ss.take k)).verdict ≠ .more := by
        rw [hverdict]
        exact Verdict.noConfusion
      have hout : out = _ :=
        (congrArg (compile settings none) hsplit).trans (compile_of_halted hhalt _)
      refine ⟨(compile_of_halted hhalt _).trans hout.symm, ?_, ?_⟩
      · rw [hout]
        exact hverdict
      · rw [hout]
        refine Nat.le_trans (Pipeline.pulled_le_length _ _ _) ?_
        rw [List.length_map]
        exact List.length_take_le k ss
  | more =>
      refine ⟨congrArg Pipeline.Outcome.verdict (compile_of_more hverdict fault _), fun hk => ?_⟩
      have hlt := lt_pulled_of_more hverdict ss[k] ((ss.drop (k + 1)).map .ok)
      rwa [← List.map_cons, ← List.drop_eq_getElem_cons hk, ← hsplit, List.length_take,
        Nat.min_eq_left (Nat.le_of_lt hk)] at hlt

/-- What a compilation has handed on depends only on the scopes it has handled. A receiver that
stops after `n` scopes has the first `n` of the drained compilation, and asks for no more of the
source. If the source fails in place of the scope with number `k`, then the scopes up to there are
the first ones of the drained compilation, whatever the scopes from there on are. The outcome is
that of the drained compilation if this fails while it handles the first `k` scopes, and otherwise
the fault of the source. -/
theorem compile_causal (settings : Settings) (ss : List Scope) :
    let out := compile settings none (ss.map .ok)
    (∀ n, 1 ≤ n →
      let o := compile settings (some n) (ss.map .ok)
      o.state.scopes = out.state.scopes.take n ∧ o.pulled ≤ out.pulled) ∧
    ∀ k fault,
      let o := compile settings none (failingAt k fault ss)
      o.state.scopes <+: out.state.scopes ∧
      (∀ ss', ss'.take k = ss.take k → compile settings none (failingAt k fault ss') = o) ∧
      match (handle settings (ss.take k)).verdict.fault? with
      | some f => o = out ∧ out.verdict = .fail f ∧ out.pulled ≤ k
      | none => o.verdict = .fail fault ∧ (k < ss.length → k < out.pulled) := by
  refine ⟨fun n hn => compile_wanted settings hn _, fun k fault => ?_⟩
  refine ⟨compile_failingAt_scopes settings k fault ss, ?_, compile_failingAt settings k fault ss⟩
  intro ss' htake
  rw [failingAt, failingAt, htake]
  exact compile_error settings (ss.take k) fault _ _

/-- A scope whose block and call make functions of their own, and the definition that is called. -/
def heldBack : List Scope :=
  let ns : Namespace := ⟨{ path := ascii "packs/p", name := ascii "p" }, ascii "ns"⟩
  [⟨ns, ascii "early", Text.unlines [ascii "call greet @a", ascii "execute as @a run",
      ascii "\tsay hi"]⟩,
    ⟨ns, ascii "late", Text.unlines [ascii "generate function greet who", ascii "\tsay who"]⟩]

theorem compile_causal_heldBack :
    let out := compile {} none (heldBack.map .ok)
    let stopped := compile {} (some 1) (heldBack.map .ok)
    let broken := compile {} none (failingAt 1 (.external (ascii "gone")) heldBack)
    (out.state.scopes.map Scope.reference, out.pulled) =
      ([ascii "ns:_/00/00/00/00", ascii "ns:early", ascii "ns:late", ascii "ns:_/ff/ff/ff/ff"], 2) ∧
    stopped.pulled = 1 ∧ stopped.state.scopes = out.state.scopes.take 1 ∧
    broken.state.scopes.length = 2 ∧ broken.state.scopes <+: out.state.scopes ∧
    broken.verdict = .fail (.external (ascii "gone")) := by
  intro out stopped broken
  obtain ⟨hstop, hfail⟩ := compile_causal {} heldBack
  obtain ⟨hinitial, -, hend⟩ := hfail 1 (.external (ascii "gone"))
  have hnone : (handle {} (heldBack.take 1)).verdict.fault? = none := by decide +kernel
  rw [hnone] at hend
  exact ⟨by decide +kernel, by decide +kernel, (hstop 1 (Nat.le_refl 1)).1, by decide +kernel,
    hinitial, hend.1⟩

end Compiler

end Packwright
