import Packwright.Proofs.Causality
import Packwright.Proofs.Macro.Trace

/-! # The pass limit only cuts runs short

The pass limit of the macro table is looked at in one place only, where an unfinished scope goes
back to the pending ones. So two runs with different limits do the same, step by step, until the one
with the smaller limit may fault where the other one goes on (`process_withLimit`). What the one
hands on is what the other does, or the beginning of it, and the stages behind the macros keep this
(`compile_limit_cuts`).
-/

namespace Packwright

open Text (ascii)

/-! ## Stages that are cut short -/

section Simulation

variable {μ : Type} {cuts : Fault → Prop} {R : μ → μ → Prop}

/-- Two reactions hand on the same and end alike in related memories, unless the first one faults in
a given way. -/
def Reaction.Cut (cuts : Fault → Prop) (R : μ → μ → Prop) (r r' : Reaction μ) : Prop :=
  r'.events = r.events ∧
    ((R r.memory r'.memory ∧ r'.fault = r.fault) ∨ ∃ fault, cuts fault ∧ r.fault = some fault)

namespace Stage

variable {stage : Stage} {R : stage.Memory → stage.Memory → Prop}

/-- Whatever follows, a stage hands on the events of its answer to a scope first. -/
theorem transform_events (m : stage.Memory) (s : Scope) (fault : Option Fault) (es : List Event) :
    ∃ m' f, stage.transform m fault (.scope s :: es) =
      (m', Flow.preceded (stage.accept m s).events f) := by
  cases hfault : (stage.accept m s).fault with
  | some fault' =>
      refine ⟨(stage.accept m s).memory, ⟨[], some fault'⟩, ?_⟩
      rw [transform_scope_of_fault hfault, Flow.preceded, List.append_nil]
  | none => exact ⟨_, _, transform_scope_of_none hfault fault es⟩

/-- Every step from related memories leads to related memories, or cuts the first one short. -/
structure CutsShort (cuts : Fault → Prop) (R : stage.Memory → stage.Memory → Prop) : Prop where
  accept : ∀ {m m'}, R m m' → ∀ s, (stage.accept m s).Cut cuts R (stage.accept m' s)
  stay : ∀ {m m'}, R m m' → stage.advance? m = none → stage.advance? m' = none
  advance : ∀ {m m' r}, R m m' → stage.advance? m = some r →
    ∃ r', stage.advance? m' = some r' ∧ r.Cut cuts R r'

namespace CutsShort

variable {m m' : stage.Memory}

/-- A stage settles from related memories alike, or is cut short. -/
theorem drain (h : stage.CutsShort cuts R) (hR : R m m') :
    (stage.drain m).2.Cut cuts (stage.drain m').2 := by
  fun_induction Stage.drain stage m generalizing m' with
  | case1 m hnone =>
      rw [drain_of_none (h.stay hR hnone)]
      exact .inl rfl
  | case2 m r hsome fault hfault =>
      obtain ⟨r', hsome', hevents, ⟨-, hfault'⟩ | ⟨fault', hcuts, hfault'⟩⟩ := h.advance hR hsome
      · rw [drain_of_fault hsome' (hfault'.trans hfault), hevents]
        exact .inl rfl
      · obtain rfl : fault' = fault := Option.some.inj (hfault'.symm.trans hfault)
        obtain ⟨m₁, f, hdrain⟩ := drain_events hsome'
        rw [hdrain, hevents]
        exact .inr ⟨⟨fault', hcuts, rfl⟩, List.prefix_append _ _⟩
  | case3 m r hsome hfault _ m₁ f hdrain ih =>
      obtain ⟨r', hsome', hevents, ⟨hR', hfault'⟩ | ⟨fault', -, hfault'⟩⟩ := h.advance hR hsome
      · rw [drain_of_step hsome' (hfault'.trans hfault), hevents]
        have hrest := ih hR'
        rw [hdrain] at hrest
        exact hrest.preceded r.events
      · rw [hfault] at hfault'
        cases hfault'

/-- A stage makes the same of what comes in from related memories, or is cut short. -/
theorem transform (h : stage.CutsShort cuts R) (hR : R m m') (fault : Option Fault)
    (es : List Event) :
    (stage.transform m fault es).2.Cut cuts (stage.transform m' fault es).2 := by
  induction es generalizing m m' with
  | nil =>
      cases fault with
      | some fault => exact .inl rfl
      | none => exact h.drain hR
  | cons event es ih =>
      cases event with
      | note n => exact (ih hR).preceded [.note n]
      | scope s =>
          obtain ⟨hevents, hend⟩ := h.accept hR s
          cases hfault : (stage.accept m s).fault with
          | some fault' =>
              rw [transform_scope_of_fault hfault]
              rcases hend with ⟨-, hfault'⟩ | ⟨fault'', hcuts, hfault''⟩
              · rw [transform_scope_of_fault (hfault'.trans hfault), hevents]
                exact .inl rfl
              · obtain rfl : fault'' = fault' := Option.some.inj (hfault''.symm.trans hfault)
                obtain ⟨m₁, f, htransform⟩ := transform_events m' s fault es
                rw [htransform, hevents]
                exact .inr ⟨⟨fault'', hcuts, rfl⟩, List.prefix_append _ _⟩
          | none =>
              rcases hend with ⟨hR', hfault'⟩ | ⟨fault'', -, hfault''⟩
              · rw [transform_scope_of_none hfault, transform_scope_of_none (hfault'.trans hfault),
                  hevents]
                exact (ih hR').preceded _
              · rw [hfault] at hfault''
                cases hfault''

end CutsShort

end Stage

end Simulation

/-- Whether a fault tells that a scope has used up its passes. -/
def Fault.IsLimit (fault : Fault) : Prop := ∃ scope passes, fault = .expansionLimit scope passes

/-! ## Tables with different limits -/

namespace Macro.Table

/-- The table with another pass limit. -/
def withLimit (t : Table) (limit : Nat) : Table := { t with limit }

variable (t : Table) (n : Nat) (s : Scope)

theorem define_withLimit (d : Definition) :
    (t.withLimit n).define d = (t.define d).withLimit n := by
  unfold define
  rw [show (t.withLimit n).find? d.name = t.find? d.name from rfl]
  cases t.find? d.name with
  | some first => rfl
  | none => rfl

theorem record_withLimit (callee : Text) (args : List Text) :
    (t.withLimit n).record s callee args =
      ((t.record s callee args).1.withLimit n, (t.record s callee args).2) := by
  unfold record
  rw [show (t.withLimit n).ids.draw = t.ids.draw from rfl]
  rw [show (t.withLimit n).find? callee = t.find? callee from rfl]
  cases t.ids.draw with
  | none => rfl
  | some drawn =>
      cases t.find? callee with
      | some d => rfl
      | none => rfl

theorem resolve_withLimit (site : CallSite) :
    (t.withLimit n).resolve s site =
      ((t.resolve s site).1.withLimit n, (t.resolve s site).2) := by
  unfold resolve
  split
  next => rfl
  next callee args _ =>
    rw [show (t.withLimit n).call? _ = t.call? _ from rfl, record_withLimit]
    rw [show (t.withLimit n).find? callee = t.find? callee from rfl]
    split
    next => rfl
    next =>
      split
      next => rfl
      next =>
        rcases t.record s callee args with ⟨t', fault | c⟩
        · rfl
        · rfl

/-- A pass over lines does not look at the limit. -/
theorem expandLines_withLimit (lines : List Text) :
    (t.withLimit n).expandLines s lines =
      ((t.expandLines s lines).1.withLimit n, (t.expandLines s lines).2) := by
  fun_induction expandLines t s lines with
  | case1 t => rw [expandLines]
  | case2 t line rest params hheader => rw [expandLines.eq_def]; simp only [hheader]
  | case3 t line rest name params hheader depth isBody ih =>
      rw [expandLines.eq_def]
      simp only [hheader, define_withLimit]
      exact ih
  | case4 t line rest hheader hsite t' result h ih =>
      rw [expandLines.eq_def]
      simp only [hheader, hsite, ih, h]
  | case5 t line rest hheader site hsite t' fault h =>
      rw [expandLines.eq_def]
      simp only [hheader, hsite, resolve_withLimit, h]
  | case6 t line rest hheader site hsite t' expanded h t'' result h' ih =>
      rw [expandLines.eq_def]
      simp only [hheader, hsite, resolve_withLimit, h, ih, h']

/-- A pass does the same with a larger limit, or its scope has used up its passes where that of the
other one is left to a later pass. -/
theorem process_withLimit {t : Table} {n : Nat} (hn : t.limit ≤ n) (p : Pending) :
    (t.withLimit n).process p = ((t.process p).1.withLimit n, (t.process p).2) ∨
      (∃ fault, fault.IsLimit ∧ (t.process p).2 = .error fault) ∧
        ((t.withLimit n).process p).1.journal = (t.process p).1.journal ∧
        ((t.withLimit n).process p).2 = .ok none := by
  have hlimit : (t.expandLines p.scope p.scope.lines).1.limit = t.limit :=
    (expandLines_moves t p.scope p.scope.lines).extends.limit
  unfold process
  rw [expandLines_withLimit]
  generalize t.expandLines p.scope p.scope.lines = result at hlimit ⊢
  obtain ⟨t', fault | e⟩ := result
  · exact .inl rfl
  · dsimp only at hlimit ⊢
    split
    next => exact .inl rfl
    next =>
      by_cases hsmall : t'.limit < p.passes + 1
      · rw [if_pos hsmall]
        by_cases hlarge : n < p.passes + 1
        · rw [if_pos (show (t'.withLimit n).limit < _ from hlarge)]
          exact .inl rfl
        · rw [if_neg (show ¬(t'.withLimit n).limit < _ from hlarge)]
          exact .inr ⟨⟨_, ⟨_, _, rfl⟩, rfl⟩, rfl, rfl⟩
      · have hlarge : ¬n < p.passes + 1 := by omega
        rw [if_neg hsmall, if_neg (show ¬(t'.withLimit n).limit < _ from hlarge)]
        exact .inl rfl

/-- Two tables are settled and differ at most in their limits, where the first has the smaller. -/
def Limited (t t' : Table) : Prop := t.Settled ∧ ∃ n, t.limit ≤ n ∧ t' = t.withLimit n

theorem reaction_withLimit (step : Table × Except Fault (Option Scope)) (n : Nat) :
    reaction (step.1.withLimit n, step.2) =
      { reaction step with memory := (reaction step).memory.withLimit n } := by
  rcases step with ⟨t, fault | (_ | s)⟩
  · rfl
  · rfl
  · rfl

theorem reaction_limited {t : Table} {n : Nat} (hsettled : t.Settled) (hn : t.limit ≤ n)
    (p : Pending) :
    (reaction (t.process p)).Cut Fault.IsLimit Limited (reaction ((t.withLimit n).process p)) := by
  let pass : Pass := ⟨t, p⟩
  have hmemory : (reaction (t.process p)).memory = pass.after := (reaction_pass pass).1
  rcases process_withLimit hn p with heq | ⟨⟨fault, hlimit, herror⟩, hjournal, hnone⟩
  · rw [heq, reaction_withLimit]
    refine ⟨rfl, .inl ⟨⟨?_, n, ?_, rfl⟩, rfl⟩⟩
    · rw [hmemory]
      exact pass.settled_after hsettled
    · rw [hmemory, pass.extends_after.limit]
      exact hn
  · generalize t.process p = result at herror hjournal ⊢
    generalize (t.withLimit n).process p = result' at hjournal hnone ⊢
    obtain ⟨t₁, answer⟩ := result
    obtain ⟨t₂, answer'⟩ := result'
    obtain rfl : answer = .error fault := herror
    obtain rfl : answer' = .ok none := hnone
    exact ⟨congrArg (List.map Event.note) hjournal, .inr ⟨fault, hlimit, rfl⟩⟩

/-- Once nothing is pending, a settled table can only report a call that is left over. -/
theorem Settled.advance?_of_nil {t : Table} (h : t.Settled) (hpending : t.pending = []) :
    t.advance? = t.unresolved.map fun fault => ⟨t, [], some fault⟩ := by
  simp [advance?, hpending, h.canClose_eq_false]

/-- A run with a larger limit does the same, or goes on where the other one is cut short. -/
theorem cutsShort_limited : Stage.macros.CutsShort Fault.IsLimit Limited where
  accept := by
    rintro t _ ⟨hsettled, n, hn, rfl⟩ s
    exact reaction_limited hsettled hn ⟨s, 0⟩
  stay := by
    rintro t _ ⟨hsettled, n, hn, rfl⟩ hstay
    cases hpending : t.pending with
    | cons p rest =>
        rw [advance?_of_pending hpending] at hstay
        cases hstay
    | nil =>
        have hadvance : t.advance? = none := hstay
        rw [hsettled.advance?_of_nil hpending, Option.map_eq_none_iff] at hadvance
        have hadvance' := Settled.advance?_of_nil (t := t.withLimit n) hsettled hpending
        rwa [show (t.withLimit n).unresolved = none from hadvance] at hadvance'
  advance := by
    rintro t _ r ⟨hsettled, n, hn, rfl⟩ hadvance
    cases hpending : t.pending with
    | cons p rest =>
        rw [advance?_of_pending hpending] at hadvance
        cases hadvance
        have hpending' : (t.withLimit n).pending = p :: rest := hpending
        exact ⟨_, advance?_of_pending hpending',
          reaction_limited (t := { t with pending := rest }) hsettled hn p⟩
    | nil =>
        have hadvance : t.advance? = some r := hadvance
        rw [hsettled.advance?_of_nil hpending] at hadvance
        obtain ⟨fault, hfault, rfl⟩ := Option.map_eq_some_iff.mp hadvance
        have hadvance' := Settled.advance?_of_nil (t := t.withLimit n) hsettled hpending
        rw [show (t.withLimit n).unresolved = some fault from hfault] at hadvance'
        exact ⟨_, hadvance', rfl, .inl ⟨⟨hsettled, n, hn, rfl⟩, rfl⟩⟩

end Macro.Table

/-! ## Compilations with different limits -/

/-- A compilation with a larger limit hands on the same, or goes on where the other one is cut
short. -/
theorem Compiler.flow_cut_of_limit (settings : Settings) {k k' : Int} (hk : 1 ≤ k) (hle : k ≤ k')
    (source : List (Except Fault Scope)) :
    (flow { settings with maxPasses := k } source).Cut Fault.IsLimit
      (flow { settings with maxPasses := k' } source) := by
  have hlimit : Settings.limit { settings with maxPasses := k } ≤
      Settings.limit { settings with maxPasses := k' } := by
    rw [Macro.limit_of_pos (Int.lt_of_lt_of_le Int.one_pos hk),
      Macro.limit_of_pos (Int.lt_of_lt_of_le Int.one_pos (Int.le_trans hk hle))]
    exact Int.toNat_le_toNat hle
  -- the comments come before the macros, the other stages behind them
  let g := Flow.ofSource source
  let f := (Stage.comments.transform () g.fault g.events).2
  have hlimited : Macro.Table.Limited (Stage.macros.start { settings with maxPasses := k })
      (Stage.macros.start { settings with maxPasses := k' }) :=
    ⟨Macro.settled_start _, _, hlimit, rfl⟩
  have hmacros := Macro.Table.cutsShort_limited.transform hlimited f.fault f.events
  exact Pipeline.flow_cut hmacros [.blocks, .substitutions, .back] (Pipeline.start settings _)

/-- The pass limit only cuts compilations short. If one does not use up the passes of a scope, then
with a larger limit it hands on the same and ends alike; if it does, the scopes it has handed on are
the first ones of those with the larger limit. -/
theorem compile_limit_cuts (settings : Settings) {k k' : Int} (hk : 1 ≤ k) (hle : k ≤ k')
    (source : List (Except Fault Scope)) :
    let o := Compiler.compile { settings with maxPasses := k } none source
    let o' := Compiler.compile { settings with maxPasses := k' } none source
    ((∀ scope passes, o.verdict ≠ .fail (.expansionLimit scope passes)) →
      o'.state = o.state ∧ o'.verdict = o.verdict) ∧
    ∀ scope passes, o.verdict = .fail (.expansionLimit scope passes) →
      o.state.scopes <+: o'.state.scopes := by
  intro o o'
  have hcut := Compiler.flow_cut_of_limit settings hk hle source
  constructor
  · intro hverdict
    rcases hcut with heq | ⟨⟨fault, ⟨scope, passes, rfl⟩, hfault⟩, -⟩
    · have hfeed := Compiler.compile_eq_feed { settings with maxPasses := k' } none source
      rw [← heq, ← Compiler.compile_eq_feed] at hfeed
      exact Prod.mk.inj hfeed
    · refine absurd ?_ (hverdict scope passes)
      rw [show o.verdict = _ from (Compiler.compile_drained _ _).2, hfault]
      rfl
  · intro scope passes _
    rw [show o.state.scopes = _ from (Compiler.compile_drained _ _).1,
      show o'.state.scopes = _ from (Compiler.compile_drained _ _).1]
    exact hcut.scopes

/-- A scope and three macros that stand in a row: each body but the last calls the next macro. -/
def row : List Scope :=
  let ns : Namespace := ⟨{ path := ascii "packs/p", name := ascii "p" }, ascii "ns"⟩
  [⟨ns, ascii "macros", Text.unlines [ascii "generate function a", ascii "\tcall b",
      ascii "generate function b", ascii "\tcall c", ascii "generate function c",
      ascii "\tsay hi"]⟩,
    ⟨ns, ascii "main", ascii "call a"⟩]

theorem compile_limit_cuts_row :
    let o (k : Int) := Compiler.compile { maxPasses := k } none (row.map .ok)
    (o 2).verdict = .fail (.expansionLimit (ascii "ns:main") 3) ∧ (o 3).verdict = .more ∧
      (o 2).state.scopes.length = 1 ∧ (o 3).state.scopes.length = 2 ∧
      (o 2).state.scopes <+: (o 3).state.scopes ∧ (o 7).state = (o 3).state ∧
      (o 7).verdict = (o 3).verdict := by
  intro o
  have hshort : (o 2).verdict = .fail (.expansionLimit (ascii "ns:main") 3) := by decide +kernel
  have hlong : (o 3).verdict = .more := by decide +kernel
  have hcut := (compile_limit_cuts {} (k := 2) (by decide) (show 2 ≤ 3 by decide) (row.map .ok)).2
  have hsame := (compile_limit_cuts {} (k := 3) (by decide) (show 3 ≤ 7 by decide) (row.map .ok)).1
  refine ⟨hshort, hlong, by decide +kernel, by decide +kernel, hcut _ _ hshort, hsame ?_⟩
  intro scope passes hfail
  cases hfail.symm.trans hlong

end Packwright
