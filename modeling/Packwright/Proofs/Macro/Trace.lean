import Packwright.Proofs.Macro.Move
import Packwright.Proofs.Session

/-! # The passes of a run

A run of the macro stage is a sequence of passes, each over one scope. First every source scope has
a pass, then pending scopes have theirs, the newest one first, until none is left. A trace lists the
passes of a run, and `run_macros` says that it describes the run: the stage hands on the scopes that
passes finish, ends with the fault of the trace, and remembers its table.
-/

namespace Packwright.Macro

open Relation (ReflTransGen)

/-- One pass of a run: what is known when it starts, and the scope it expands. -/
structure Pass where
  table : Table
  work : Pending
  deriving DecidableEq, Repr

/-- The pending scope that an unfinished pass leaves. -/
def Pending.next (p : Pending) (e : Expanded) : Pending :=
  ⟨p.scope.withContent (Text.unlines e.lines), p.passes + 1⟩

/-- The table with its notes handed on. -/
def Table.cleared (t : Table) : Table := { t with journal := [] }

namespace Pass

/-- What the lines of the scope become, and what is known then. -/
def expansion (p : Pass) : Table × Except Fault Expanded :=
  p.table.expandLines p.work.scope p.work.scope.lines

/-- What is known after the pass, and what became of the scope. -/
def result (p : Pass) : Table × Except Fault (Option Scope) := p.table.process p.work

/-- The table after the pass, once its notes are handed on. -/
def after (p : Pass) : Table := p.result.1.cleared

/-- The scope, if the pass finished it. -/
def finished? (p : Pass) : Option Scope :=
  match p.result.2 with
  | .ok finished => finished
  | .error _ => none

/-- The fault that the pass ends with. -/
def fault? (p : Pass) : Option Fault :=
  match p.result.2 with
  | .ok _ => none
  | .error fault => some fault

/-- How a pass ends: a fault while the lines are expanded, a finished scope, one that has used up
its passes, or one that goes back to the pending scopes. -/
inductive Ends (p : Pass) : Table → Except Fault (Option Scope) → Prop
  | failed {t : Table} {fault : Fault} (h : p.expansion = (t, .error fault)) :
      Ends p t (.error fault)
  | finished {t : Table} {e : Expanded} (h : p.expansion = (t, .ok e)) (hin : e.inlined = false) :
      Ends p t (.ok (some (p.work.next e).scope))
  | limited {t : Table} {e : Expanded} (h : p.expansion = (t, .ok e)) (hin : e.inlined = true)
      (hlimit : t.limit < p.work.passes + 1) :
      Ends p t (.error (.expansionLimit p.work.scope.reference (p.work.passes + 1)))
  | again {t : Table} {e : Expanded} (h : p.expansion = (t, .ok e)) (hin : e.inlined = true)
      (hlimit : p.work.passes + 1 ≤ t.limit) :
      Ends p { t with pending := p.work.next e :: t.pending } (.ok none)

theorem ends (p : Pass) : p.Ends p.result.1 p.result.2 := by
  unfold result Table.process
  split
  next t fault h => exact .failed h
  next t e h =>
    dsimp only
    split
    next hin => exact .finished h (by simpa using hin)
    next hin =>
      have hin : e.inlined = true := by simpa using hin
      split
      next hlimit => exact .limited h hin hlimit
      next hlimit => exact .again h hin (Nat.le_of_not_lt hlimit)

/-- The calls that a pass resolves, each with what is known then. -/
def resolutions (p : Pass) : List (Table × CallSite) :=
  p.table.resolutions p.work.scope p.work.scope.lines

theorem expansion_moves (p : Pass) : Table.Moves p.work.scope p.table p.expansion.1 :=
  Table.expandLines_moves _ _ _

/-- After a pass the table is the one that the lines left, with the scope put back if it is not
finished. -/
theorem after_eq (p : Pass) :
    ∃ pending, p.after = { p.expansion.1 with pending, journal := [] } ∧
      (pending = p.expansion.1.pending ∨
        ∃ e, p.expansion.2 = .ok e ∧ pending = p.work.next e :: p.expansion.1.pending) := by
  have hends := p.ends
  unfold after
  generalize p.result = result at hends
  obtain ⟨t, answer⟩ := result
  cases hends with
  | failed h | finished h | limited h =>
      rw [h]
      exact ⟨t.pending, rfl, .inl rfl⟩
  | again h =>
      rw [h]
      exact ⟨_, rfl, .inr ⟨_, rfl, rfl⟩⟩

/-- A pass without a fault expands all its lines, and puts its scope back if it put a body in. -/
theorem expansion_of_fault?_eq_none {p : Pass} (h : p.fault? = none) :
    ∃ t e, p.expansion = (t, .ok e) ∧ p.after = { t with
      pending := if e.inlined then p.work.next e :: t.pending else t.pending
      journal := [] } := by
  have hends := p.ends
  unfold fault? at h
  unfold after
  generalize p.result = result at hends h
  obtain ⟨t, answer⟩ := result
  cases hends with
  | failed | limited => cases h
  | finished hexp hin => exact ⟨t, _, hexp, by rw [hin]; rfl⟩
  | again hexp hin => exact ⟨_, _, hexp, by rw [hin]; rfl⟩

/-- A pass that finishes a scope put no body into it. -/
theorem expansion_of_finished? {p : Pass} {z : Scope} (h : p.finished? = some z) :
    ∃ t e, p.expansion = (t, .ok e) ∧ e.inlined = false ∧ z = (p.work.next e).scope := by
  have hends := p.ends
  unfold finished? at h
  generalize p.result = result at hends h
  obtain ⟨t, answer⟩ := result
  cases hends with
  | failed | limited | again => cases h
  | finished hexp hin =>
      cases h
      exact ⟨t, _, hexp, hin, rfl⟩

theorem finished?_eq_none_of_inlined {p : Pass} {t : Table} {e : Expanded}
    (h : p.expansion = (t, .ok e)) (hin : e.inlined = true) : p.finished? = none := by
  rw [Option.eq_none_iff_forall_ne_some]
  intro z hz
  obtain ⟨_, _, hexp, hnot, -⟩ := expansion_of_finished? hz
  rw [h] at hexp
  cases hexp
  rw [hin] at hnot
  cases hnot

theorem settled_after (p : Pass) (h : p.table.Settled) : p.after.Settled := by
  obtain ⟨pending, hafter, -⟩ := p.after_eq
  rw [hafter]
  exact p.expansion_moves.settled h

theorem extends_after (p : Pass) : p.table.Extends p.after := by
  obtain ⟨pending, hafter, -⟩ := p.after_eq
  obtain ⟨hlimit, hdefinitions, hcalls⟩ := p.expansion_moves.extends
  rw [hafter]
  exact ⟨hlimit, hdefinitions, hcalls⟩

end Pass

/-- The passes of a run in order, what is known at its end, and the fault it ends with. -/
structure Trace where
  passes : List Pass
  table : Table
  fault : Option Fault

namespace Trace

/-- The scopes that a run finishes, in order. -/
def yields (r : Trace) : List Scope := r.passes.filterMap Pass.finished?

/-- Puts a pass before the others. -/
def preceded (p : Pass) (r : Trace) : Trace := { r with passes := p :: r.passes }

end Trace

namespace Table

/-- The rest of a run once no more scopes come in. -/
def settle (t : Table) : Trace :=
  match h : t.pending with
  | work :: rest =>
    let pass : Pass := ⟨{ t with pending := rest }, work⟩
    match pass.fault? with
    | some fault => ⟨[pass], pass.after, some fault⟩
    | none =>
      have : pass.after.load < t.load := load_process_lt h
      pass.after.settle.preceded pass
  | [] =>
    if hclose : t.canClose then
      have : t.close.cleared.load < t.load := load_close_lt hclose
      t.close.cleared.settle
    else ⟨[], t, t.unresolved⟩
termination_by t.load

/-- The run over source scopes that start from a table. The source may end with a fault. -/
def trace (t : Table) (fault : Option Fault) : List Scope → Trace
  | [] =>
    match fault with
    | some fault => ⟨[], t, some fault⟩
    | none => t.settle
  | s :: rest =>
    let pass : Pass := ⟨t, ⟨s, 0⟩⟩
    match pass.fault? with
    | some fault => ⟨[pass], pass.after, some fault⟩
    | none => (pass.after.trace fault rest).preceded pass

end Table

/-- A trace describes what a stage remembers and hands on. -/
structure Trace.Describes (r : Trace) (whole : Table × Flow) : Prop where
  table : whole.1 = r.table
  scopes : whole.2.scopes = r.yields
  fault : whole.2.fault = r.fault

namespace Table

/-- A pass hands on its notes, then the scope it finished. -/
theorem reaction_pass (p : Pass) :
    (reaction p.result).memory = p.after ∧ (reaction p.result).fault = p.fault? ∧
      ∀ fault, (Flow.mk (reaction p.result).events fault).scopes = p.finished?.toList := by
  unfold Pass.after Pass.fault? Pass.finished? reaction
  rcases p.result with ⟨t, (fault | (_ | s))⟩
  · exact ⟨rfl, rfl, Flow.scopes_notes t.journal⟩
  · exact ⟨rfl, rfl, Flow.scopes_notes t.journal⟩
  · exact ⟨rfl, rfl, Flow.scopes_notes_append t.journal [s]⟩

end Table

theorem Trace.Describes.preceded {r : Trace} {m : Table} {f : Flow} (h : r.Describes (m, f))
    (p : Pass) : (r.preceded p).Describes (m, f.preceded (Table.reaction p.result).events) := by
  refine ⟨h.table, ?_, h.fault⟩
  rw [Flow.scopes_preceded, (Table.reaction_pass p).2.2, h.scopes]
  simp only [Trace.yields, Trace.preceded]
  cases hfinished : p.finished? <;> simp [hfinished]

/-- A pass that fails ends the run. -/
theorem Pass.describes_fault (p : Pass) {fault : Fault} :
    Trace.Describes ⟨[p], p.after, some fault⟩
      (p.after, ⟨(Table.reaction p.result).events, some fault⟩) := by
  refine ⟨rfl, ?_, rfl⟩
  rw [(Table.reaction_pass p).2.2]
  cases hfinished : p.finished? <;> simp [Trace.yields, hfinished]

namespace Table

theorem advance?_of_pending {t : Table} {work : Pending} {rest : List Pending}
    (h : t.pending = work :: rest) :
    Stage.macros.advance? t =
      some (reaction (Pass.mk { t with pending := rest } work).result) := by
  simp only [Stage.advance?, advance?, h]
  rfl

/-- The trace of a run describes how the stage settles. -/
theorem settle_describes (t : Table) : t.settle.Describes (Stage.drain .macros t) := by
  fun_induction settle t with
  | case1 t work rest hpending pass fault hfault =>
      obtain ⟨hmemory, hreaction, -⟩ := reaction_pass pass
      rw [Stage.drain_of_fault (advance?_of_pending hpending) (hreaction.trans hfault), hmemory]
      exact pass.describes_fault
  | case2 t work rest hpending pass hfault _ ih =>
      obtain ⟨hmemory, hreaction, -⟩ := reaction_pass pass
      rw [Stage.drain_of_step (advance?_of_pending hpending) (hreaction.trans hfault), hmemory]
      exact ih.preceded pass
  | case3 t hpending hclose _ ih =>
      have hadvance : Stage.macros.advance? t = some (reaction (t.close, .ok none)) := by
        simp [Stage.advance?, advance?, hpending, hclose]
      rw [Stage.drain_of_step hadvance rfl]
      refine ⟨ih.table, ?_, ih.fault⟩
      rw [Flow.scopes_preceded, ← ih.scopes]
      simp [reaction, Flow.scopes_notes]
      rfl
  | case4 t hpending hclose =>
      cases hunresolved : t.unresolved with
      | none =>
          have hadvance : Stage.macros.advance? t = none := by
            simp [Stage.advance?, advance?, hpending, hclose, hunresolved]
          rw [Stage.drain_of_none hadvance]
          exact ⟨rfl, rfl, rfl⟩
      | some fault =>
          have hadvance : Stage.macros.advance? t =
              some { memory := t, events := [], fault := some fault } := by
            simp [Stage.advance?, advance?, hpending, hclose, hunresolved]
          rw [Stage.drain_of_fault hadvance rfl]
          exact ⟨rfl, rfl, rfl⟩

/-- The trace of a run describes what the stage makes of the scopes that come in. -/
theorem trace_describes (t : Table) (f : Flow) :
    (t.trace f.fault f.scopes).Describes (Stage.transform .macros t f.fault f.events) := by
  obtain ⟨events, fault⟩ := f
  induction events generalizing t with
  | nil =>
      cases fault with
      | some fault => exact ⟨rfl, rfl, rfl⟩
      | none => exact settle_describes t
  | cons event es ih =>
      cases event with
      | note n =>
          obtain ⟨htable, hscopes, hfault⟩ := ih t
          exact ⟨htable, hscopes, hfault⟩
      | scope s =>
          let pass : Pass := ⟨t, ⟨s, 0⟩⟩
          have haccept : Stage.macros.accept t s = reaction pass.result := rfl
          obtain ⟨hmemory, hreaction, -⟩ := reaction_pass pass
          have hscopes : (Flow.mk (.scope s :: es) fault).scopes = s :: (Flow.mk es fault).scopes :=
            rfl
          rw [hscopes, trace]
          cases hfault : pass.fault? with
          | some fault' =>
              rw [Stage.transform_scope_of_fault (haccept ▸ hreaction.trans hfault), haccept,
                hmemory]
              exact pass.describes_fault
          | none =>
              rw [Stage.transform_scope_of_none (haccept ▸ hreaction.trans hfault), haccept,
                hmemory]
              exact (ih pass.after).preceded pass

end Table

/-- A step of a run over source scopes: a pass over one of them, or over the newest pending
scope. -/
inductive Step (sources : List Scope) : Table → Pass → Prop
  | source (t : Table) {s : Scope} (hs : s ∈ sources) : Step sources t ⟨t, ⟨s, 0⟩⟩
  | pending {t : Table} {work : Pending} {rest : List Pending} (h : t.pending = work :: rest) :
      Step sources t ⟨{ t with pending := rest }, work⟩

/-- What is known later in a run over source scopes. -/
def Reaches (sources : List Scope) : Table → Table → Prop :=
  ReflTransGen fun t t' => ∃ p, Step sources t p ∧ t' = p.after

theorem Step.mono {sources sources' : List Scope} (h : sources ⊆ sources') {t : Table} {p : Pass}
    (hstep : Step sources t p) : Step sources' t p := by
  cases hstep with
  | source hs => exact .source t (h hs)
  | pending hpending => exact .pending hpending

theorem Reaches.mono {sources sources' : List Scope} (h : sources ⊆ sources') {t t' : Table}
    (hreaches : Reaches sources t t') : Reaches sources' t t' :=
  ReflTransGen.mono (fun _ _ ⟨p, hstep, heq⟩ => ⟨p, hstep.mono h, heq⟩) _ _ hreaches

theorem Step.extends {sources : List Scope} {t : Table} {p : Pass} (hstep : Step sources t p) :
    t.Extends p.after := by
  obtain ⟨hlimit, hdefinitions, hcalls⟩ := p.extends_after
  cases hstep with
  | source => exact ⟨hlimit, hdefinitions, hcalls⟩
  | pending => exact ⟨hlimit, hdefinitions, hcalls⟩

theorem Step.settled {sources : List Scope} {t : Table} {p : Pass} (hstep : Step sources t p)
    (h : t.Settled) : p.after.Settled := by
  cases hstep with
  | source => exact Pass.settled_after _ h
  | pending => exact Pass.settled_after _ h

/-- What every step keeps holds wherever a run comes to. -/
theorem Reaches.invariant {holds : Table → Prop} {sources : List Scope} {t t' : Table}
    (hreaches : Reaches sources t t')
    (hstep : ∀ {u : Table} {p : Pass}, Step sources u p → holds u → holds p.after)
    (h : holds t) : holds t' := by
  induction hreaches with
  | refl => exact h
  | tail _ hnext ih =>
      obtain ⟨p, hp, rfl⟩ := hnext
      exact hstep hp ih

/-- What the moves of a pass keep holds wherever a run comes to, if it does not depend on what is
pending or noted. -/
theorem Reaches.of_moves {holds : Table → Prop} {sources : List Scope} {t t' : Table}
    (hreaches : Reaches sources t t')
    (hmoves : ∀ {s : Scope} {u u' : Table}, Table.Moves s u u' → holds u → holds u')
    (hrest : ∀ (u : Table) (pending : List Pending) (journal : List Note), holds u →
      holds { u with pending, journal })
    (h : holds t) : holds t' := by
  refine hreaches.invariant (fun {u p} hstep hu => ?_) h
  have htable : holds p.table := by
    cases hstep with
    | source => exact hu
    | pending => exact hrest u _ u.journal hu
  obtain ⟨pending, hafter, -⟩ := p.after_eq
  rw [hafter]
  exact hrest _ pending [] (hmoves p.expansion_moves htable)

theorem Reaches.settled {sources : List Scope} {t t' : Table} (hreaches : Reaches sources t t')
    (h : t.Settled) : t'.Settled :=
  hreaches.invariant (fun hstep hu => hstep.settled hu) h

theorem Reaches.extends {sources : List Scope} {t t' : Table} (h : Reaches sources t t') :
    t.Extends t' :=
  h.invariant (fun hstep hu => hu.trans hstep.extends) (.refl t)

/-- Passes lead from a table to another one: each is a step from what the one before it left. -/
inductive Leads (sources : List Scope) : Table → List Pass → Table → Prop
  | stop (t : Table) : Leads sources t [] t
  | step {t t' : Table} {p : Pass} {ps : List Pass} (hstep : Step sources t p)
      (hrest : Leads sources p.after ps t') : Leads sources t (p :: ps) t'

namespace Leads

variable {sources : List Scope} {t t' : Table} {p : Pass} {ps : List Pass}

theorem single (hstep : Step sources t p) : Leads sources t [p] p.after := .step hstep (.stop _)

theorem mono {sources' : List Scope} (h : sources ⊆ sources') (hleads : Leads sources t ps t') :
    Leads sources' t ps t' := by
  induction hleads with
  | stop t => exact .stop t
  | step hstep _ ih => exact .step (hstep.mono h) ih

theorem reaches (h : Leads sources t ps t') : Reaches sources t t' := by
  induction h with
  | stop t => exact .refl
  | step hstep _ ih => exact .head ⟨_, hstep, rfl⟩ ih

end Leads

/-- The passes of a run over source scopes are steps, and they lead from a table to the one at its
end. -/
structure Trace.Follows (r : Trace) (sources : List Scope) (t : Table) : Prop where
  finish : Reaches sources t r.table
  step : ∀ p ∈ r.passes, ∃ t', Reaches sources t t' ∧ Step sources t' p ∧
    Reaches sources p.after r.table

theorem Leads.follows {sources : List Scope} {t : Table} {r : Trace}
    (h : Leads sources t r.passes r.table) : r.Follows sources t := by
  refine ⟨h.reaches, ?_⟩
  generalize r.passes = ps at h
  generalize r.table = t' at h
  induction h with
  | stop t => exact fun p hp => nomatch hp
  | step hstep hrest ih =>
      rw [List.forall_mem_cons]
      refine ⟨⟨_, .refl, hstep, hrest.reaches⟩, fun q hq => ?_⟩
      obtain ⟨u, hto, hfrom⟩ := ih q hq
      exact ⟨u, .head ⟨_, hstep, rfl⟩ hto, hfrom⟩

namespace Table

/-- A settled table has nothing to close. -/
theorem Settled.canClose_eq_false {t : Table} (h : t.Settled) : t.canClose = false := by
  rw [canClose, List.any_eq_false]
  intro c hc
  simp [h c hc]

/-- A run from a settled table takes steps only. -/
theorem settle_leads (t : Table) (h : t.Settled) : Leads [] t t.settle.passes t.settle.table := by
  fun_induction settle t with
  | case1 t work rest hpending pass fault hfault => exact .single (.pending hpending)
  | case2 t work rest hpending pass hfault _ ih =>
      exact .step (.pending hpending) (ih (pass.settled_after h))
  | case3 t hpending hclose =>
      rw [h.canClose_eq_false] at hclose
      cases hclose
  | case4 t hpending hclose => exact .stop t

theorem trace_leads (t : Table) (fault : Option Fault) (sources : List Scope) (h : t.Settled) :
    Leads sources t (t.trace fault sources).passes (t.trace fault sources).table := by
  induction sources generalizing t with
  | nil =>
      cases fault with
      | some fault => exact .stop t
      | none => exact settle_leads t h
  | cons s rest ih =>
      rw [trace]
      let pass : Pass := ⟨t, ⟨s, 0⟩⟩
      have hstep : Step (s :: rest) t pass := .source t List.mem_cons_self
      cases hfault : pass.fault? with
      | some fault' => exact .single hstep
      | none =>
          exact .step hstep ((ih _ (pass.settled_after h)).mono (List.subset_cons_self s rest))

theorem trace_follows (t : Table) (fault : Option Fault) (sources : List Scope) (h : t.Settled) :
    (t.trace fault sources).Follows sources t :=
  (trace_leads t fault sources h).follows

end Table

/-- The trace of a run of the macro stage from its start. -/
def traceOf (settings : Settings) (sources : List Scope) : Trace :=
  (Stage.macros.start settings : Table).trace none sources

/-- A limit that is set is the one that applies. -/
theorem limit_of_pos {settings : Settings} (h : 0 < settings.maxPasses) :
    settings.limit = settings.maxPasses.toNat :=
  if_neg (Int.not_le.mpr h)

theorem settled_start (settings : Settings) : Table.Settled (Stage.macros.start settings) :=
  fun _ hc => nomatch hc

theorem traceOf_leads (settings : Settings) (sources : List Scope) :
    Leads sources (Stage.macros.start settings) (traceOf settings sources).passes
      (traceOf settings sources).table :=
  Table.trace_leads _ none sources (settled_start settings)

theorem traceOf_follows (settings : Settings) (sources : List Scope) :
    (traceOf settings sources).Follows sources (Stage.macros.start settings) :=
  (traceOf_leads settings sources).follows

theorem settled_traceOf (settings : Settings) (sources : List Scope) :
    (traceOf settings sources).table.Settled :=
  (traceOf_follows settings sources).finish.settled (settled_start settings)

/-- A run of the macro stage alone is described by its trace. -/
theorem run_macros (settings : Settings) (sources : List Scope) :
    let o := Stage.macros.run settings sources
    let r := traceOf settings sources
    o.state.2.scopes = r.yields ∧ o.verdict = Verdict.more.orFault r.fault ∧
      (o.verdict = .more → o.state.1.1 = r.table) := by
  intro o r
  obtain ⟨hscopes, hverdict, htable⟩ := Stage.run_eq .macros settings sources
  have hdescribes := Table.trace_describes (Stage.macros.start settings) (Flow.ofScopes sources)
  rw [Flow.scopes_ofScopes] at hdescribes
  refine ⟨hscopes.trans hdescribes.scopes, ?_, fun h => (htable h).trans hdescribes.table⟩
  exact hverdict.trans (congrArg _ hdescribes.fault)

/-- What the macro stage remembers after a run is the table of the trace, however the run ends. -/
theorem run_macros_table (settings : Settings) (sources : List Scope) :
    (Stage.macros.run settings sources).state.1.1 = (traceOf settings sources).table := by
  have hdescribes := Table.trace_describes (Stage.macros.start settings) (Flow.ofScopes sources)
  rw [Flow.scopes_ofScopes] at hdescribes
  exact (Stage.run_memory .macros settings sources).trans hdescribes.table

theorem traceOf_fault_eq_none {settings : Settings} {sources : List Scope}
    (h : (Stage.macros.run settings sources).verdict = .more) :
    (traceOf settings sources).fault = none := by
  have hverdict := (run_macros settings sources).2.1
  rw [h] at hverdict
  cases hfault : (traceOf settings sources).fault with
  | none => rfl
  | some fault =>
      rw [hfault] at hverdict
      cases hverdict

end Packwright.Macro
