import Packwright.Proofs.Fault
import Packwright.Proofs.Macro.Moments
import Packwright.Proofs.Macro.Records

/-! # Functions are made as soon as macros are defined

The macro stage keeps its table from run to run, also where a run ends with a fault or its receiver
stops. In every table that it comes to, and at every moment of a pass, a macro has one definition
and a call has its function exactly when its macro is defined (`Table.Consistent`). So nothing is
ever left to close at the end of a run, and a run that no other fault ends reports a macro exactly
when a call of it is recorded that has no definition: the first such call (`session_settles`).
-/

namespace Packwright.Macro

open Text (ascii)

namespace Table

variable {t t' : Table} {s : Scope}

/-- Every macro is defined once. -/
def DefinedOnce (t : Table) : Prop := (t.definitions.map Definition.name).Nodup

theorem definedOnce_define (h : DefinedOnce t) (d : Definition) : DefinedOnce (t.define d) := by
  unfold define
  split
  next => exact h
  next hnone =>
    have hnew : d.name ∉ t.definitions.map Definition.name := by
      intro hmem
      obtain ⟨d', hd', hname⟩ := List.mem_map.mp hmem
      exact List.find?_eq_none.mp hnone d' hd' (beq_iff_eq.mpr hname)
    have hnames : ((t.definitions ++ [d]).map Definition.name).Nodup := by
      rw [List.map_append, List.map_singleton, ← List.concat_eq_append]
      exact List.Nodup.concat hnew h
    exact hnames

theorem definedOnce_record {callee : Text} {args : List Text} {c : Call} (h : DefinedOnce t)
    (hrecord : t.record s callee args = (t', .ok c)) : DefinedOnce t' := by
  obtain ⟨ids, -, -, ⟨d, -, rfl⟩ | ⟨-, rfl⟩⟩ := record_eq hrecord
  · exact h
  · exact h

theorem Moves.definedOnce (hmoves : Moves s t t') (h : DefinedOnce t) : DefinedOnce t' :=
  hmoves.invariant (fun _ d hu => definedOnce_define hu d)
    (fun hrecord hu => definedOnce_record hu hrecord) h

/-- What is known about macros fits together: the definitions have different names, a look-up finds
exactly them, and the function of a call is made if and only if its macro is defined. -/
structure Consistent (t : Table) : Prop where
  names : (t.definitions.map Definition.name).Nodup
  found : ∀ (name : Text) (d : Definition),
    t.find? name = some d ↔ d ∈ t.definitions ∧ d.name = name
  generated : ∀ c ∈ t.calls, c.generated = true ↔ ∃ d, t.find? c.callee = some d

theorem DefinedOnce.consistent (h : DefinedOnce t) (hsettled : t.Settled) : t.Consistent := by
  refine ⟨h, fun name d => find?_eq_some_iff_of_nodup h, fun c hc => ?_⟩
  rw [hsettled c hc, Option.isSome_iff_exists]

/-- Each macro that an earlier table defines has the same definition in a later one. -/
def Remembers (t t' : Table) : Prop :=
  ∀ (name : Text) (d : Definition), t.find? name = some d → t'.find? name = some d

theorem Extends.remembers (h : t.Extends t') : t.Remembers t' := fun _ _ hfind => h.find? hfind

theorem generate_of_none_waits {d : Definition} (h : ∀ c ∈ t.calls, c.waitsFor d.name = false) :
    t.generate d = t := by
  have hwaiting : t.calls.filter (Call.waitsFor d.name) = [] :=
    List.filter_eq_nil_iff.mpr fun c hc => by simp [h c hc]
  have hcalls : t.calls.map (fun c =>
      if c.waitsFor d.name then { c with generated := true } else c) = t.calls := by
    refine (List.map_congr_left fun c hc => ?_).trans (List.map_id t.calls)
    simp [h c hc]
  simp only [generate, hwaiting, hcalls, List.map_nil, List.reverse_nil, List.nil_append,
    List.append_nil]

/-- A table stays as it is when it is closed and no call waits for a macro that is defined. -/
theorem close_of_canClose_eq_false (h : t.canClose = false) : t.close = t := by
  have hwaits : ∀ d ∈ t.definitions, ∀ c ∈ t.calls, c.waitsFor d.name = false := by
    -- a definition that a call waits for would be found
    intro d hd c hc
    by_contra hwaits
    simp only [Call.waitsFor, Bool.and_eq_false_imp, not_forall, Bool.not_eq_false,
      beq_iff_eq, Bool.not_eq_true'] at hwaits
    obtain ⟨hname, hgenerated⟩ := hwaits
    have hnone := List.any_eq_false.mp h c hc
    rw [hgenerated, Bool.not_false, Bool.true_and, Option.not_isSome_iff_eq_none] at hnone
    exact List.find?_eq_none.mp hnone d hd (beq_iff_eq.mpr hname.symm)
  unfold close
  generalize t.definitions = ds at hwaits
  induction ds with
  | nil => rfl
  | cons d ds ih =>
      rw [List.forall_mem_cons] at hwaits
      rw [List.foldl_cons, generate_of_none_waits hwaits.1]
      exact ih hwaits.2

/-- A settled table stays as it is when it is closed. -/
theorem Settled.close_eq (h : t.Settled) : t.close = t :=
  close_of_canClose_eq_false h.canClose_eq_false

/-- A settled table reports the first call whose macro is not defined. -/
theorem Settled.of_unresolved (h : t.Settled) {callee caller : Text} {hint : Option Text}
    (hunresolved : t.unresolved = some (.unknownMacro callee caller hint)) :
    ∃ earlier c later, t.calls = earlier ++ c :: later ∧
      (∀ c' ∈ earlier, ∃ d, t.find? c'.callee = some d) ∧ t.find? c.callee = none ∧
      callee = c.callee ∧ caller = c.caller := by
  obtain ⟨c, hfound, hfault⟩ := Option.map_eq_some_iff.mp hunresolved
  obtain ⟨hwaits, earlier, later, hcalls, hearlier⟩ := List.find?_eq_some_iff_append.mp hfound
  have hc : c ∈ t.calls := List.mem_of_find?_eq_some hfound
  refine ⟨earlier, c, later, hcalls, fun c' hc' => ?_, ?_, ?_, ?_⟩
  · have hgenerated : c'.generated = true := by simpa using hearlier c' hc'
    rw [h c' (hcalls ▸ List.mem_append_left _ hc'), Option.isSome_iff_exists] at hgenerated
    exact hgenerated
  · rw [h c hc] at hwaits
    simpa using hwaits
  · injection hfault with hcallee
    exact hcallee.symm
  · injection hfault with _ hcaller
    exact hcaller.symm

/-- A settled table reports a macro if and only if some call of one is recorded that is not
defined. -/
theorem Settled.exists_unresolved_iff (h : t.Settled) :
    (∃ callee caller hint, t.unresolved = some (.unknownMacro callee caller hint)) ↔
      ∃ c ∈ t.calls, t.find? c.callee = none := by
  constructor
  · rintro ⟨callee, caller, hint, hunresolved⟩
    obtain ⟨earlier, c, later, hcalls, -, hnone, -⟩ := h.of_unresolved hunresolved
    exact ⟨c, hcalls ▸ List.mem_append_right _ List.mem_cons_self, hnone⟩
  · rintro ⟨c, hc, hnone⟩
    have hwaits : c.generated = false := by rw [h c hc, hnone]; rfl
    obtain ⟨c', hfound⟩ := Option.isSome_iff_exists.mp
      (List.find?_isSome.mpr ⟨c, hc, by rw [hwaits]; rfl⟩ :
        (t.calls.find? fun c => !c.generated).isSome = true)
    exact ⟨_, _, _, by rw [unresolved, hfound]; rfl⟩

end Table

/-- Taking a scope is a pass over it. -/
theorem Reaches.accept {sources : List Scope} {t u : Table} (h : Reaches sources t u) (s : Scope) :
    Reaches (s :: sources) t (Stage.macros.accept u s).memory := by
  let pass : Pass := ⟨u, ⟨s, 0⟩⟩
  have hmemory : (Stage.macros.accept u s).memory = pass.after := (Table.reaction_pass pass).1
  rw [hmemory]
  exact (h.mono (List.subset_cons_self s sources)).tail ⟨pass, .source u List.mem_cons_self, rfl⟩

/-- From a settled table, the macro stage goes on by passes over pending scopes. -/
theorem Reaches.advance {sources : List Scope} {t u : Table} (hsettled : t.Settled)
    (h : Reaches sources t u) {r : Reaction Table} (hadvance : Stage.macros.advance? u = some r) :
    Reaches sources t r.memory := by
  cases hpending : u.pending with
  | cons work rest =>
      rw [Table.advance?_of_pending hpending] at hadvance
      obtain rfl := Option.some.inj hadvance
      rw [(Table.reaction_pass _).1]
      exact h.tail ⟨_, .pending hpending, rfl⟩
  | nil =>
      -- a settled table has nothing to close, so only a report is left
      have hclose := (h.settled hsettled).canClose_eq_false
      simp only [Stage.advance?, Table.advance?, hpending, hclose, Bool.false_eq_true,
        if_false] at hadvance
      obtain ⟨fault, -, rfl⟩ := Option.map_eq_some_iff.mp hadvance
      exact h

/-- The macro stage comes from a settled table to another one by passes alone. -/
theorem exists_reaches_of_later {t t' : Table} (hsettled : t.Settled)
    (hlater : Stage.macros.Later t t') : ∃ sources, Reaches sources t t' := by
  have htake : ∀ (u : Table) (s : Scope), (∃ sources, Reaches sources t u) →
      ∃ sources, Reaches sources t (Stage.macros.accept u s).memory := by
    rintro u s ⟨sources, hreaches⟩
    exact ⟨s :: sources, hreaches.accept s⟩
  have hadvance : ∀ {u : Table} {r : Reaction Table}, Stage.macros.advance? u = some r →
      (∃ sources, Reaches sources t u) → ∃ sources, Reaches sources t r.memory := by
    rintro u r hadvance ⟨sources, hreaches⟩
    exact ⟨sources, hreaches.advance hsettled hadvance⟩
  exact hlater.invariant htake hadvance ⟨[], .refl⟩

/-- The macro stage comes through runs over scopes of one kind to a table that passes over such
scopes lead to. -/
theorem exists_reaches_of_uses {good : Scope → Prop} {t : Table} (hsettled : t.Settled)
    {uses : List Use} (huses : ∀ u ∈ uses, ∀ s ∈ (Flow.ofSource u.source).scopes, good s) :
    ∃ sources, (∀ s ∈ sources, good s) ∧ Reaches sources t (uses.foldl Stage.macros.use t) := by
  let holds (u : Table) : Prop := ∃ sources, (∀ s ∈ sources, good s) ∧ Reaches sources t u
  suffices hall : ∀ v : Table, holds v → holds (uses.foldl Stage.macros.use v) by
    exact hall t ⟨[], fun _ hs => (nomatch hs), .refl⟩
  induction uses with
  | nil => exact fun v hv => hv
  | cons u rest ih =>
      rw [List.forall_mem_cons] at huses
      intro v hv
      apply ih huses.2
      refine Pipeline.run_invariant .macros holds u.receive u.state u.source ?_ ?_ hv
      · rintro w s hs ⟨sources, hgood, hreaches⟩
        exact ⟨s :: sources, List.forall_mem_cons.mpr ⟨huses.1 s hs, hgood⟩, hreaches.accept s⟩
      · rintro w r hadvance ⟨sources, hgood, hreaches⟩
        exact ⟨sources, hgood, hreaches.advance hsettled hadvance⟩

theorem Reaches.definedOnce {sources : List Scope} {t t' : Table} (h : Reaches sources t t')
    (honce : t.DefinedOnce) : t'.DefinedOnce :=
  h.of_moves (fun hmoves hu => hmoves.definedOnce hu) (fun _ _ _ hu => hu) honce

/-- A run that is not stopped, and that no fault of a pass ends, reports what its table leaves
unresolved. -/
theorem run_unresolved {κ : Type} (t : Table) (receive : Receiver κ) (k : κ) (sources : List Scope)
    (hreceive : ∀ k event fault, (receive k event).2 ≠ .fail fault) :
    let o := Pipeline.run receive [.macros] ((t, ()), k) (sources.map .ok)
    (o.verdict = .more ∨
      ∃ callee caller hint, o.verdict = .fail (.unknownMacro callee caller hint)) →
    o.verdict = Verdict.more.orFault (Table.unresolved o.state.1.1) := by
  intro o hends
  have hstop : o.verdict ≠ .stop := by
    rcases hends with hmore | ⟨callee, caller, hint, hfail⟩
    · exact hmore ▸ Verdict.noConfusion
    · exact hfail ▸ Verdict.noConfusion
  have hflow := Flow.ofSource_map_ok sources
  let m : Stage.macros.Memory := t
  obtain ⟨htable, hverdict⟩ := Pipeline.run_of_more receive m k _ hflow
    (Pipeline.takeEach_of_ne_stop receive m k _ hflow hreceive hstop)
  have hdescribes := t.trace_describes (Flow.ofScopes sources)
  rw [hdescribes.table] at htable
  rw [hdescribes.fault] at hverdict
  rcases t.trace_ends none (Flow.ofScopes sources).scopes with ⟨_, hnone, -⟩ | hend
  · cases hnone
  · rcases hend with ⟨fault, hfault, hpass⟩ | ⟨-, hfault⟩
    · -- a fault of a pass is not the report of a macro
      have hfail : o.verdict = .fail fault := by
        rw [show o.verdict = _ from hverdict]
        exact congrArg Verdict.more.orFault hfault
      rcases hends with hmore | ⟨callee, caller, hint, hunknown⟩
      · cases hmore.symm.trans hfail
      · cases hunknown.symm.trans hfail
        cases hpass
    · rw [show o.verdict = _ from hverdict, show o.state.1.1 = _ from htable]
      exact congrArg Verdict.more.orFault hfault

/-- Whatever runs the macro stage is used for, in every table that it comes to, and at every moment
of a pass from there, macros are defined once and for all, and the function of a call is made if and
only if its macro is defined. So there is never anything to close, and a run that no other fault
ends reports a macro if and only if a recorded call of it has no definition: the first such call. -/
theorem session_settles (settings : Settings) :
    let start : Table := Stage.macros.start settings
    (∀ uses : List Use, Stage.macros.Later start (uses.foldl Stage.macros.use start)) ∧
    ∀ t : Table, Stage.macros.Later start t →
      t.Consistent ∧ t.canClose = false ∧ t.close = t ∧
      (∀ t' : Table, Stage.macros.Later t t' → t.Remembers t') ∧
      (∀ (sources : List Scope) (p : Pass), Step sources t p →
        (∀ u ∈ p.moments, u.Consistent) ∧
          (t :: (p.moments ++ [p.after])).Pairwise Table.Remembers) ∧
      ∀ {κ : Type} (receive : Receiver κ) (k : κ) (sources : List Scope),
        (∀ k event fault, (receive k event).2 ≠ .fail fault) →
        let o := Pipeline.run receive [.macros] ((t, ()), k) (sources.map .ok)
        let t' : Table := o.state.1.1
        (o.verdict = .more ∨
          ∃ callee caller hint, o.verdict = .fail (.unknownMacro callee caller hint)) →
        ((∃ callee caller hint, o.verdict = .fail (.unknownMacro callee caller hint)) ↔
          ∃ c ∈ t'.calls, t'.find? c.callee = none) ∧
        ∀ callee caller hint, o.verdict = .fail (.unknownMacro callee caller hint) →
          ∃ earlier c later, t'.calls = earlier ++ c :: later ∧
            (∀ c' ∈ earlier, ∃ d, t'.find? c'.callee = some d) ∧ t'.find? c.callee = none ∧
            callee = c.callee ∧ caller = c.caller := by
  intro start
  refine ⟨Stage.macros.later_uses start, fun t hlater => ?_⟩
  obtain ⟨before, hbefore⟩ := exists_reaches_of_later (settled_start settings) hlater
  have hsettled : t.Settled := hbefore.settled (settled_start settings)
  have honce : t.DefinedOnce := hbefore.definedOnce List.nodup_nil
  refine ⟨honce.consistent hsettled, hsettled.canClose_eq_false, hsettled.close_eq, ?_, ?_, ?_⟩
  · intro t' hlater'
    obtain ⟨sources, hreaches⟩ := exists_reaches_of_later hsettled hlater'
    exact hreaches.extends.remembers
  · intro sources p hstep
    have hleads := Leads.single hstep
    have hat : ∀ u ∈ [p].flatMap Pass.moments ++ [p.after], u.DefinedOnce ∧ u.Settled :=
      hleads.at_moments (fun hmoves hu => ⟨hmoves.definedOnce hu.1, hmoves.settled hu.2⟩)
        (fun _ _ _ hu => hu) ⟨honce, hsettled⟩
    have hbetween := hleads.between_moments (R := Table.Remembers)
      (fun huv hvw name d hfind => hvw name d (huv name d hfind))
      (fun hmoves => hmoves.extends.remembers) (fun _ _ _ _ _ hfind => hfind)
    rw [List.flatMap_singleton] at hat hbetween
    refine ⟨fun u hu => ?_, hbetween⟩
    obtain ⟨honce', hsettled'⟩ := hat u (List.mem_append_left _ hu)
    exact honce'.consistent hsettled'
  · intro κ receive k sources hreceive o t' hends
    have hverdict : o.verdict = Verdict.more.orFault t'.unresolved :=
      run_unresolved t receive k sources hreceive hends
    have hsettled' : t'.Settled := by
      have hrun : Stage.macros.Later t t' := Pipeline.run_later receive _ k _
      obtain ⟨_, hreaches⟩ := exists_reaches_of_later hsettled hrun
      exact hreaches.settled hsettled
    have hfail : ∀ fault, o.verdict = .fail fault ↔ t'.unresolved = some fault := by
      intro fault
      rw [hverdict]
      cases t'.unresolved with
      | none => exact ⟨nofun, nofun⟩
      | some fault' => exact ⟨fun h => congrArg some (Verdict.fail.inj h),
          fun h => congrArg Verdict.fail (Option.some.inj h)⟩
    simp only [hfail]
    exact ⟨hsettled'.exists_unresolved_iff, fun _ _ _ h => hsettled'.of_unresolved h⟩

/-- Two runs that do not come to their end: the first one fails after two calls of macros that are
not defined yet, the second one defines the later of them and is stopped at its first scope. -/
def interrupted : List Use :=
  let ns : Namespace := ⟨{ path := ascii "packs/p", name := ascii "p" }, ascii "ns"⟩
  let calls := [ascii "execute run call ghost", ascii "execute run call late", ascii "call"]
  let definition := [ascii "generate function late", ascii "\tsay hi"]
  [⟨Collected, Collected.receive, {}, [.ok ⟨ns, ascii "first", Text.unlines calls⟩]⟩,
    ⟨Collected, Collected.receive, { wanted := some 1 },
      [.ok ⟨ns, ascii "second", Text.unlines definition⟩]⟩]

/-- After them a run without sources makes the function that was left pending, and reports the other
macro. -/
theorem session_settles_interrupted :
    let start : Table := Stage.macros.start {}
    let t : Table := interrupted.foldl Stage.macros.use start
    let o := Pipeline.run Collected.receive [.macros] ((t, ()), {}) []
    let t' : Table := o.state.1.1
    Stage.macros.Later start t ∧
      (t.calls.map Call.generated, t.pending.length) = ([false, true], 1) ∧
      o.verdict = .fail (.unknownMacro (ascii "ghost") (ascii "ns:first") none) ∧
      ∃ earlier c later, t'.calls = earlier ++ c :: later ∧
        (∀ c' ∈ earlier, ∃ d, t'.find? c'.callee = some d) ∧ t'.find? c.callee = none ∧
        ascii "ghost" = c.callee ∧ ascii "ns:first" = c.caller := by
  intro start t o t'
  obtain ⟨hlater, hsession⟩ := session_settles {}
  have hreceive : ∀ k event fault, (Collected.receive k event).2 ≠ .fail fault := by
    intro k event fault
    cases event with
    | note n => exact Verdict.noConfusion
    | scope s =>
        simp only [Collected.receive]
        split <;> exact Verdict.noConfusion
  have hverdict : o.verdict = .fail (.unknownMacro (ascii "ghost") (ascii "ns:first") none) := by
    decide +kernel
  obtain ⟨-, -, -, -, -, hruns⟩ := hsession t (hlater interrupted)
  obtain ⟨-, hfirst⟩ := hruns Collected.receive {} [] hreceive (.inr ⟨_, _, _, hverdict⟩)
  exact ⟨hlater interrupted, by decide +kernel, hverdict, hfirst _ _ _ hverdict⟩

end Packwright.Macro
