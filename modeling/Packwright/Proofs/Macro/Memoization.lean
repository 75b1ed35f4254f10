import Packwright.Proofs.Macro.Moments
import Packwright.Proofs.Macro.Names
import Packwright.Proofs.Macro.Records
import Packwright.Proofs.Macro.Refinement

/-! # Equal calls share a function

A call that gets a function is recorded under a key, and a later call with the same key is answered
from the record. The records are numbered in the order in which they are made and never change but
for the mark that their function was made. As every record comes from a call that a pass met
(`Leads.origin`), the key tells what is called unless a name holds a NUL byte, and the function made
for a call has the first definition of the macro for its body, with the arguments of the call
(`run_shares_calls`).
-/

namespace Packwright.Macro

open Text (ascii)

/-- A pass comes to the call of a macro with arguments when a table is known. -/
def Pass.Meets (p : Pass) (t : Table) (site : CallSite) (callee : Text) (args : List Text) : Prop :=
  (t, Deed.call site) ∈ p.deeds ∧ Text.fields site.payload = callee :: args

theorem Pass.Meets.callee?_eq {p : Pass} {t : Table} {site : CallSite} {callee : Text}
    {args : List Text} (h : p.Meets t site callee args) :
    (Deed.call site).callee? = some callee := by
  rw [Deed.callee?, h.2]
  rfl

namespace Table

variable {t t' : Table} {s : Scope} {ds : List (Table × Deed)}

/-- A call whose key has a record is answered from the record, and nothing is changed. -/
theorem resolve_of_known {site : CallSite} {callee : Text} {args : List Text} {c : Call}
    (hkeyed : t.Keyed) (hfields : Text.fields site.payload = callee :: args) (hc : c ∈ t.calls)
    (hkey : c.key = Call.keyOf s.ns callee args) :
    t.resolve s site = (t, .ok ⟨[callLine site.lead c.reference], false⟩) := by
  have hcall : t.call? (Call.keyOf s.ns callee args) = some c :=
    hkeyed.call?_eq_some_iff.mpr ⟨hc, hkey⟩
  simp only [resolve, hfields, hcall]

/-! ## Where records and definitions come from -/

/-- A record after a call is an old one or the one of the call. -/
theorem origin_resolve {site : CallSite} {answer : Except Fault Expanded}
    (h : t.resolve s site = (t', answer)) {c : Call} (hc : c ∈ t'.calls) :
    c ∈ t.calls ∨ Text.fields site.payload = c.callee :: c.args := by
  cases resolves_of_resolve h with
  | empty | known | inlined => exact .inl hc
  | exhausted _ hrecord =>
      rw [record_error hrecord] at hc
      exact .inl hc
  | recorded hfields _ hrecord =>
      obtain ⟨c', hcalls, hbare, heq⟩ := calls_record hrecord
      rw [hcalls] at hc
      rcases List.mem_append.mp hc with hold | hnew
      · exact .inl hold
      · obtain rfl := List.mem_singleton.mp hnew
        have hcall := hbare.trans heq
        obtain ⟨hcallee, hargs, -⟩ := Call.mk.inj hcall
        exact .inr (by rw [hfields, hcallee, hargs])

/-- A record after a pass is an old one or comes from a call that the pass met. -/
theorem Reads.origin (h : Reads s t ds t') {c : Call} (hc : c ∈ t'.calls) :
    (∃ c₀ ∈ t.calls, c.bare = c₀.bare) ∨
      ∃ u site, (u, Deed.call site) ∈ ds ∧ Text.fields site.payload = c.callee :: c.args := by
  induction h with
  | stop t => exact .inl ⟨c, hc, rfl⟩
  | define d _ ih =>
      rcases ih hc with ⟨c₀, hc₀, hbare⟩ | ⟨u, site, hdeed, hfields⟩
      · have hold := List.mem_map_of_mem (f := Call.bare) hc₀
        rw [map_calls_define (fun _ => rfl)] at hold
        obtain ⟨c₁, hc₁, hbare₁⟩ := List.mem_map.mp hold
        exact .inl ⟨c₁, hc₁, hbare.trans hbare₁.symm⟩
      · exact .inr ⟨u, site, List.mem_cons_of_mem _ hdeed, hfields⟩
  | call h _ ih =>
      rcases ih hc with ⟨c₀, hc₀, hbare⟩ | ⟨u, site', hdeed, hfields⟩
      · obtain ⟨hcallee, hargs, -⟩ := Call.fields_of_bare hbare
        rcases origin_resolve h hc₀ with hold | hfields
        · exact .inl ⟨c₀, hold, hbare⟩
        · exact .inr ⟨_, _, List.mem_cons_self, by rw [hfields, hcallee, hargs]⟩
      · exact .inr ⟨u, site', List.mem_cons_of_mem _ hdeed, hfields⟩

/-- A pass learns the definitions that it comes to. -/
theorem Reads.find?_eq (h : Reads s t ds t') (name : Text) :
    t'.find? name = (t.find? name).or
      (firstDefinition (ds.filterMap fun q => q.2.definition?) name) := by
  induction h with
  | stop t => exact Option.or_none.symm
  | define d _ ih =>
      rw [ih, find?_define, Option.or_assoc, ← firstDefinition_cons]
      rfl
  | @call t _ _ _ site _ h _ ih =>
      have hfind := t.find?_resolve s site
      rw [h] at hfind
      rw [ih, hfind]
      rfl

end Table

/-- The functions that a pass makes: what it puts before the scopes that were pending. -/
def Pass.made (p : Pass) : List Pending :=
  p.expansion.1.pending.take (p.expansion.1.pending.length - p.table.pending.length)

/-- The functions that a run makes, as they are before any pass over them. -/
def Trace.made (r : Trace) : List Pending := r.passes.flatMap Pass.made

/-- A pass over a settled table makes one function for each record that gets its function. -/
theorem Pass.started_perm (p : Pass) (h : p.table.Settled) :
    p.after.started.Perm (p.made ++ p.table.started) := by
  obtain ⟨new, hpending, hstarted⟩ := p.expansion_moves.spawns h
  have hmade : p.made = new := by
    rw [made, hpending, List.length_append, Nat.add_sub_cancel]
    exact List.take_left
  obtain ⟨pending, hafter, -⟩ := p.after_eq
  rw [hmade, hafter]
  exact hstarted

namespace Leads

variable {sources : List Scope} {t t' : Table} {ps : List Pass}

/-- A record of a run is an old one or comes from a call that a pass met. -/
theorem origin (h : Leads sources t ps t') {c : Call} (hc : c ∈ t'.calls) :
    (∃ c₀ ∈ t.calls, c.bare = c₀.bare) ∨ ∃ p ∈ ps, ∃ u site, p.Meets u site c.callee c.args := by
  induction h with
  | stop t => exact .inl ⟨c, hc, rfl⟩
  | @step t t' p ps hstep _ ih =>
      rcases ih hc with ⟨c₀, hc₀, hbare⟩ | ⟨q, hq, hmeets⟩
      · obtain ⟨pending, hafter, -⟩ := p.after_eq
        rw [hafter] at hc₀
        rcases p.reads.origin hc₀ with ⟨c₁, hc₁, hbare₁⟩ | ⟨u, site, hdeed, hfields⟩
        · have hold : c₁ ∈ t.calls := by
            cases hstep with
            | source => exact hc₁
            | pending => exact hc₁
          exact .inl ⟨c₁, hold, hbare.trans hbare₁⟩
        · obtain ⟨hcallee, hargs, -⟩ := Call.fields_of_bare hbare
          rw [← hcallee, ← hargs] at hfields
          exact .inr ⟨p, List.mem_cons_self, u, site, hdeed, hfields⟩
      · exact .inr ⟨q, List.mem_cons_of_mem _ hq, hmeets⟩

/-- A run learns the definitions that its passes come to. -/
theorem find?_eq (h : Leads sources t ps t') (name : Text) :
    t'.find? name = (t.find? name).or (firstDefinition (ps.flatMap Pass.definitions) name) := by
  induction h with
  | stop t => exact Option.or_none.symm
  | @step t t' p ps hstep _ ih =>
      have htable : p.table.find? name = t.find? name := by
        cases hstep with
        | source => rfl
        | pending => rfl
      obtain ⟨pending, hafter, -⟩ := p.after_eq
      have hpass : p.after.find? name =
          (p.table.find? name).or (firstDefinition p.definitions name) := by
        rw [hafter]
        exact p.reads.find?_eq name
      rw [ih, hpass, htable, List.flatMap_cons, firstDefinition_append, Option.or_assoc]

/-- A run from a settled table makes one function for each record that gets its function. -/
theorem started_perm (h : Leads sources t ps t') (hsettled : t.Settled) :
    t'.started.Perm (ps.flatMap Pass.made ++ t.started) := by
  induction h with
  | stop t => exact .refl _
  | @step t t' p ps hstep _ ih =>
      have htable : p.table.Settled ∧ p.table.started = t.started := by
        cases hstep with
        | source => exact ⟨hsettled, rfl⟩
        | pending => exact ⟨hsettled, rfl⟩
      have hrest := ih (p.settled_after htable.1)
      have hpass := p.started_perm htable.1
      rw [htable.2] at hpass
      refine hrest.trans ((hpass.append_left _).trans ?_)
      rw [List.flatMap_cons, List.append_assoc]
      exact List.perm_append_comm_assoc _ _ _

end Leads

/-! ## Functions -/

section

variable {settings : Settings} {sources : List Scope}

/-- A reference written for a call in a run is the one of a record with the key of the call. -/
theorem exists_record_of_written {p : Pass} (hp : p ∈ (traceOf settings sources).passes) {t : Table}
    {site : CallSite} {callee : Text} {args : List Text} (hmeets : p.Meets t site callee args)
    {reference : Text}
    (h : (t.resolve p.work.scope site).2 = .ok ⟨[callLine site.lead reference], false⟩) :
    ∃ c ∈ (traceOf settings sources).table.calls,
      c.reference = reference ∧ c.key = Call.keyOf p.work.scope.ns callee args := by
  obtain ⟨callee', args', hfields, hcases⟩ := Table.resolve_ok (Prod.ext rfl h)
  obtain ⟨rfl, rfl⟩ := List.cons.inj (hmeets.2.symm.trans hfields)
  obtain ⟨c, hc, hkey, he⟩ | ⟨d, -, -, -, he⟩ := hcases
  · have hreference : reference = c.reference :=
      List.append_cancel_left (List.singleton_inj.mp (Expanded.mk.inj he).1)
    obtain ⟨c', hc', hbare⟩ := exists_bare_of_moves hp (p.reads.moves_resolve hmeets.1) hc
    exact ⟨c', hc', (Call.reference_of_bare hbare).trans hreference.symm,
      (Call.key_of_bare hbare).trans hkey⟩
  · cases (Expanded.mk.inj he).2

/-- The functions made in a run are those of its records. -/
theorem mem_made_iff {w : Pending} :
    w ∈ (traceOf settings sources).made ↔
      ∃ c ∈ (traceOf settings sources).table.calls,
        (traceOf settings sources).table.start? c = some w := by
  have hperm := (traceOf_leads settings sources).started_perm (settled_start settings)
  have hstart : Table.started (Stage.macros.start settings) = [] := rfl
  rw [hstart, List.append_nil] at hperm
  rw [Trace.made, ← hperm.mem_iff, Table.started, List.mem_filterMap]

/-- The records of a run, and the scopes that its passes expand, lie in the namespaces of its
sources. -/
theorem traceOf_within (settings : Settings) (good : Namespace → Prop)
    (h : ∀ s ∈ sources, good s.ns) :
    (∀ c ∈ (traceOf settings sources).table.calls, good c.ns) ∧
      ∀ p ∈ (traceOf settings sources).passes, good p.work.scope.ns := by
  have hfollows := traceOf_follows settings sources
  refine ⟨(hfollows.finish.within h (within_start good settings)).1, fun p hp => ?_⟩
  obtain ⟨t, hto, hstep, -⟩ := hfollows.step p hp
  exact (hstep.within h (hto.within h (within_start good settings))).1

/-- Unless the name of a macro that is called holds a NUL byte, the record that a call shares has
its macro and its arguments, and lies in a namespace of the same name. -/
theorem fields_of_key (hns : ∀ s ∈ sources, s.ns.Checked)
    (hnul : ∀ p ∈ (traceOf settings sources).passes, ∀ q ∈ p.deeds, ∀ callee ∈ q.2.callee?,
      0 ∉ callee)
    {c : Call} (hc : c ∈ (traceOf settings sources).table.calls) {p : Pass}
    (hp : p ∈ (traceOf settings sources).passes) {t : Table} {site : CallSite} {callee : Text}
    {args : List Text} (hmeets : p.Meets t site callee args)
    (hkey : c.key = Call.keyOf p.work.scope.ns callee args) :
    c.ns.name = p.work.scope.ns.name ∧ c.callee = callee ∧ c.args = args := by
  have hargs : ∀ {q : Pass} {u : Table} {site' : CallSite} {callee' : Text} {args' : List Text},
      q.Meets u site' callee' args' → ∀ a ∈ args', Text.IsField a := by
    intro q u site' callee' args' h a ha
    have hmem : a ∈ Text.fields site'.payload := h.2 ▸ List.mem_cons_of_mem _ ha
    exact (Text.isField_of_mem_fields hmem).1
  obtain ⟨hcalls, hpasses⟩ := traceOf_within settings Namespace.Checked hns
  -- the record was made for a call that was met too, so neither name holds a NUL byte
  rcases (traceOf_leads settings sources).origin hc with ⟨_, hnone, -⟩ | ⟨q, hq, u, site', hmeets'⟩
  · cases hnone
  · exact Call.keyOf_inj (hcalls c hc) (hpasses p hp) (hnul q hq _ hmeets'.1 _ hmeets'.callee?_eq)
      (hnul p hp _ hmeets.1 _ hmeets.callee?_eq) (hargs hmeets') (hargs hmeets) hkey

/-- No two records of a run have the same reference. -/
theorem eq_of_reference (hns : ∀ s ∈ sources, s.ns.Checked) {c c' : Call}
    (hc : c ∈ (traceOf settings sources).table.calls)
    (hc' : c' ∈ (traceOf settings sources).table.calls) (h : c.reference = c'.reference) :
    c = c' := by
  obtain ⟨hcalls, -⟩ := traceOf_within settings Namespace.Checked hns
  have hname := ((Namespace.reference_inj (hcalls c hc) (hcalls c' hc')).mp h).2
  have hnamed := (traceOf_follows settings sources).finish.named (named_start settings)
  exact List.inj_on_of_nodup_map hnamed.nodup hc hc' hname

end

/-- In a run of the macro stage the records of calls are numbered, have different keys and change
only when their function is made. A call whose key has a record is answered from it and changes
nothing. Unless the name of a macro that is called holds a NUL byte, the function behind a call is
in the namespace of the call, and its text is the first definition of the macro with the arguments
of the call. -/
theorem run_shares_calls (maxPasses : Int) (sources : List Scope) :
    let settings : Settings := { maxPasses }
    let o := Stage.macros.run settings sources
    let r := traceOf settings sources
    (o.state.2.scopes = r.yields ∧ o.verdict = Verdict.more.orFault r.fault ∧
      o.state.1.1 = r.table) ∧
    (∀ t ∈ r.moments,
      (∀ key c, t.call? key = some c ↔ c ∈ t.calls ∧ c.key = key) ∧
      (t.calls.map Call.key).Nodup ∧
      ∀ k c, t.calls[k]? = some c →
        c.scopeName = Anonymous.name (UInt32.ofNat (2 ^ 32 - 1 - k))) ∧
    r.moments.Pairwise Table.Evolves ∧
    (∀ p ∈ r.passes, ∀ t site callee args, p.Meets t site callee args →
      ∀ c ∈ t.calls, c.key = Call.keyOf p.work.scope.ns callee args →
        t.resolve p.work.scope site = (t, .ok ⟨[callLine site.lead c.reference], false⟩)) ∧
    (∀ c ∈ r.table.calls, c.generated = true → ∃ w ∈ r.made, w.scope.reference = c.reference) ∧
    ((∀ s ∈ sources, s.ns.Checked) →
      (∀ p ∈ r.passes, ∀ q ∈ p.deeds, ∀ callee ∈ q.2.callee?, 0 ∉ callee) →
      ∀ p ∈ r.passes, ∀ t site callee args reference, p.Meets t site callee args →
        (t.resolve p.work.scope site).2 = .ok ⟨[callLine site.lead reference], false⟩ →
        (∃ c ∈ r.table.calls, c.reference = reference ∧ c.callee = callee ∧ c.args = args) ∧
        ∀ w ∈ r.made, w.scope.reference = reference →
          w.scope.ns.name = p.work.scope.ns.name ∧
          ((∀ s ∈ sources, ∀ s' ∈ sources, s.ns.name = s'.ns.name → s.ns = s'.ns) →
            w.scope.ns = p.work.scope.ns) ∧
          ∃ d, firstDefinition (r.passes.flatMap Pass.definitions) callee = some d ∧
            w.scope.content = Text.unlines (d.expand args)) := by
  intro settings o r
  have hleads := traceOf_leads settings sources
  obtain ⟨hscopes, hverdict, -⟩ := run_macros settings sources
  have hat : ∀ t ∈ r.moments, t.Keyed ∧ t.Numbered .descending :=
    hleads.at_moments (fun hmoves hu => ⟨hmoves.keyed hu.1, hmoves.numbered hu.2⟩)
      (fun _ _ _ hu => ⟨hu.1, hu.2.direction, hu.2.last, hu.2.remaining, hu.2.name⟩)
      ⟨keyed_start settings, numbered_start settings⟩
  refine ⟨⟨hscopes, hverdict, run_macros_table settings sources⟩, ?_, ?_, ?_, ?_, ?_⟩
  · intro t ht
    obtain ⟨hkeyed, hnumbered⟩ := hat t ht
    exact ⟨fun _ _ => hkeyed.call?_eq_some_iff, hkeyed, fun _ _ hc => hnumbered.scopeName hc⟩
  · have hpairs := hleads.between_moments (R := Table.Evolves) (fun huv hvw => huv.trans hvw)
      (fun hmoves => hmoves.evolves) (fun _ _ _ => .of_calls_eq rfl)
    exact (List.pairwise_cons.mp hpairs).2
  · intro p hp t site callee args hmeets c hc hkey
    have ht : t ∈ r.moments := List.mem_append_left _
      (List.mem_flatMap.mpr ⟨p, hp, Pass.mem_moments_of_mem_deeds hmeets.1⟩)
    exact Table.resolve_of_known (hat t ht).1 hmeets.2 hc hkey
  · intro c hc hgenerated
    rw [settled_traceOf settings sources c hc, Option.isSome_iff_exists] at hgenerated
    obtain ⟨d, hfind⟩ := hgenerated
    refine ⟨⟨c.scope d, 0⟩, mem_made_iff.mpr ⟨c, hc, ?_⟩, rfl⟩
    rw [Table.start?, hfind]
    rfl
  · intro hns hnul p hp t site callee args reference hmeets hwritten
    obtain ⟨c, hc, rfl, hkey⟩ := exists_record_of_written hp hmeets hwritten
    obtain ⟨hname, rfl, rfl⟩ := fields_of_key hns hnul hc hp hmeets hkey
    refine ⟨⟨c, hc, rfl, rfl, rfl⟩, fun w hw hreference => ?_⟩
    obtain ⟨c', hc', hstart⟩ := mem_made_iff.mp hw
    obtain ⟨d, hfind, rfl⟩ := Option.map_eq_some_iff.mp hstart
    -- the function belongs to a record with the same reference, and there is only one
    obtain rfl : c' = c := eq_of_reference hns hc' hc hreference
    refine ⟨hname, fun hone => ?_, d, ?_, rfl⟩
    · obtain ⟨hcalls, hpasses⟩ := traceOf_within settings (fun ns => ∃ s ∈ sources, s.ns = ns)
        fun s hs => ⟨s, hs, rfl⟩
      obtain ⟨s, hs, hsns⟩ := hcalls c' hc'
      obtain ⟨s', hs', hsns'⟩ := hpasses p hp
      have heq : c'.ns = p.work.scope.ns := by
        rw [← hsns, ← hsns']
        exact hone s hs s' hs' (by rw [hsns, hsns', hname])
      exact heq
    · have hdefined := hleads.find?_eq c'.callee
      rw [show r.table.find? c'.callee = _ from hfind] at hdefined
      exact hdefined.symm

/-- The second scope calls the function that was made for the call in the first one, whose text is
the line of the definition with the argument in place of the parameter. -/
theorem run_shares_calls_forwardCall :
    let r := traceOf { maxPasses := (1 : Int) } forwardCall
    let site : CallSite := ⟨ascii "execute as @p run ", ascii " greet @a"⟩
    let reference := ascii "ns:_/ff/ff/ff/ff"
    (∀ s ∈ forwardCall, s.ns.Checked) ∧
    (∀ p ∈ r.passes, ∀ q ∈ p.deeds, ∀ callee ∈ q.2.callee?, 0 ∉ callee) ∧
    ∃ p ∈ r.passes, ∃ t, p.Meets t site (ascii "greet") [ascii "@a"] ∧
      (t.resolve p.work.scope site).2 = .ok ⟨[callLine site.lead reference], false⟩ ∧
      ∃ w ∈ r.made, w.scope.reference = reference ∧ w.scope.ns.name = p.work.scope.ns.name ∧
        w.scope.content = ascii "tell @a hi" ∧
        ∃ d, firstDefinition (r.passes.flatMap Pass.definitions) (ascii "greet") = some d ∧
          d.params = [ascii "who"] ∧ d.body = [ascii "tell who hi"] := by
  intro r site reference
  have hns : ∀ s ∈ forwardCall, s.ns.Checked := by
    unfold Namespace.Checked
    decide +kernel
  have hnul : ∀ p ∈ r.passes, ∀ q ∈ p.deeds, ∀ callee ∈ q.2.callee?, 0 ∉ callee := by
    decide +kernel
  have hcall : ∃ p ∈ r.passes, ∃ q ∈ p.deeds, q.2 = .call site ∧
      (q.1.resolve p.work.scope site).2 = .ok ⟨[callLine site.lead reference], false⟩ := by
    decide +kernel
  obtain ⟨p, hp, ⟨t, _⟩, hdeed, rfl, hwritten⟩ := hcall
  have hmeets : p.Meets t site (ascii "greet") [ascii "@a"] := ⟨hdeed, by decide +kernel⟩
  obtain ⟨-, -, -, -, -, hshares⟩ := run_shares_calls 1 forwardCall
  obtain ⟨-, hmade⟩ := hshares hns hnul p hp t site _ _ reference hmeets hwritten
  have hfunction : ∃ w ∈ r.made, w.scope.reference = reference := by decide +kernel
  obtain ⟨w, hw, hreference⟩ := hfunction
  obtain ⟨hname, -, d, hfirst, hcontent⟩ := hmade w hw hreference
  have hgreet : ∀ d ∈ firstDefinition (r.passes.flatMap Pass.definitions) (ascii "greet"),
      d.params = [ascii "who"] ∧ d.body = [ascii "tell who hi"] ∧
        Text.unlines (d.expand [ascii "@a"]) = ascii "tell @a hi" := by
    decide +kernel
  obtain ⟨hparams, hbody, htext⟩ := hgreet d hfirst
  exact ⟨hns, hnul, p, hp, t, hmeets, hwritten, w, hw, hreference, hname, hcontent.trans htext, d,
    hfirst, hparams, hbody⟩

end Packwright.Macro
