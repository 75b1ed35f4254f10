import Packwright.Proofs.Macro.Conservation
import Packwright.Proofs.Name
import Packwright.Proofs.Text

/-! # Every scope is handed on once

A run of the macro stage that ends without a fault hands on its source scopes and one function for
each call, and nothing else. The references that it writes into scopes are the references of these
functions, so no call is left without its function. Equal calls share a function only within a
namespace: a key holds the name of its namespace up to the first NUL byte, and no checked name holds
one.
-/

namespace Packwright.Macro

open Text (ascii)

namespace Table

variable {t t' : Table} {s : Scope}

/-- The calls and the pending scopes of a table lie in namespaces of one kind. -/
def Within (good : Namespace → Prop) (t : Table) : Prop :=
  (∀ c ∈ t.calls, good c.ns) ∧ ∀ w ∈ t.pending, good w.scope.ns

theorem within_define {good : Namespace → Prop} (h : Within good t) (d : Definition) :
    Within good (t.define d) := by
  obtain ⟨-, hcalls, hpending⟩ := t.entries_define d
  refine ⟨fun c hc => ?_, fun w hw => ?_⟩
  · obtain ⟨c', hc', hbare⟩ := hcalls c hc
    rw [← (Call.fields_of_bare hbare).2.2.1]
    exact h.1 c' hc'
  · rcases hpending w hw with hold | ⟨c, hc, rfl⟩
    · exact h.2 w hold
    · exact h.1 c hc

theorem within_record {good : Namespace → Prop} {callee : Text} {args : List Text} {c : Call}
    (h : Within good t) (hs : good s.ns) (hrecord : t.record s callee args = (t', .ok c)) :
    Within good t' := by
  obtain ⟨-, hcalls, hpending⟩ := entries_record hrecord
  obtain ⟨-, -, hc, -⟩ := record_eq hrecord
  have hns : good c.ns := by rw [hc]; exact hs
  refine ⟨fun c' hc' => ?_, fun w hw => ?_⟩
  · rcases hcalls c' hc' with hold | hbare
    · exact h.1 c' hold
    · rw [(Call.fields_of_bare hbare).2.2.1]
      exact hns
  · rcases hpending w hw with hold | ⟨d, -, rfl⟩
    · exact h.2 w hold
    · exact hns

theorem Moves.within {good : Namespace → Prop} (hmoves : Moves s t t') (hs : good s.ns)
    (h : Within good t) : Within good t' :=
  hmoves.invariant (fun _ d hu => within_define hu d)
    (fun hrecord hu => within_record hu hs hrecord) h

end Table

namespace Pass

theorem within_after {good : Namespace → Prop} (p : Pass) (hwork : good p.work.scope.ns)
    (h : p.table.Within good) : p.after.Within good := by
  obtain ⟨hcalls, hold⟩ := p.expansion_moves.within hwork h
  obtain ⟨pending, hafter, hpending⟩ := p.after_eq
  rw [hafter]
  refine ⟨hcalls, fun w hw => ?_⟩
  rcases hpending with rfl | ⟨e, -, rfl⟩
  · exact hold w hw
  · rcases List.mem_cons.mp hw with rfl | hw
    · exact hwork
    · exact hold w hw

end Pass

theorem Step.within {good : Namespace → Prop} {sources : List Scope} {t : Table} {p : Pass}
    (hstep : Step sources t p) (hsources : ∀ s ∈ sources, good s.ns) (h : t.Within good) :
    good p.work.scope.ns ∧ p.table.Within good := by
  cases hstep with
  | source hs => exact ⟨hsources _ hs, h⟩
  | pending hpending =>
      rw [Table.Within, hpending] at h
      exact ⟨h.2 _ List.mem_cons_self, h.1, fun w hw => h.2 w (List.mem_cons_of_mem _ hw)⟩

theorem Reaches.within {good : Namespace → Prop} {sources : List Scope} {t t' : Table}
    (hreaches : Reaches sources t t') (hsources : ∀ s ∈ sources, good s.ns) (h : t.Within good) :
    t'.Within good := by
  refine hreaches.invariant (fun {u p} hstep hu => ?_) h
  obtain ⟨hwork, htable⟩ := hstep.within hsources hu
  exact p.within_after hwork htable

theorem within_start (good : Namespace → Prop) (settings : Settings) :
    Table.Within good (Stage.macros.start settings) :=
  ⟨fun _ hc => (nomatch hc), fun _ hw => (nomatch hw)⟩

/-- The key of a call in a checked namespace tells the name of the namespace. -/
theorem Call.ns_name_of_key {ns ns' : Namespace} (h : ns.Checked) (h' : ns'.Checked)
    {callee callee' : Text} {args args' : List Text}
    (hkey : Call.keyOf ns callee args = Call.keyOf ns' callee' args') : ns.name = ns'.name := by
  have hnul : Name.isNameByte 0 = false := by decide
  simp only [Call.keyOf, List.append_assoc, List.singleton_append] at hkey
  exact ((Text.append_cons_inj (h.not_mem hnul) (h'.not_mem hnul)).mp hkey).1

/-- Where the macro that is called has no NUL byte in its name, the key of a call tells what is
called, and where. -/
theorem Call.keyOf_inj {ns ns' : Namespace} (h : ns.Checked) (h' : ns'.Checked)
    {callee callee' : Text} {args args' : List Text} (hcallee : 0 ∉ callee) (hcallee' : 0 ∉ callee')
    (hargs : ∀ a ∈ args, Text.IsField a) (hargs' : ∀ a ∈ args', Text.IsField a)
    (hkey : Call.keyOf ns callee args = Call.keyOf ns' callee' args') :
    ns.name = ns'.name ∧ callee = callee' ∧ args = args' := by
  have hname := Call.ns_name_of_key h h' hkey
  simp only [Call.keyOf, hname, List.append_assoc, List.append_cancel_left_eq,
    List.cons_append, List.nil_append, List.cons.injEq, true_and] at hkey
  obtain ⟨hc, hjoin⟩ := (Text.append_cons_inj hcallee hcallee').mp hkey
  exact ⟨hname, hc, Text.join_space_inj hargs hargs' hjoin⟩

/-- The reference written for a call is the one of a call in the table after it, made in a namespace
of the same name. -/
theorem Table.written_mem {t t' : Table} {s : Scope} {site : CallSite} {r : Text}
    (hs : s.ns.Checked) (hcalls : ∀ c ∈ t'.calls, c.ns.Checked)
    (h : t.resolve s site = (t', .ok ⟨[callLine site.lead r], false⟩)) :
    ∃ c ∈ t'.calls, c.reference = r ∧ c.ns.name = s.ns.name := by
  obtain ⟨callee, args, -, ⟨c, hc, hkey, he⟩ | ⟨d, -, -, -, he⟩⟩ := resolve_ok h
  · obtain ⟨hline, -⟩ := Expanded.mk.inj he
    have hr : r = c.reference := List.append_cancel_left (List.singleton_inj.mp hline)
    exact ⟨c, hc, hr.symm, Call.ns_name_of_key (hcalls c hc) hs hkey⟩
  · cases (Expanded.mk.inj he).2

/-- A pass writes a reference in place of a call. -/
def Pass.Writes (p : Pass) (r : Text) : Prop :=
  ∃ q ∈ p.resolutions, (q.1.resolve p.work.scope q.2).2 = .ok ⟨[callLine q.2.lead r], false⟩

/-- A list can be put in the order of any permutation of its images, and divided as that is. -/
theorem exists_perm_map_eq {α β : Type} {f : α → β} {as : List α} {bs cs : List β}
    (h : (as.map f).Perm (bs ++ cs)) :
    ∃ as₁ as₂ : List α, (as₁ ++ as₂).Perm as ∧ as₁.map f = bs ∧ as₂.map f = cs := by
  have hgraph : List.Forall₂ (fun b a => b = f a) (as.map f) as := by
    rw [List.forall₂_map_left_iff, List.forall₂_same]
    exact fun _ _ => rfl
  obtain ⟨as', hrel, hperm⟩ := List.perm_comp_forall₂ h.symm hgraph
  rw [← List.forall₂_map_right_iff, List.forall₂_eq_eq_eq] at hrel
  obtain ⟨as₁, as₂, rfl, hbs, hcs⟩ := List.map_eq_append_iff.mp hrel.symm
  exact ⟨as₁, as₂, hperm, hbs, hcs⟩

/-- A partial function that is defined on a list gives one value for each member. -/
theorem forall₂_filterMap {α β : Type} {f : α → Option β} {as : List α}
    (h : ∀ a ∈ as, (f a).isSome) : List.Forall₂ (fun a b => f a = some b) as (as.filterMap f) := by
  induction as with
  | nil => exact .nil
  | cons a rest ih =>
      obtain ⟨b, hb⟩ := Option.isSome_iff_exists.mp (h a List.mem_cons_self)
      rw [List.filterMap_cons, hb]
      exact .cons hb (ih fun a' ha' => h a' (List.mem_cons_of_mem _ ha'))

theorem exists_zip_of_forall₂ {α β : Type} {R : α → β → Prop} {as : List α} {bs : List β}
    (h : List.Forall₂ R as bs) {a : α} (ha : a ∈ as) : ∃ b, (a, b) ∈ as.zip bs ∧ R a b := by
  induction h with
  | nil => cases ha
  | cons hab _ ih =>
      rcases List.mem_cons.mp ha with rfl | ha
      · exact ⟨_, List.mem_cons_self, hab⟩
      · obtain ⟨b, hb, hrel⟩ := ih ha
        exact ⟨b, List.mem_cons_of_mem _ hb, hrel⟩

theorem exists_left_of_forall₂ {α β : Type} {R : α → β → Prop} {as : List α} {bs : List β}
    (h : List.Forall₂ R as bs) {b : β} (hb : b ∈ bs) : ∃ a ∈ as, R a b := by
  have hflip : List.Forall₂ (flip R) bs as := h.flip
  obtain ⟨a, hmem, hrel⟩ := exists_zip_of_forall₂ hflip hb
  exact ⟨a, (List.of_mem_zip hmem).2, hrel⟩

theorem forall₂_imp_of_mem {α β : Type} {R S : α → β → Prop} {as : List α} {bs : List β}
    (h : List.Forall₂ R as bs) (himp : ∀ a ∈ as, ∀ b ∈ bs, R a b → S a b) :
    List.Forall₂ S as bs := by
  rw [List.forall₂_iff_zip] at h ⊢
  refine ⟨h.1, fun hmem => ?_⟩
  obtain ⟨ha, hb⟩ := List.of_mem_zip hmem
  exact himp _ ha _ hb (h.2 hmem)

/-- A run without a fault leaves no call without its function. -/
theorem traceOf_start? {settings : Settings} {sources : List Scope}
    (h : (traceOf settings sources).fault = none) :
    ∀ c ∈ (traceOf settings sources).table.calls,
      ((traceOf settings sources).table.start? c).isSome := by
  intro c hc
  have hunresolved := (Table.trace_finished _ sources h).2
  rw [Table.unresolved, Option.map_eq_none_iff, List.find?_eq_none] at hunresolved
  rw [Table.start?, Option.isSome_map, ← settled_traceOf settings sources c hc]
  simpa using hunresolved c hc

/-- The lives of a run without a fault are those of its source scopes and of the functions of its
calls. -/
theorem traceOf_lives {settings : Settings} {sources : List Scope}
    (h : (traceOf settings sources).fault = none) :
    ∃ ofSources ofCalls : List Life,
      ((ofSources ++ ofCalls).map Life.finish).Perm (traceOf settings sources).yields ∧
      ((ofSources ++ ofCalls).flatMap Life.passes).Perm (traceOf settings sources).passes ∧
      List.Forall₂ (fun s l => l.start = ⟨s, 0⟩) sources ofSources ∧
      List.Forall₂ (fun c l => (traceOf settings sources).table.start? c = some l.start)
        (traceOf settings sources).table.calls ofCalls := by
  obtain ⟨lives, left, new, hstarts, hstarted, hfinish, hend⟩ :=
    Table.trace_accounts _ none sources (settled_start settings)
  obtain ⟨rfl, hpasses⟩ := hend h
  have hnew : new.Perm (traceOf settings sources).table.started := hstarted.symm
  rw [List.append_nil] at hstarts
  obtain ⟨ofSources, ofCalls, hperm, hsources, hcalls⟩ :=
    exists_perm_map_eq (hstarts.trans (hnew.append_left _))
  refine ⟨ofSources, ofCalls, (hperm.map _).trans hfinish, (hperm.flatMap_right _).trans hpasses,
    ?_, ?_⟩
  · have hstart : ofSources.map Life.start = sources.map (⟨·, 0⟩) :=
      hsources.trans (List.append_nil _)
    rw [← List.forall₂_map_right_iff (R := fun s w => w = Pending.mk s 0), hstart,
      List.forall₂_map_right_iff, List.forall₂_same]
    exact fun _ _ => rfl
  · have hall := forall₂_filterMap (traceOf_start? h)
    rw [← Table.started, ← hcalls, List.forall₂_map_right_iff] at hall
    exact hall

/-- A call that is known in a pass of a run is known at the end of the run. -/
theorem exists_bare_of_moves {settings : Settings} {sources : List Scope} {p : Pass}
    (hp : p ∈ (traceOf settings sources).passes) {t : Table}
    (hmoves : Table.Moves p.work.scope t p.expansion.1) {c : Call} (hc : c ∈ t.calls) :
    ∃ c' ∈ (traceOf settings sources).table.calls, c'.bare = c.bare := by
  obtain ⟨_, -, -, hfrom⟩ := (traceOf_follows settings sources).step p hp
  obtain ⟨c₁, hc₁, hbare₁⟩ := hmoves.extends.mem_calls hc
  obtain ⟨pending, hafter, -⟩ := p.after_eq
  have hmem : c₁ ∈ p.after.calls := by
    rw [hafter]
    exact hc₁
  obtain ⟨c', hc', hbare⟩ := hfrom.extends.mem_calls hmem
  exact ⟨c', hc', hbare.trans hbare₁⟩

/-- A reference written in a run is the one of a call that is known at its end. -/
theorem traceOf_writes {settings : Settings} {sources : List Scope}
    (hsources : ∀ s ∈ sources, s.ns.Checked) {p : Pass} (hp : p ∈ (traceOf settings sources).passes)
    {r : Text} (hwrites : p.Writes r) :
    ∃ c ∈ (traceOf settings sources).table.calls,
      c.reference = r ∧ c.ns.name = p.work.scope.ns.name := by
  obtain ⟨t, hto, hstep, -⟩ := (traceOf_follows settings sources).step p hp
  obtain ⟨hwork, htable⟩ := hstep.within hsources (hto.within hsources (within_start _ settings))
  obtain ⟨q, hq, hwritten⟩ := hwrites
  obtain ⟨hbefore, hafter⟩ := Table.resolutions_moves _ _ _ q hq
  have hresolve := q.1.resolve_moves p.work.scope q.2
  have hcalls := (hresolve.within hwork (hbefore.within hwork htable)).1
  obtain ⟨c, hc, hr, hname⟩ := Table.written_mem hwork hcalls (Prod.ext rfl hwritten)
  obtain ⟨c', hc', hbare⟩ := exists_bare_of_moves hp hafter hc
  obtain ⟨-, -, hns, -⟩ := Call.fields_of_bare hbare
  exact ⟨c', hc', (Call.reference_of_bare hbare).trans hr, hns ▸ hname⟩

theorem start?_ns {t : Table} {c : Call} {w : Pending} (h : t.start? c = some w) :
    w.scope.ns = c.ns ∧ w.scope.name = c.scopeName := by
  obtain ⟨d, -, rfl⟩ := Option.map_eq_some_iff.mp h
  exact ⟨rfl, rfl⟩

/-- A run of the macro stage that ends without a fault leaves nothing pending. It hands on one scope
for each source scope and one for each call, under their own names, and the references written into
a scope are those of functions of calls in its namespace. -/
theorem run_conserves_scopes (settings : Settings) (sources : List Scope)
    (hns : ∀ s ∈ sources, s.ns.Checked)
    (hend : (Stage.macros.run settings sources).verdict = .more) :
    let o := Stage.macros.run settings sources
    let table : Table := o.state.1.1
    table.pending = [] ∧ ∃ ofSources ofCalls : List Life,
      o.state.2.scopes.Perm ((ofSources ++ ofCalls).map Life.finish) ∧
      ((ofSources ++ ofCalls).flatMap Life.passes).Perm (traceOf settings sources).passes ∧
      List.Forall₂ (fun s l => l.start = ⟨s, 0⟩ ∧ l.finish.ns = s.ns ∧ l.finish.name = s.name)
        sources ofSources ∧
      List.Forall₂ (fun c l => table.start? c = some l.start ∧ l.finish.ns = c.ns ∧
        l.finish.name = c.scopeName) table.calls ofCalls ∧
      ∀ l ∈ ofSources ++ ofCalls, ∀ p ∈ l.passes, ∀ r, p.Writes r →
        ∃ g ∈ ofCalls, g.finish.reference = r ∧ g.finish.ns.name = l.finish.ns.name := by
  intro o table
  obtain ⟨hscopes, -, htable⟩ := run_macros settings sources
  have hfault := traceOf_fault_eq_none hend
  have htable : table = (traceOf settings sources).table := htable hend
  obtain ⟨ofSources, ofCalls, hfinish, hpasses, hsources, hcalls⟩ := traceOf_lives hfault
  rw [← htable] at hcalls
  have hcalls : List.Forall₂ (fun c l => table.start? c = some l.start ∧ l.finish.ns = c.ns ∧
      l.finish.name = c.scopeName) table.calls ofCalls := by
    refine hcalls.imp fun c l hstart => ⟨hstart, ?_⟩
    obtain ⟨hfns, hfname⟩ := l.chain.finish_ns
    obtain ⟨hwns, hwname⟩ := start?_ns hstart
    exact ⟨hfns.trans hwns, hfname.trans hwname⟩
  have hpending : table.pending = [] := htable ▸ (Table.trace_finished _ sources hfault).1
  refine ⟨hpending, ofSources, ofCalls, ?_, hpasses, ?_, hcalls, ?_⟩
  · exact (hscopes ▸ hfinish).symm
  · refine hsources.imp fun s l hstart => ⟨hstart, ?_⟩
    have hfinish := l.chain.finish_ns
    rwa [hstart] at hfinish
  · intro l hl p hp r hwrites
    have hmem := hpasses.mem_iff.mp (List.mem_flatMap.mpr ⟨l, hl, hp⟩)
    obtain ⟨c, hc, rfl, hname⟩ := traceOf_writes hns hmem hwrites
    rw [← htable] at hc
    obtain ⟨g, hg, -, hgns, hgname⟩ := exists_zip_of_forall₂ hcalls hc
    refine ⟨g, (List.of_mem_zip hg).2, congrArg₂ Namespace.reference hgns hgname, ?_⟩
    rw [hgns, hname, (l.chain.pass_ns p hp).1, l.chain.finish_ns.1]

/-- Scopes of one namespace: the first calls a macro that the second defines, puts in place and
calls behind another command. -/
def forwardCall : List Scope :=
  let ns : Namespace := ⟨{ path := ascii "packs/p", name := ascii "p" }, ascii "ns"⟩
  [⟨ns, ascii "early", ascii "call greet @a\nsay done"⟩,
    ⟨ns, ascii "late", Text.unlines [ascii "generate function greet who", ascii "\ttell who hi",
      ascii "call greet @s", ascii "execute as @p run call greet @a"]⟩]

theorem run_conserves_scopes_forwardCall :
    (∀ s ∈ forwardCall, s.ns.Checked) ∧ (Stage.macros.run {} forwardCall).verdict = .more ∧
      ∃ ofSources ofCalls : List Life, ofSources.length = 2 ∧ ofCalls.length = 1 ∧
        (Stage.macros.run {} forwardCall).state.2.scopes.Perm
          ((ofSources ++ ofCalls).map Life.finish) := by
  have hns : ∀ s ∈ forwardCall, s.ns.Checked := by
    unfold Namespace.Checked
    decide +kernel
  have hend : (Stage.macros.run {} forwardCall).verdict = .more := by decide +kernel
  obtain ⟨-, ofSources, ofCalls, hscopes, -, hsources, hcalls, -⟩ :=
    run_conserves_scopes {} forwardCall hns hend
  have hone : (Stage.macros.run {} forwardCall).state.1.1.calls.length = 1 := by decide +kernel
  exact ⟨hns, hend, ofSources, ofCalls, hsources.length_eq.symm,
    hcalls.length_eq.symm.trans hone, hscopes⟩

end Packwright.Macro
