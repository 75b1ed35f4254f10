import Packwright.Proofs.Macro.Inlining

/-! # No pass makes an empty line

The lines of bodies lose tabs, get arguments and are put behind the leads of calls. Arguments are
fields, so they show something, and a line that shows something does so after all this. So if all
source lines do, all lines of the scopes that the macro stage hands on do (`yields_shown`).
-/

namespace Packwright.Macro

open Text (Shown Token MadeOf)

theorem shown_passArguments {line : Text} (h : Shown line) (params : List Text) {args : List Text}
    (hargs : ∀ a ∈ args, Token a) : Shown (passArguments params args line) := by
  have hpairs : ∀ pair ∈ params.zip args, Token pair.2 :=
    fun pair hpair => hargs _ (List.of_mem_zip hpair).2
  refine ⟨fun hmem => ?_,
    exists_mem_passFrom (fun pair hpair => (hpairs pair hpair).ink) false h.ink⟩
  rcases mem_passFrom hmem with hline | ⟨pair, hpair, harg⟩
  · exact h.newline hline
  · exact (hpairs pair hpair).newline harg

theorem Definition.shown_expand {d : Definition} {args : List Text}
    (hbody : ∀ line ∈ d.body, Shown line) (hargs : ∀ a ∈ args, Token a) :
    ∀ line ∈ d.expand args, Shown line := by
  intro line hline
  obtain ⟨l, hl, rfl⟩ := List.mem_map.mp hline
  exact shown_passArguments (hbody l hl) d.params hargs

/-! ## Tables -/

namespace Table

variable {t t' : Table} {s : Scope}

/-- All lines that a table can put into a scope or make a scope of show something. -/
structure Shows (t : Table) : Prop where
  definitions : ∀ d ∈ t.definitions, ∀ line ∈ d.body, Shown line
  calls : ∀ c ∈ t.calls, ∀ a ∈ c.args, Token a
  pending : ∀ w ∈ t.pending, ∀ line ∈ w.scope.lines, Shown line

theorem shown_scope {c : Call} {d : Definition} (hbody : ∀ line ∈ d.body, Shown line)
    (hargs : ∀ a ∈ c.args, Token a) : ∀ line ∈ (c.scope d).lines, Shown line :=
  Text.shown_of_mem_lines ⟨_, Definition.shown_expand hbody hargs, rfl⟩

theorem shows_define (h : t.Shows) {d : Definition} (hd : ∀ line ∈ d.body, Shown line) :
    (t.define d).Shows := by
  obtain ⟨hdefinitions, hcalls, hpending⟩ := t.entries_define d
  refine ⟨fun d' hd' => ?_, fun c hc => ?_, fun w hw => ?_⟩
  · rcases hdefinitions d' hd' with hold | rfl
    · exact h.definitions d' hold
    · exact hd
  · obtain ⟨c', hc', hbare⟩ := hcalls c hc
    rw [← (Call.fields_of_bare hbare).2.1]
    exact h.calls c' hc'
  · rcases hpending w hw with hold | ⟨c, hc, rfl⟩
    · exact h.pending w hold
    · exact shown_scope hd (h.calls c hc)

theorem shows_record {callee : Text} {args : List Text} {c : Call} (h : t.Shows)
    (hargs : ∀ a ∈ args, Token a) (hrecord : t.record s callee args = (t', .ok c)) : t'.Shows := by
  obtain ⟨hdefinitions, hcalls, hpending⟩ := entries_record hrecord
  obtain ⟨-, -, hc, -⟩ := record_eq hrecord
  have hown : ∀ a ∈ c.args, Token a := by
    rw [hc]
    exact hargs
  refine ⟨hdefinitions ▸ h.definitions, fun c' hc' => ?_, fun w hw => ?_⟩
  · rcases hcalls c' hc' with hold | hbare
    · exact h.calls c' hold
    · rw [(Call.fields_of_bare hbare).2.1]
      exact hown
  · rcases hpending w hw with hold | ⟨d, hd, rfl⟩
    · exact h.pending w hold
    · exact shown_scope (h.definitions d hd) hown

theorem shows_resolve (h : t.Shows) {site : CallSite} {answer : Except Fault Expanded}
    (hresolve : t.resolve s site = (t', answer)) : t'.Shows := by
  cases resolves_of_resolve hresolve with
  | empty | known | inlined => exact h
  | recorded hfields _ hrecord =>
      refine shows_record h (fun a ha => ?_) hrecord
      exact Text.token_of_mem_fields (hfields ▸ List.mem_cons_of_mem _ ha)
  | exhausted _ hrecord =>
      obtain rfl : t' = t := record_error hrecord
      exact h

theorem shows_expandLines (h : t.Shows) {lines : List Text} (hlines : ∀ line ∈ lines, Shown line) :
    (t.expandLines s lines).1.Shows := by
  fun_induction expandLines t s lines with
  | case1 => exact h
  | case2 => exact h
  | case3 t line rest name params hheader depth isBody ih =>
      rw [List.forall_mem_cons] at hlines
      refine ih (shows_define h ?_) fun l hl => ?_
      · refine Definition.forall_mem_read (fun hn hl => hl.drop hn) fun l hl => ?_
        exact hlines.2 l (List.takeWhile_subset _ hl)
      · exact hlines.2 l (List.dropWhile_subset _ hl)
  | case4 t line rest hheader hsite t₁ result hrest ih =>
      rw [hrest] at ih
      exact ih h (List.forall_mem_cons.mp hlines).2
  | case5 t line rest hheader site hsite t₁ fault hresolve => exact shows_resolve h hresolve
  | case6 t line rest hheader site hsite t₁ y hresolve t₂ result hrest ih =>
      rw [hrest] at ih
      exact ih (shows_resolve h hresolve) (List.forall_mem_cons.mp hlines).2

theorem LineOrigin.shown {references : List Text} {xs : List Inlining} {lines : List Text}
    {l : Text} (h : LineOrigin references xs lines l) (hlines : ∀ line ∈ lines, Shown line)
    (hreferences : ∀ r ∈ references, Token r)
    (hbodies : ∀ x ∈ xs, ∀ line ∈ x.definition.body, Shown line) : Shown l := by
  have hlead : ∀ {line : Text} {site : CallSite}, line ∈ lines →
      CallSite.parse? line = some site → Text.newline ∉ site.lead := by
    intro line site hline hsite hmem
    refine (hlines line hline).newline ?_
    rw [(Lead.of_parse? hsite).1, List.append_assoc]
    exact List.mem_append_left _ hmem
  cases h with
  | kept hline => exact hlines l hline
  | written hline hsite hr =>
      have hr := hreferences _ hr
      obtain ⟨b, hb, hink⟩ := hr.ink
      exact ⟨newline_not_mem_callLine (hlead hline hsite) hr.newline, b,
        List.mem_append_right _ hb, hink⟩
  | inlined hline hsite hx hfields hl =>
      refine Shown.append_left (Definition.shown_expand (hbodies _ hx) (fun a ha => ?_) _ hl)
        (hlead hline hsite)
      exact Text.token_of_mem_fields (hfields ▸ List.mem_cons_of_mem _ ha)

end Table

/-! ## Passes -/

theorem Call.Proper.token {c : Call} (h : c.Proper) : Token c.reference := by
  obtain ⟨hns, id, hid⟩ := h
  rw [Call.reference, hid]
  exact hns.token_reference fun b hb => Anonymous.plain_of_mem hb

namespace Pass

variable {p : Pass}

theorem shown_expansion (h : p.table.Shows) (hwork : ∀ line ∈ p.work.scope.lines, Shown line)
    (hproper : ∀ c ∈ p.expansion.1.calls, c.Proper) {t : Table} {e : Expanded}
    (hexp : p.expansion = (t, .ok e)) : ∀ l ∈ e.lines, Shown l := by
  have hshows : t.Shows := by
    have hall := Table.shows_expandLines (s := p.work.scope) h hwork
    rw [show p.table.expandLines _ _ = _ from hexp] at hall
    exact hall
  rw [hexp] at hproper
  intro l hl
  refine (Table.lineOrigin_expandLines hexp l hl).shown (fun line hline => ?_) (fun r hr => ?_)
    fun x hx => ?_
  · exact hwork line (commandsIn_subset _ hline)
  · obtain ⟨c, hc, rfl⟩ := List.mem_map.mp hr
    exact (hproper c hc).token
  · have hd := Table.definition_of_mem_inlinings hx
    rw [show p.table.expandLines _ _ = _ from hexp] at hd
    exact hshows.definitions _ hd

theorem shows_after (h : p.table.Shows) (hwork : ∀ line ∈ p.work.scope.lines, Shown line)
    (hproper : ∀ c ∈ p.expansion.1.calls, c.Proper) : p.after.Shows := by
  have hall : p.expansion.1.Shows := Table.shows_expandLines h hwork
  obtain ⟨pending, hafter, hpending⟩ := p.after_eq
  rw [hafter]
  refine ⟨hall.definitions, hall.calls, fun w hw => ?_⟩
  rcases hpending with rfl | ⟨e, he, rfl⟩
  · exact hall.pending w hw
  · rcases List.mem_cons.mp hw with rfl | hw
    · have hlines := shown_expansion h hwork hproper (Prod.ext rfl he)
      exact Text.shown_of_mem_lines ⟨e.lines, hlines, rfl⟩
    · exact hall.pending w hw

end Pass

section Sources

variable {settings : Settings} {sources : List Scope} (hns : ∀ s ∈ sources, s.ns.Checked)
  (hlines : ∀ s ∈ sources, ∀ line ∈ s.lines, Shown line)

theorem Step.shows {t : Table} {p : Pass} (hstep : Step sources t p)
    (hlines : ∀ s ∈ sources, ∀ line ∈ s.lines, Shown line) (h : t.Shows) :
    p.table.Shows ∧ ∀ line ∈ p.work.scope.lines, Shown line := by
  cases hstep with
  | source hs => exact ⟨h, hlines _ hs⟩
  | pending hpending =>
      have hall := h.pending
      rw [hpending, List.forall_mem_cons] at hall
      exact ⟨⟨h.definitions, h.calls, hall.2⟩, hall.1⟩

include hns hlines

theorem Reaches.shows {t : Table} (h : Reaches sources (Stage.macros.start settings) t) :
    t.Shows := by
  induction h with
  | refl => exact ⟨fun _ hd => (nomatch hd), fun _ hc => (nomatch hc), fun _ hw => (nomatch hw)⟩
  | tail hto hnext ih =>
      obtain ⟨p, hstep, rfl⟩ := hnext
      obtain ⟨htable, hwork⟩ := hstep.shows hlines ih
      exact Pass.shows_after htable hwork (hstep.proper hto hns)

/-- Wherever a run over scopes ends whose lines all show something, the lines of the scopes that it
handed on do. -/
theorem yields_shown (fault : Option Fault) :
    ∀ z ∈ (Table.trace (Stage.macros.start settings) fault sources).yields,
      MadeOf Shown z.content := by
  intro z hz
  obtain ⟨p, hp, hfinished⟩ := List.mem_filterMap.mp hz
  obtain ⟨t, hto, hstep, -⟩ := (Table.trace_follows (Stage.macros.start settings) fault sources
    (settled_start settings)).step p hp
  obtain ⟨htable, hwork⟩ := hstep.shows hlines (hto.shows hns hlines)
  obtain ⟨t', e, hexp, -, rfl⟩ := Pass.expansion_of_finished? hfinished
  exact ⟨e.lines, Pass.shown_expansion htable hwork (hstep.proper hto hns) hexp, rfl⟩

end Sources

end Packwright.Macro
