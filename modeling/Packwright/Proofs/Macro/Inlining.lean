import Packwright.Proofs.Macro.Entry

/-! # Bodies in place of calls

A pass over a scope puts the bodies of macros in place of their calls, and calls of functions in
place of the others. A function call calls no macro, and a body stands behind the lead of the call
as if it stood alone. So the lines that a pass leaves call no macro but those that the bodies put in
call (`Pass.next_calls`), whatever carriage returns are lost when they are read again.
-/

namespace Packwright.Macro

/-! ## Bodies put in place of calls -/

/-- A body that is put in place of a call: the macro and the arguments passed to it. -/
structure Inlining where
  definition : Definition
  args : List Text
  deriving DecidableEq, Repr

/-- The lines that are put in place of the call. -/
def Inlining.lines (x : Inlining) : List Text := x.definition.expand x.args

namespace Table

variable {t t' : Table} {s : Scope} {site : CallSite} {e : Expanded}

/-- The body that is put in place of a call, if one is. -/
def inlining? (t : Table) (s : Scope) (site : CallSite) : Option Inlining :=
  match (t.resolve s site).2, Text.fields site.payload with
  | .ok ⟨_, true⟩, callee :: args => (t.find? callee).map (⟨·, args⟩)
  | _, _ => none

/-- The bodies that a pass over lines puts in place of calls, in order. -/
def inlinings (t : Table) (s : Scope) (lines : List Text) : List Inlining :=
  (t.resolutions s lines).filterMap fun q => q.1.inlining? s q.2

theorem of_find? {name : Text} {d : Definition} (h : t.find? name = some d) :
    d ∈ t.definitions ∧ d.name = name :=
  ⟨List.mem_of_find?_eq_some h, eq_of_beq (List.find?_some h :)⟩

/-- The body put in place of a call is that of the macro called, and gets the arguments passed. -/
theorem fields_of_inlining? {x : Inlining} (h : t.inlining? s site = some x) :
    Text.fields site.payload = x.definition.name :: x.args ∧ x.definition ∈ t.definitions := by
  unfold inlining? at h
  split at h
  next callee args _ hfields =>
    obtain ⟨d, hfind, rfl⟩ := Option.map_eq_some_iff.mp h
    obtain ⟨hd, hname⟩ := of_find? hfind
    exact ⟨by rw [hfields, hname], hd⟩
  next => cases h

/-- A call that is resolved becomes the call of a function, or a body is put in its place. -/
theorem resolve_inlining (h : t.resolve s site = (t', .ok e)) :
    (∃ c ∈ t'.calls, e = ⟨[callLine site.lead c.reference], false⟩) ∨
      ∃ x, t.inlining? s site = some x ∧ e = ⟨x.lines.map (site.lead ++ ·), true⟩ := by
  obtain ⟨callee, args, hfields, ⟨c, hc, -, rfl⟩ | ⟨d, hfind, -, -, rfl⟩⟩ := resolve_ok h
  · exact .inl ⟨c, hc, rfl⟩
  · refine .inr ⟨⟨d, args⟩, ?_, rfl⟩
    rw [inlining?, h, hfields]
    simp [hfind]

section

variable {line : Text} {rest : List Text}

theorem inlinings_define {name : Text} {params : List Text}
    (hheader : Header.parse? line = some ⟨some name, params⟩) :
    let isBody (l : Text) : Bool := Text.indent line < Text.indent l
    t.inlinings s (line :: rest) =
      (t.define (.read s.reference name params (Text.indent line)
        (rest.takeWhile isBody))).inlinings s (rest.dropWhile isBody) := by
  intro isBody
  rw [inlinings, resolutions_define hheader]
  rfl

theorem inlinings_plain (hheader : Header.parse? line = none)
    (hsite : CallSite.parse? line = none) :
    t.inlinings s (line :: rest) = t.inlinings s rest := by
  rw [inlinings, resolutions_plain hheader hsite]
  rfl

theorem inlinings_call (hheader : Header.parse? line = none)
    (hsite : CallSite.parse? line = some site) (hresolve : t.resolve s site = (t', .ok e)) :
    t.inlinings s (line :: rest) = (t.inlining? s site).toList ++ t'.inlinings s rest := by
  rw [inlinings, resolutions_call hheader hsite hresolve, List.filterMap_cons]
  cases t.inlining? s site with
  | none => rfl
  | some x => rfl

end

/-- The calls that a pass over lines resolves stand in these lines, outside definitions. -/
theorem parse?_of_mem_resolutions {lines : List Text} {q : Table × CallSite}
    (hq : q ∈ t.resolutions s lines) :
    ∃ line ∈ commandsIn lines, Header.parse? line = none ∧ CallSite.parse? line = some q.2 := by
  obtain ⟨u, site⟩ := q
  rw [mem_resolutions] at hq
  fun_induction deeds t s lines with
  | case1 => cases hq
  | case2 => cases hq
  | case3 t line rest name params hheader depth =>
      rename_i isBody d ih
      rw [commandsIn]
      simp only [hheader]
      rcases List.mem_cons.mp hq with heq | hq
      · cases heq
      · exact ih hq
  | case4 t line rest hheader hsite ih =>
      rw [commandsIn]
      simp only [hheader]
      obtain ⟨l, hl, hparse⟩ := ih hq
      exact ⟨l, List.mem_cons_of_mem _ hl, hparse⟩
  | case5 t line rest hheader site hsite t' fault h =>
      rw [commandsIn]
      simp only [hheader]
      cases List.mem_singleton.mp hq
      exact ⟨line, List.mem_cons_self, hheader, hsite⟩
  | case6 t line rest hheader site hsite t' e h ih =>
      rw [commandsIn]
      simp only [hheader]
      rcases List.mem_cons.mp hq with heq | hq
      · cases heq
        exact ⟨line, List.mem_cons_self, hheader, hsite⟩
      · obtain ⟨l, hl, hparse⟩ := ih hq
        exact ⟨l, List.mem_cons_of_mem _ hl, hparse⟩

/-- The macros whose bodies a pass over lines puts in are called in these lines, outside
definitions. -/
theorem called_of_mem_inlinings {lines : List Text} {x : Inlining} (hx : x ∈ t.inlinings s lines) :
    ∃ line ∈ commandsIn lines, callee? line = some x.definition.name := by
  obtain ⟨q, hq, hinlining⟩ := List.mem_filterMap.mp hx
  obtain ⟨line, hline, -, hparse⟩ := parse?_of_mem_resolutions hq
  refine ⟨line, hline, ?_⟩
  rw [callee?, hparse, Option.bind_some, (fields_of_inlining? hinlining).1]
  rfl

/-- The bodies that a pass over lines puts in are those of macros that it knows at its end. -/
theorem definition_of_mem_inlinings {lines : List Text} {x : Inlining}
    (hx : x ∈ t.inlinings s lines) : x.definition ∈ (t.expandLines s lines).1.definitions := by
  obtain ⟨q, hq, hinlining⟩ := List.mem_filterMap.mp hx
  have hresolve := (resolve_moves q.1 s q.2).extends
  have hrest := (resolutions_moves t s lines q hq).2.extends
  exact (hresolve.trans hrest).definitions.subset (fields_of_inlining? hinlining).2

/-- A pass over lines that puts a body in has one that it puts in. -/
theorem inlinings_ne_nil {lines : List Text} (h : t.expandLines s lines = (t', .ok e))
    (hin : e.inlined = true) : t.inlinings s lines ≠ [] := by
  fun_induction expandLines t s lines generalizing t' e with
  | case1 =>
      cases h
      cases hin
  | case2 | case5 => cases h
  | case3 t line rest name params hheader depth =>
      rename_i isBody ih
      rw [inlinings_define hheader]
      exact ih h hin
  | case4 t line rest hheader hsite t₁ result hrest ih =>
      rw [inlinings_plain hheader hsite]
      cases result with
      | error fault => cases h
      | ok y =>
          obtain ⟨rfl, hy⟩ := Prod.mk.inj h
          cases hy
          exact ih hrest hin
  | case6 t line rest hheader site hsite t₁ y hresolve t₂ result hrest ih =>
      rw [inlinings_call hheader hsite hresolve]
      cases result with
      | error fault => cases h
      | ok z =>
          cases h
          rcases resolve_inlining hresolve with ⟨c, -, rfl⟩ | ⟨x, hx, -⟩
          · exact List.append_ne_nil_of_right_ne_nil _ (ih hrest hin)
          · rw [hx]
            exact List.cons_ne_nil _ _

/-- Where a line comes from that a pass over lines leaves: it is one of them, a function call was
written in one of them, or a body was put in one of them. -/
inductive LineOrigin (references : List Text) (xs : List Inlining) (lines : List Text) : Text → Prop
  | kept {line : Text} (hline : line ∈ lines) (hsite : CallSite.parse? line = none) :
      LineOrigin references xs lines line
  | written {line r : Text} {site : CallSite} (hline : line ∈ lines)
      (hsite : CallSite.parse? line = some site) (hr : r ∈ references) :
      LineOrigin references xs lines (callLine site.lead r)
  | inlined {line l : Text} {site : CallSite} {x : Inlining} (hline : line ∈ lines)
      (hsite : CallSite.parse? line = some site) (hx : x ∈ xs)
      (hfields : Text.fields site.payload = x.definition.name :: x.args) (hl : l ∈ x.lines) :
      LineOrigin references xs lines (site.lead ++ l)

theorem LineOrigin.mono {references references' : List Text} {xs xs' : List Inlining}
    {lines lines' : List Text} {l : Text} (h : LineOrigin references xs lines l)
    (hreferences : references ⊆ references') (hxs : xs ⊆ xs') (hlines : lines ⊆ lines') :
    LineOrigin references' xs' lines' l := by
  cases h with
  | kept hline hsite => exact .kept (hlines hline) hsite
  | written hline hsite hr => exact .written (hlines hline) hsite (hreferences hr)
  | inlined hline hsite hx hfields hl => exact .inlined (hlines hline) hsite (hxs hx) hfields hl

theorem lineOrigin_resolve {line : Text} (hsite : CallSite.parse? line = some site)
    (h : t.resolve s site = (t', .ok e)) :
    ∀ l ∈ e.lines,
      LineOrigin (t'.calls.map Call.reference) (t.inlining? s site).toList [line] l := by
  intro l hl
  rcases resolve_inlining h with ⟨c, hc, rfl⟩ | ⟨x, hx, rfl⟩
  · rw [List.mem_singleton.mp hl]
    exact .written List.mem_cons_self hsite (List.mem_map_of_mem hc)
  · obtain ⟨l', hl', rfl⟩ := List.mem_map.mp hl
    exact .inlined List.mem_cons_self hsite (by rw [hx]; exact List.mem_cons_self)
      (fields_of_inlining? hx).1 hl'

/-- Every line that a pass over lines leaves comes from the lines outside definitions. -/
theorem lineOrigin_expandLines {lines : List Text} (h : t.expandLines s lines = (t', .ok e)) :
    ∀ l ∈ e.lines,
      LineOrigin (t'.calls.map Call.reference) (t.inlinings s lines) (commandsIn lines) l := by
  fun_induction expandLines t s lines generalizing t' e with
  | case1 =>
      cases h
      exact fun _ hl => absurd hl List.not_mem_nil
  | case2 | case5 => cases h
  | case3 t line rest name params hheader depth =>
      rename_i isBody ih
      rw [inlinings_define hheader, commandsIn]
      simp only [hheader]
      exact ih h
  | case4 t line rest hheader hsite t₁ result hrest ih =>
      rw [inlinings_plain hheader hsite, commandsIn]
      simp only [hheader]
      cases result with
      | error fault => cases h
      | ok y =>
          cases h
          refine List.forall_mem_cons.mpr ⟨.kept List.mem_cons_self hsite, fun l hl => ?_⟩
          exact (ih hrest l hl).mono (List.Subset.refl _) (List.Subset.refl _)
            (List.subset_cons_self _ _)
  | case6 t line rest hheader site hsite t₁ y hresolve t₂ result hrest ih =>
      rw [inlinings_call hheader hsite hresolve, commandsIn]
      simp only [hheader]
      cases result with
      | error fault => cases h
      | ok z =>
          cases h
          have hextends := (expandLines_moves t₁ s rest).extends
          rw [hrest] at hextends
          intro l hl
          rcases List.mem_append.mp hl with hl | hl
          · exact (lineOrigin_resolve hsite hresolve l hl).mono hextends.references_subset
              (List.subset_append_left _ _) (List.cons_subset_cons _ (List.nil_subset _))
          · exact (ih hrest l hl).mono (List.Subset.refl _) (List.subset_append_right _ _)
              (List.subset_cons_self _ _)

end Table

/-! ## Lines of bodies -/

theorem newline_not_mem_callLine {lead r : Text} (hlead : Text.newline ∉ lead)
    (hr : Text.newline ∉ r) : Text.newline ∉ callLine lead r := by
  simp only [callLine, List.mem_append, not_or]
  exact ⟨⟨⟨hlead, by decide⟩, by decide⟩, hr⟩

/-- The lines put in place of a call are single lines if those of the body and the arguments are. -/
theorem Inlining.newline_not_mem {x : Inlining} (hbody : ∀ l ∈ x.definition.body, Text.newline ∉ l)
    (hargs : ∀ a ∈ x.args, Text.newline ∉ a) : ∀ line ∈ x.lines, Text.newline ∉ line := by
  intro line hline hmem
  obtain ⟨l, hl, rfl⟩ := List.mem_map.mp hline
  rcases mem_passFrom hmem with hmem | ⟨pair, hpair, hmem⟩
  · exact hbody l hl hmem
  · exact hargs _ (List.of_mem_zip hpair).2 hmem

namespace Table

variable {t t' : Table} {s : Scope} {lines : List Text} {e : Expanded}

/-- The bodies of the macros in a table are made of single lines. -/
def Lined (t : Table) : Prop := ∀ d ∈ t.definitions, ∀ line ∈ d.body, Text.newline ∉ line

theorem lined_define {reference name : Text} {params : List Text} {depth : Nat} {raw : List Text}
    (h : t.Lined) (hraw : ∀ line ∈ raw, Text.newline ∉ line) :
    (t.define (.read reference name params depth raw)).Lined := by
  intro d hd
  rcases (t.entries_define _).1 d hd with hold | rfl
  · exact h d hold
  · refine Definition.forall_mem_read (fun _ hline hmem => ?_) hraw
    exact hline (List.drop_subset _ _ hmem)

theorem lined_resolve (h : t.Lined) {site : CallSite} {answer : Except Fault Expanded}
    (hresolve : t.resolve s site = (t', answer)) : t'.Lined := by
  have hdefinitions := t.definitions_resolve s site
  rw [hresolve] at hdefinitions
  rwa [Lined, hdefinitions]

theorem lined_expandLines (h : t.Lined) (hlines : ∀ line ∈ lines, Text.newline ∉ line) :
    (t.expandLines s lines).1.Lined := by
  fun_induction expandLines t s lines with
  | case1 => exact h
  | case2 => exact h
  | case3 t line rest name params hheader depth isBody ih =>
      rw [List.forall_mem_cons] at hlines
      refine ih (lined_define h fun l hl => ?_) fun l hl => ?_
      · exact hlines.2 l ((List.takeWhile_subset _) hl)
      · exact hlines.2 l ((List.dropWhile_subset _) hl)
  | case4 t line rest hheader hsite t₁ result hrest ih =>
      rw [hrest] at ih
      exact ih h (List.forall_mem_cons.mp hlines).2
  | case5 t line rest hheader site hsite t₁ fault hresolve => exact lined_resolve h hresolve
  | case6 t line rest hheader site hsite t₁ y hresolve t₂ result hrest ih =>
      rw [hrest] at ih
      exact ih (lined_resolve h hresolve) (List.forall_mem_cons.mp hlines).2

/-- A line that a pass leaves: a single one, which calls no macro but those that are called by the
bodies put in. -/
def Left (xs : List Inlining) (line : Text) : Prop :=
  Text.newline ∉ line ∧ ∀ callee, callee? line = some callee →
    ∃ x ∈ xs, ∃ l ∈ x.lines, callee? l = some callee

theorem LineOrigin.left {references : List Text} {xs : List Inlining} {l : Text}
    (h : LineOrigin references xs lines l) (hlines : ∀ line ∈ lines, Text.newline ∉ line)
    (hreferences : ∀ r ∈ references, ∃ c : Call, c.Proper ∧ c.reference = r)
    (hbodies : ∀ x ∈ xs, ∀ line ∈ x.definition.body, Text.newline ∉ line) : Left xs l := by
  have hparts : ∀ {line : Text} {site : CallSite}, line ∈ lines →
      CallSite.parse? line = some site →
      Text.newline ∉ site.lead ∧ Text.newline ∉ site.payload := by
    intro line site hline hsite
    have hnewline := hlines line hline
    rw [(Lead.of_parse? hsite).1] at hnewline
    simp only [List.mem_append, not_or] at hnewline
    exact ⟨hnewline.1.1, hnewline.2⟩
  cases h with
  | kept hline hsite =>
      refine ⟨hlines l hline, fun callee hcallee => ?_⟩
      rw [callee?, hsite] at hcallee
      cases hcallee
  | written hline hsite hr =>
      -- a function call is no macro call, as its reference is a word of its own
      obtain ⟨c, hproper, rfl⟩ := hreferences _ hr
      refine ⟨newline_not_mem_callLine (hparts hline hsite).1 fun hmem => ?_,
        fun callee hcallee => ?_⟩
      · cases hproper.word.clean _ hmem
      · obtain ⟨-, hlead⟩ := Lead.of_parse? hsite
        rw [callee?, hlead.parse?_callLine hproper.word.field hproper.ne_callWord] at hcallee
        cases hcallee
  | @inlined line l' site x hline hsite hx hfields hl =>
      have hargs : ∀ a ∈ x.args, Text.newline ∉ a := by
        intro a ha
        exact (Text.token_of_mem_fields (hfields ▸ List.mem_cons_of_mem _ ha)).newline
      refine ⟨?_, fun callee hcallee => ?_⟩
      · rw [List.mem_append, not_or]
        exact ⟨(hparts hline hsite).1, x.newline_not_mem (hbodies x hx) hargs l' hl⟩
      · rw [(Lead.of_parse? hsite).2.callee?_append] at hcallee
        exact ⟨x, hx, l', hl, hcallee⟩

theorem left_expandLines (hlined : t.Lined) (hlines : ∀ line ∈ lines, Text.newline ∉ line)
    (h : t.expandLines s lines = (t', .ok e)) (hproper : ∀ c ∈ t'.calls, c.Proper) :
    ∀ l ∈ e.lines, Left (t.inlinings s lines) l := by
  intro l hl
  refine (lineOrigin_expandLines h l hl).left (fun line hline => ?_) (fun r hr => ?_) fun x hx => ?_
  · exact hlines line (commandsIn_subset _ hline)
  · obtain ⟨c, hc, rfl⟩ := List.mem_map.mp hr
    exact ⟨c, hproper c hc, rfl⟩
  · exact lined_expandLines hlined hlines _ (definition_of_mem_inlinings hx)

end Table

/-! ## Passes -/

namespace Pass

variable {p : Pass} {t : Table} {e : Expanded}

/-- The bodies that a pass puts in place of calls, in order. -/
def inlinings (p : Pass) : List Inlining := p.table.inlinings p.work.scope p.work.scope.lines

/-- Whether a pass puts a body in. -/
def inlines (p : Pass) : Bool := !p.inlinings.isEmpty

theorem inlines_of_inlined (h : p.expansion = (t, .ok e)) (hin : e.inlined = true) :
    p.inlines = true := by
  rw [inlines, Bool.not_eq_true', List.isEmpty_eq_false_iff]
  exact Table.inlinings_ne_nil h hin

/-- The lines that a pass leaves call no macro but those that are called by the bodies put in. -/
theorem next_calls (hlined : p.table.Lined) (hproper : ∀ c ∈ p.expansion.1.calls, c.Proper)
    (h : p.expansion = (t, .ok e)) {line callee : Text}
    (hline : line ∈ (p.work.next e).scope.lines) (hcallee : callee? line = some callee) :
    ∃ x ∈ p.inlinings, ∃ l ∈ x.lines, callee? l = some callee := by
  rw [h] at hproper
  have hleft := Table.left_expandLines hlined (fun _ hl => Text.newline_not_mem_lines hl) h hproper
  -- the lines are read again from a text, where a carriage return at their ends may go
  obtain ⟨l, hl, rfl⟩ := Text.mem_lines_unlines (fun l hl => (hleft l hl).1) hline
  exact (hleft l hl).2 callee (callee?_of_chop hcallee)

theorem lined_after (h : p.table.Lined) : p.after.Lined := by
  obtain ⟨pending, hafter, -⟩ := p.after_eq
  rw [hafter]
  exact Table.lined_expandLines h fun _ hl => Text.newline_not_mem_lines hl

end Pass

theorem Step.lined {sources : List Scope} {t : Table} {p : Pass} (hstep : Step sources t p)
    (h : t.Lined) : p.table.Lined := by
  cases hstep with
  | source => exact h
  | pending => exact h

theorem Reaches.lined {sources : List Scope} {t t' : Table} (hreaches : Reaches sources t t')
    (h : t.Lined) : t'.Lined :=
  hreaches.invariant (fun hstep hu => Pass.lined_after (hstep.lined hu)) h

/-- The calls that a step of a run knows at its end have generated names in checked namespaces. -/
theorem Step.proper {settings : Settings} {sources : List Scope} {t : Table} {p : Pass}
    (hstep : Step sources t p) (hto : Reaches sources (Stage.macros.start settings) t)
    (hns : ∀ s ∈ sources, s.ns.Checked) : ∀ c ∈ p.expansion.1.calls, c.Proper := by
  have hafter : Reaches sources (Stage.macros.start settings) p.after :=
    hto.tail ⟨p, hstep, rfl⟩
  have hcalls : p.after.calls = p.expansion.1.calls := by
    obtain ⟨pending, hafter, -⟩ := p.after_eq
    rw [hafter]
  rw [← hcalls]
  intro c hc
  obtain ⟨id, hname, -⟩ := (hafter.named (named_start settings)).used c hc
  exact ⟨(hafter.within hns (within_start _ settings)).1 c hc, id, hname⟩

/-- What a pass of a run finds: macros whose bodies are made of single lines. The calls that it
knows at its end have generated names in checked namespaces. -/
theorem traceOf_lined {settings : Settings} {sources : List Scope}
    (hns : ∀ s ∈ sources, s.ns.Checked) {p : Pass} (hp : p ∈ (traceOf settings sources).passes) :
    p.table.Lined ∧ ∀ c ∈ p.expansion.1.calls, c.Proper := by
  obtain ⟨t, hto, hstep, -⟩ := (traceOf_follows settings sources).step p hp
  exact ⟨hstep.lined (hto.lined fun _ hd => (nomatch hd)), hstep.proper hto hns⟩

end Packwright.Macro
