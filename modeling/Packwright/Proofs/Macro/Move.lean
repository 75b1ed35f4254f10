import Mathlib.Data.List.Infix
import Mathlib.Logic.Relation
import Packwright.Macro.Supply

/-! # What a pass does to a table

A pass over a scope changes the macro table in two ways only: it adds a definition, or it records a
call that has no function yet. Everything a pass keeps is read off these two moves. They never take
a definition or a call away (`Moves.extends`), and they keep the table settled: a call has its
function exactly when its macro is defined (`Moves.settled`). What a pass comes to, in order, are its
deeds, and the table changes by them and by nothing else (`expandLines_reads`).
-/

namespace Packwright.Macro

open Relation (ReflTransGen)

/-- A call without the mark that its function was made. -/
def Call.bare (c : Call) : Call := { c with generated := false }

theorem Call.fields_of_bare {c c' : Call} (h : c'.bare = c.bare) :
    c'.callee = c.callee ∧ c'.args = c.args ∧ c'.ns = c.ns ∧ c'.scopeName = c.scopeName := by
  injection h with hcallee hargs hns hname
  exact ⟨hcallee, hargs, hns, hname⟩

theorem Call.reference_of_bare {c c' : Call} (h : c'.bare = c.bare) :
    c'.reference = c.reference := by
  obtain ⟨-, -, hns, hname⟩ := Call.fields_of_bare h
  rw [Call.reference, hns, hname]
  rfl

theorem Call.key_of_bare {c c' : Call} (h : c'.bare = c.bare) : c'.key = c.key := by
  obtain ⟨hcallee, hargs, hns, -⟩ := Call.fields_of_bare h
  rw [Call.key, hcallee, hargs, hns]
  rfl

/-- What a pass comes to: the definition of a macro or a call. -/
inductive Deed where
  | define (d : Definition)
  | call (site : CallSite)
  deriving DecidableEq, Repr

namespace Deed

/-- The definition, if it is one. -/
def definition? : Deed → Option Definition
  | .define d => some d
  | .call _ => none

/-- The call, if it is one. -/
def site? : Deed → Option CallSite
  | .define _ => none
  | .call site => some site

/-- The macro that is called, if it is a call of one. -/
def callee? : Deed → Option Text
  | .define _ => none
  | .call site => (Text.fields site.payload).head?

end Deed

namespace Table

variable {t t' : Table} {s : Scope}

theorem mem_of_call? {key : Text} {c : Call} (h : t.call? key = some c) :
    c ∈ t.calls ∧ c.key = key :=
  ⟨List.mem_of_find?_eq_some h, eq_of_beq (List.find?_some h :)⟩

/-- How a call is resolved: the ways to fail, and the three ways to answer. -/
inductive Resolves (t : Table) (s : Scope) (site : CallSite) :
    Table → Except Fault Expanded → Prop
  | empty (hfields : Text.fields site.payload = []) :
      Resolves t s site t (.error (.emptyCall s.reference))
  | known {callee : Text} {args : List Text} {c : Call}
      (hfields : Text.fields site.payload = callee :: args)
      (hcall : t.call? (Call.keyOf s.ns callee args) = some c) :
      Resolves t s site t (.ok ⟨[callLine site.lead c.reference], false⟩)
  | inlined {callee : Text} {args : List Text} {d : Definition}
      (hfields : Text.fields site.payload = callee :: args)
      (hcall : t.call? (Call.keyOf s.ns callee args) = none) (hfind : t.find? callee = some d)
      (hplain : d.separate = false) (hlead : Text.isSpace site.lead = true) :
      Resolves t s site t (.ok ⟨(d.expand args).map (site.lead ++ ·), true⟩)
  | recorded {callee : Text} {args : List Text} {t' : Table} {c : Call}
      (hfields : Text.fields site.payload = callee :: args)
      (hcall : t.call? (Call.keyOf s.ns callee args) = none)
      (hrecord : t.record s callee args = (t', .ok c)) :
      Resolves t s site t' (.ok ⟨[callLine site.lead c.reference], false⟩)
  | exhausted {callee : Text} {args : List Text} {t' : Table} {fault : Fault}
      (hfields : Text.fields site.payload = callee :: args)
      (hrecord : t.record s callee args = (t', .error fault)) :
      Resolves t s site t' (.error fault)

theorem resolve_resolves (t : Table) (s : Scope) (site : CallSite) :
    Resolves t s site (t.resolve s site).1 (t.resolve s site).2 := by
  unfold resolve
  split
  next hfields => exact .empty hfields
  next callee args hfields =>
    split
    next c hcall => exact .known hfields hcall
    next hcall =>
      split
      next d hfilter =>
        obtain ⟨hfind, hcond⟩ := Option.filter_eq_some_iff.mp hfilter
        simp only [Bool.and_eq_true, Bool.not_eq_true'] at hcond
        exact .inlined hfields hcall hfind hcond.1 hcond.2
      next =>
        split
        next hrecord => exact .exhausted hfields hrecord
        next hrecord => exact .recorded hfields hcall hrecord

theorem resolves_of_resolve {site : CallSite} {answer : Except Fault Expanded}
    (h : t.resolve s site = (t', answer)) : Resolves t s site t' answer := by
  have hresolves := resolve_resolves t s site
  rw [h] at hresolves
  exact hresolves

/-- What recording a call changes: an id is drawn, and the call is added, with its function if the
macro is known. -/
theorem record_eq {callee : Text} {args : List Text} {c : Call}
    (h : t.record s callee args = (t', .ok c)) :
    ∃ ids, t.ids.draw = some (c.scopeName, ids) ∧
      c = { callee, args, ns := s.ns, scopeName := c.scopeName, caller := s.reference } ∧
      ((∃ d, t.find? callee = some d ∧
          t' = { t with
            ids
            calls := t.calls ++ [{ c with generated := true }]
            pending := ⟨c.scope d, 0⟩ :: t.pending }.note (.macroGenerated callee c.reference)) ∨
        (t.find? callee = none ∧
          t' = { t with ids, calls := t.calls ++ [c] }.note
            (.forwardCall callee c.reference c.caller))) := by
  unfold record at h
  split at h
  next => cases h
  next name ids hdraw =>
    dsimp only at h
    split at h
    next d hfind =>
      cases h
      exact ⟨ids, hdraw, rfl, .inl ⟨d, hfind, rfl⟩⟩
    next hfind =>
      cases h
      exact ⟨ids, hdraw, rfl, .inr ⟨hfind, rfl⟩⟩

theorem record_error {callee : Text} {args : List Text} {fault : Fault}
    (h : t.record s callee args = (t', .error fault)) : t' = t := by
  unfold record at h
  split at h
  next => cases h; rfl
  next =>
    dsimp only at h
    split at h <;> cases h

/-- A call that is resolved is one that the table knows then, or the body is put in its place. -/
theorem resolve_ok {site : CallSite} {e : Expanded} (h : t.resolve s site = (t', .ok e)) :
    ∃ callee args, Text.fields site.payload = callee :: args ∧
      ((∃ c ∈ t'.calls, c.key = Call.keyOf s.ns callee args ∧
          e = ⟨[callLine site.lead c.reference], false⟩) ∨
        ∃ d, t.find? callee = some d ∧ Text.isSpace site.lead = true ∧ t' = t ∧
          e = ⟨(d.expand args).map (site.lead ++ ·), true⟩) := by
  cases resolves_of_resolve h with
  | known hfields hcall =>
      obtain ⟨hmem, hkey⟩ := mem_of_call? hcall
      exact ⟨_, _, hfields, .inl ⟨_, hmem, hkey, rfl⟩⟩
  | inlined hfields _ hfind _ hlead => exact ⟨_, _, hfields, .inr ⟨_, hfind, hlead, rfl, rfl⟩⟩
  | recorded hfields _ hrecord =>
      refine ⟨_, _, hfields, .inl ?_⟩
      obtain ⟨ids, -, hc, ⟨d, -, rfl⟩ | ⟨-, rfl⟩⟩ := record_eq hrecord
      · exact ⟨_, List.mem_append_right _ List.mem_cons_self, by rw [hc]; rfl, rfl⟩
      · exact ⟨_, List.mem_append_right _ List.mem_cons_self, by rw [hc]; rfl, rfl⟩

/-- The ways in which a pass over a scope changes a table. -/
inductive Move (s : Scope) : Table → Table → Prop
  | define (t : Table) (d : Definition) : Move s t (t.define d)
  | record {t t' : Table} {callee : Text} {args : List Text} {c : Call}
      (hnew : t.call? (Call.keyOf s.ns callee args) = none)
      (hrecord : t.record s callee args = (t', .ok c)) : Move s t t'

/-- Any number of changes that a pass over a scope makes. -/
def Moves (s : Scope) : Table → Table → Prop := ReflTransGen (Move s)

/-- What every definition and every new call keeps is kept by a pass. -/
theorem Moves.invariant {holds : Table → Prop} (hmoves : Moves s t t')
    (hdefine : ∀ (t : Table) (d : Definition), holds t → holds (t.define d))
    (hrecord : ∀ {t t' : Table} {callee : Text} {args : List Text} {c : Call},
      t.record s callee args = (t', .ok c) → holds t → holds t')
    (h : holds t) : holds t' := by
  induction hmoves with
  | refl => exact h
  | tail _ hmove ih =>
      cases hmove with
      | define d => exact hdefine _ d ih
      | record _ hrecorded => exact hrecord hrecorded ih

theorem resolve_moves (t : Table) (s : Scope) (site : CallSite) :
    Moves s t (t.resolve s site).1 := by
  have hresolves := resolve_resolves t s site
  generalize t.resolve s site = result at hresolves
  obtain ⟨t', answer⟩ := result
  cases hresolves with
  | empty | known | inlined => exact ReflTransGen.refl
  | recorded _ hcall hrecord => exact ReflTransGen.single (.record hcall hrecord)
  | exhausted _ hrecord =>
      rw [record_error hrecord]
      exact ReflTransGen.refl

theorem moves_of_resolve {site : CallSite} {answer : Except Fault Expanded}
    (h : t.resolve s site = (t', answer)) : Moves s t t' := by
  have hmoves := resolve_moves t s site
  rw [h] at hmoves
  exact hmoves

/-- Resolving a call adds no definition. -/
theorem definitions_resolve (t : Table) (s : Scope) (site : CallSite) :
    (t.resolve s site).1.definitions = t.definitions := by
  have hresolves := t.resolve_resolves s site
  generalize t.resolve s site = result at hresolves
  obtain ⟨t', answer⟩ := result
  cases hresolves with
  | empty | known | inlined => rfl
  | recorded _ _ hrecord =>
      obtain ⟨ids, -, -, ⟨d, -, rfl⟩ | ⟨-, rfl⟩⟩ := record_eq hrecord <;> rfl
  | exhausted _ hrecord => rw [record_error hrecord]

/-! ## What a pass comes to -/

/-- What a pass over lines comes to, each with what is known then. -/
def deeds (t : Table) (s : Scope) (lines : List Text) : List (Table × Deed) :=
  match lines with
  | [] => []
  | line :: rest =>
    match Header.parse? line with
    | some ⟨none, _⟩ => []
    | some ⟨some name, params⟩ =>
      let depth := Text.indent line
      let isBody (l : Text) : Bool := depth < Text.indent l
      let d := Definition.read s.reference name params depth (rest.takeWhile isBody)
      (t, .define d) :: (t.define d).deeds s (rest.dropWhile isBody)
    | none =>
      match CallSite.parse? line with
      | none => t.deeds s rest
      | some site =>
        match t.resolve s site with
        | (_, .error _) => [(t, .call site)]
        | (t', .ok _) => (t, .call site) :: t'.deeds s rest
termination_by lines.length
decreasing_by
  · exact Nat.lt_succ_of_le (List.dropWhile_sublist _).length_le
  · exact Nat.lt_succ_self _
  · exact Nat.lt_succ_self _

/-- A table changes by what a pass comes to: each definition is added and each call resolved, in
order, and nothing else happens. -/
inductive Reads (s : Scope) : Table → List (Table × Deed) → Table → Prop
  | stop (t : Table) : Reads s t [] t
  | define {t t' : Table} {ds : List (Table × Deed)} (d : Definition)
      (hrest : Reads s (t.define d) ds t') : Reads s t ((t, .define d) :: ds) t'
  | call {t t₁ t' : Table} {ds : List (Table × Deed)} {site : CallSite}
      {answer : Except Fault Expanded} (h : t.resolve s site = (t₁, answer))
      (hrest : Reads s t₁ ds t') : Reads s t ((t, .call site) :: ds) t'

theorem expandLines_reads (t : Table) (s : Scope) (lines : List Text) :
    Reads s t (t.deeds s lines) (t.expandLines s lines).1 := by
  fun_induction deeds t s lines with
  | case1 t =>
      rw [expandLines]
      exact .stop t
  | case2 t line rest params hheader =>
      rw [expandLines]
      simp only [hheader]
      exact .stop t
  | case3 t line rest name params hheader depth =>
      rename_i isBody d ih
      rw [expandLines]
      simp only [hheader]
      exact .define d ih
  | case4 t line rest hheader hsite ih =>
      rw [expandLines]
      simp only [hheader, hsite]
      exact ih
  | case5 t line rest hheader site hsite t₁ fault hresolve =>
      rw [expandLines]
      simp only [hheader, hsite, hresolve]
      exact .call hresolve (.stop t₁)
  | case6 t line rest hheader site hsite t₁ e hresolve ih =>
      rw [expandLines]
      simp only [hheader, hsite, hresolve]
      exact .call hresolve ih

namespace Reads

variable {t₁ : Table} {ds : List (Table × Deed)}

/-- A move before the moments of the rest. -/
theorem pairwise_cons {ts : List Table} (hmoves : Moves s t t₁)
    (h : (t₁ :: ts).Pairwise (Moves s)) : (t :: t :: ts).Pairwise (Moves s) := by
  rw [List.pairwise_cons] at h
  have hall : ∀ u ∈ ts, Moves s t u := fun u hu => ReflTransGen.trans hmoves (h.1 u hu)
  rw [List.pairwise_cons, List.pairwise_cons, List.forall_mem_cons]
  exact ⟨⟨.refl, hall⟩, hall, h.2⟩

/-- What is known along the way follows each other by moves. -/
theorem pairwise (h : Reads s t ds t') :
    (t :: (ds.map Prod.fst ++ [t'])).Pairwise (Moves s) := by
  induction h with
  | stop t =>
      rw [List.map_nil, List.nil_append, List.pairwise_pair]
      exact .refl
  | define d _ ih => exact pairwise_cons (.single (.define _ d)) ih
  | call h _ ih => exact pairwise_cons (moves_of_resolve h) ih

theorem moves (h : Reads s t ds t') : Moves s t t' :=
  (List.pairwise_cons.mp h.pairwise).1 t' (List.mem_append_right _ (List.mem_singleton_self _))

theorem moves_of_mem (h : Reads s t ds t') {q : Table × Deed} (hq : q ∈ ds) : Moves s t q.1 :=
  (List.pairwise_cons.mp h.pairwise).1 q.1 (List.mem_append_left _ (List.mem_map_of_mem hq))

/-- What a call leaves leads to the end by moves. -/
theorem moves_resolve (h : Reads s t ds t') {u : Table} {site : CallSite}
    (hu : (u, Deed.call site) ∈ ds) : Moves s (u.resolve s site).1 t' := by
  induction h with
  | stop t => cases hu
  | define d _ ih =>
      rcases List.mem_cons.mp hu with heq | hu
      · cases heq
      · exact ih hu
  | call h hrest ih =>
      rcases List.mem_cons.mp hu with heq | hu
      · cases heq
        rw [h]
        exact hrest.moves
      · exact ih hu

end Reads

theorem expandLines_moves (t : Table) (s : Scope) (lines : List Text) :
    Moves s t (t.expandLines s lines).1 :=
  (expandLines_reads t s lines).moves

/-- The calls that a pass over lines resolves, each with what is known then. -/
def resolutions (t : Table) (s : Scope) (lines : List Text) : List (Table × CallSite) :=
  (t.deeds s lines).filterMap fun q => q.2.site?.map (q.1, ·)

theorem mem_resolutions {lines : List Text} {q : Table × CallSite} :
    q ∈ t.resolutions s lines ↔ (q.1, Deed.call q.2) ∈ t.deeds s lines := by
  rw [resolutions, List.mem_filterMap]
  constructor
  · rintro ⟨⟨u, deed⟩, hdeed, hq⟩
    cases deed with
    | define d => cases hq
    | call site =>
        cases hq
        exact hdeed
  · intro hq
    exact ⟨_, hq, rfl⟩

section

variable {line : Text} {rest : List Text} {site : CallSite} {e : Expanded}

theorem resolutions_define {name : Text} {params : List Text}
    (hheader : Header.parse? line = some ⟨some name, params⟩) :
    let isBody (l : Text) : Bool := Text.indent line < Text.indent l
    t.resolutions s (line :: rest) =
      (t.define (.read s.reference name params (Text.indent line)
        (rest.takeWhile isBody))).resolutions s (rest.dropWhile isBody) := by
  intro isBody
  rw [resolutions, deeds]
  simp only [hheader]
  rfl

theorem resolutions_plain (hheader : Header.parse? line = none)
    (hsite : CallSite.parse? line = none) :
    t.resolutions s (line :: rest) = t.resolutions s rest := by
  rw [resolutions, deeds]
  simp only [hheader, hsite]
  rfl

theorem resolutions_call (hheader : Header.parse? line = none)
    (hsite : CallSite.parse? line = some site) (hresolve : t.resolve s site = (t', .ok e)) :
    t.resolutions s (line :: rest) = (t, site) :: t'.resolutions s rest := by
  rw [resolutions, deeds]
  simp only [hheader, hsite, hresolve]
  rfl

end

/-- A pass comes to a call by moves, and goes on from there by moves. -/
theorem resolutions_moves (t : Table) (s : Scope) (lines : List Text) :
    ∀ q ∈ t.resolutions s lines,
      Moves s t q.1 ∧ Moves s (q.1.resolve s q.2).1 (t.expandLines s lines).1 := by
  intro q hq
  have hdeed := mem_resolutions.mp hq
  have hreads := expandLines_reads t s lines
  exact ⟨hreads.moves_of_mem hdeed, hreads.moves_resolve hdeed⟩

/-! ## What moves keep -/

/-- A later table knows all that an earlier one knows, in the same order. -/
structure Extends (t t' : Table) : Prop where
  limit : t'.limit = t.limit
  definitions : t.definitions <+: t'.definitions
  calls : t.calls.map Call.bare <+: t'.calls.map Call.bare

namespace Extends

theorem refl (t : Table) : Extends t t := ⟨rfl, List.prefix_rfl, List.prefix_rfl⟩

theorem trans {t'' : Table} (h : Extends t t') (h' : Extends t' t'') : Extends t t'' :=
  ⟨h'.limit.trans h.limit, h.definitions.trans h'.definitions, h.calls.trans h'.calls⟩

/-- A definition stays the one that is found. -/
theorem find? (h : Extends t t') {name : Text} {d : Definition} (hfind : t.find? name = some d) :
    t'.find? name = some d := by
  obtain ⟨more, hmore⟩ := h.definitions
  rw [Table.find?, ← hmore, List.find?_append, ← Table.find?, hfind]
  rfl

/-- A call stays in the table. -/
theorem mem_calls (h : Extends t t') {c : Call} (hc : c ∈ t.calls) :
    ∃ c' ∈ t'.calls, c'.bare = c.bare :=
  List.mem_map.mp (h.calls.subset (List.mem_map_of_mem hc))

theorem references_subset (h : Extends t t') :
    t.calls.map Call.reference ⊆ t'.calls.map Call.reference := by
  intro r hr
  obtain ⟨c, hc, rfl⟩ := List.mem_map.mp hr
  obtain ⟨c', hc', hbare⟩ := h.mem_calls hc
  exact List.mem_map.mpr ⟨c', hc', Call.reference_of_bare hbare⟩

end Extends

theorem map_bare_generate (t : Table) (d : Definition) :
    (t.generate d).calls.map Call.bare = t.calls.map Call.bare := by
  simp only [generate, List.map_map]
  apply List.map_congr_left
  intro c _
  simp only [Function.comp_apply]
  split <;> rfl

theorem extends_define (t : Table) (d : Definition) : Extends t (t.define d) := by
  unfold define
  split
  next => exact ⟨rfl, List.prefix_rfl, List.prefix_rfl⟩
  next =>
    refine ⟨rfl, List.prefix_append _ _, ?_⟩
    rw [map_bare_generate]
    exact List.prefix_rfl

theorem extends_record {callee : Text} {args : List Text} {c : Call}
    (h : t.record s callee args = (t', .ok c)) : Extends t t' := by
  obtain ⟨ids, -, -, ⟨d, -, rfl⟩ | ⟨-, rfl⟩⟩ := record_eq h
  · refine ⟨rfl, List.prefix_rfl, ?_⟩
    simp [note]
  · refine ⟨rfl, List.prefix_rfl, ?_⟩
    simp [note]

theorem Moves.extends (h : Moves s t t') : Extends t t' := by
  apply h.invariant
  · intro u d hu
    exact hu.trans (extends_define u d)
  · intro u u' callee args c hrecord hu
    exact hu.trans (extends_record hrecord)
  · exact Extends.refl t

/-- A definition adds itself, and the functions of calls that waited for it. -/
theorem entries_define (t : Table) (d : Definition) :
    (∀ d' ∈ (t.define d).definitions, d' ∈ t.definitions ∨ d' = d) ∧
    (∀ c ∈ (t.define d).calls, ∃ c' ∈ t.calls, c'.bare = c.bare) ∧
    ∀ w ∈ (t.define d).pending, w ∈ t.pending ∨ ∃ c ∈ t.calls, w = ⟨c.scope d, 0⟩ := by
  unfold define
  split
  next => exact ⟨fun _ hd => .inl hd, fun c hc => ⟨c, hc, rfl⟩, fun _ hw => .inl hw⟩
  next =>
    refine ⟨fun d' hd' => ?_, fun c hc => ?_, fun w hw => ?_⟩
    · exact (List.mem_append.mp hd').imp_right List.mem_singleton.mp
    · obtain ⟨c', hc', rfl⟩ := List.mem_map.mp hc
      refine ⟨c', hc', ?_⟩
      split <;> rfl
    · rcases List.mem_append.mp hw with hnew | hold
      · obtain ⟨c, hc, rfl⟩ := List.mem_map.mp (List.mem_reverse.mp hnew)
        exact .inr ⟨c, List.mem_of_mem_filter hc, rfl⟩
      · exact .inl hold

/-- Recording a call adds the call, and its function if the macro is known. -/
theorem entries_record {callee : Text} {args : List Text} {c : Call}
    (h : t.record s callee args = (t', .ok c)) :
    t'.definitions = t.definitions ∧ (∀ c' ∈ t'.calls, c' ∈ t.calls ∨ c'.bare = c.bare) ∧
    ∀ w ∈ t'.pending, w ∈ t.pending ∨ ∃ d ∈ t.definitions, w = ⟨c.scope d, 0⟩ := by
  obtain ⟨ids, -, -, ⟨d, hfind, rfl⟩ | ⟨-, rfl⟩⟩ := record_eq h
  · refine ⟨rfl, fun c' hc' => ?_, fun w hw => ?_⟩
    · refine (List.mem_append.mp hc').imp_right fun hnew => ?_
      rw [List.mem_singleton.mp hnew]
      rfl
    · rcases List.mem_cons.mp hw with rfl | hold
      · exact .inr ⟨d, List.mem_of_find?_eq_some hfind, rfl⟩
      · exact .inl hold
  · refine ⟨rfl, fun c' hc' => ?_, fun w hw => .inl hw⟩
    refine (List.mem_append.mp hc').imp_right fun hnew => ?_
    rw [List.mem_singleton.mp hnew]

/-- A call has its function exactly when its macro is defined. -/
def Settled (t : Table) : Prop := ∀ c ∈ t.calls, c.generated = (t.find? c.callee).isSome

@[simp] theorem find?_note (t : Table) (n : Note) : (t.note n).find? = t.find? := rfl

@[simp] theorem find?_generate (t : Table) (d : Definition) : (t.generate d).find? = t.find? := rfl

/-- A definition that comes first stays the one that is found. -/
theorem find?_define (t : Table) (d : Definition) (name : Text) :
    (t.define d).find? name = (t.find? name).or (if d.name = name then some d else none) := by
  unfold define
  split
  next first hfirst =>
    by_cases hname : d.name = name
    · subst hname
      rw [find?_note, hfirst]
      rfl
    · simp [hname]
  next hnone =>
    rw [find?_generate, find?_note, find?, List.find?_append]
    simp [find?, List.find?_singleton]

theorem settled_define (h : Settled t) (d : Definition) : Settled (t.define d) := by
  intro c hc
  rw [find?_define]
  unfold define at hc
  split at hc
  next first hfirst =>
    rw [h c hc]
    by_cases hname : d.name = c.callee
    · simp [← hname, hfirst]
    · simp [hname]
  next hnone =>
    obtain ⟨c', hc', rfl⟩ := List.mem_map.mp hc
    have hbefore := h c' hc'
    by_cases hname : d.name = c'.callee
    · rw [← hname, hnone] at hbefore
      simp [Call.waitsFor, hname, hbefore]
    · have hwait : c'.waitsFor d.name = false := by simp [Call.waitsFor, Ne.symm hname]
      simp [hwait, hname, hbefore]

theorem settled_record {callee : Text} {args : List Text} {c : Call} (h : Settled t)
    (hrecord : t.record s callee args = (t', .ok c)) : Settled t' := by
  obtain ⟨ids, -, hc, ⟨d, hfind, rfl⟩ | ⟨hfind, rfl⟩⟩ := record_eq hrecord
  · intro c' hc'
    rcases List.mem_append.mp hc' with hold | hnew
    · exact h c' hold
    · rw [List.mem_singleton.mp hnew, hc]
      exact (congrArg Option.isSome hfind).symm
  · intro c' hc'
    rcases List.mem_append.mp hc' with hold | hnew
    · exact h c' hold
    · rw [List.mem_singleton.mp hnew, hc]
      exact (congrArg Option.isSome hfind).symm

theorem Moves.settled (h : Moves s t t') (hsettled : Settled t) : Settled t' :=
  h.invariant (fun _ d hu => settled_define hu d) (fun hrecord hu => settled_record hu hrecord)
    hsettled

end Table

end Packwright.Macro
