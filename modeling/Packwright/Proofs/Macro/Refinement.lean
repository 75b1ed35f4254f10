import Packwright.Proofs.Macro.Entry

/-! # A run keeps what scopes mean

A run over ordinary lines learns its definitions from the sources alone, in their order, and every
pass of it finds a table and a scope about which `expandLines_keeps` speaks (`trace_sound`). So each
scope means at the end of its life what it meant at the start (`Chain.keeps`).
-/

namespace Packwright.Macro

/-! ## Definitions -/

theorem commandsIn_of_no_header {lines : List Text}
    (h : ∀ line ∈ lines, Header.parse? line = none) : commandsIn lines = lines := by
  induction lines with
  | nil => rw [commandsIn]
  | cons line rest ih =>
      rw [List.forall_mem_cons] at h
      rw [commandsIn]
      simp only [h.1]
      rw [ih h.2]

theorem definitionsIn_of_no_header (reference : Text) {lines : List Text}
    (h : ∀ line ∈ lines, Header.parse? line = none) : definitionsIn reference lines = [] := by
  induction lines with
  | nil => rw [definitionsIn]
  | cons line rest ih =>
      rw [List.forall_mem_cons] at h
      rw [definitionsIn]
      simp only [h.1]
      exact ih h.2

theorem firstDefinition_cons (d : Definition) (ds : List Definition) (name : Text) :
    firstDefinition (d :: ds) name =
      (if d.name = name then some d else none).or (firstDefinition ds name) := by
  rw [firstDefinition, List.find?_cons]
  by_cases hname : d.name = name
  · simp [hname]
  · rw [beq_eq_false_iff_ne.mpr hname, if_neg hname]
    rfl

theorem firstDefinition_append (ds ds' : List Definition) (name : Text) :
    firstDefinition (ds ++ ds') name =
      (firstDefinition ds name).or (firstDefinition ds' name) :=
  List.find?_append

namespace Table

variable {t t' : Table} {s : Scope}

theorem find?_resolve (t : Table) (s : Scope) (site : CallSite) :
    (t.resolve s site).1.find? = t.find? := by
  funext name
  rw [find?, find?, definitions_resolve]

/-- A pass over lines learns the definitions in them. -/
theorem find?_expandLines {lines : List Text} {x : Expanded}
    (h : t.expandLines s lines = (t', .ok x)) (name : Text) :
    t'.find? name =
      (t.find? name).or (firstDefinition (definitionsIn s.reference lines) name) := by
  fun_induction expandLines t s lines generalizing t' x with
  | case1 =>
      cases h
      rw [definitionsIn, firstDefinition, List.find?_nil, Option.or_none]
  | case2 | case5 => cases h
  | case3 t line rest macroName params hheader depth =>
      rename_i isBody ih
      rw [ih h, find?_define, definitionsIn]
      simp only [hheader]
      rw [firstDefinition_cons, Option.or_assoc]
  | case4 t line rest hheader hsite t₁ result hrest ih =>
      obtain ⟨rfl, hx⟩ := Prod.mk.inj h
      rw [definitionsIn]
      simp only [hheader]
      cases result with
      | error fault => cases hx
      | ok y => exact ih hrest
  | case6 t line rest hheader site hsite t₁ y hresolve t₂ result hrest ih =>
      obtain ⟨rfl, hx⟩ := Prod.mk.inj h
      rw [definitionsIn]
      simp only [hheader]
      have hfind := t.find?_resolve s site
      rw [hresolve] at hfind
      cases result with
      | error fault => cases hx
      | ok z => rw [ih hrest, hfind]

end Table

theorem Pass.find?_after {p : Pass} (h : p.fault? = none) (name : Text) :
    p.after.find? name = (p.table.find? name).or
      (firstDefinition (definitionsIn p.work.scope.reference p.work.scope.lines) name) := by
  obtain ⟨t, x, hexp, hafter⟩ := expansion_of_fault?_eq_none h
  rw [hafter]
  exact Table.find?_expandLines hexp name

/-! ## Bodies in a run -/

/-- The bodies, with their arguments, that a pass puts in place of calls. -/
def Pass.bodies (p : Pass) : List (List Text) :=
  p.resolutions.filterMap fun q =>
    match (q.1.resolve p.work.scope q.2).2 with
    | .ok ⟨lines, true⟩ => some (lines.map (·.drop q.2.lead.length))
    | _ => none

theorem Pass.mem_bodies {p : Pass} {q : Table × CallSite} (hq : q ∈ p.resolutions)
    {body : List Text}
    (h : (q.1.resolve p.work.scope q.2).2 = .ok ⟨body.map (q.2.lead ++ ·), true⟩) :
    body ∈ p.bodies := by
  refine List.mem_filterMap.mpr ⟨q, hq, ?_⟩
  rw [h]
  simp [Function.comp_def]

/-- The bodies, with their arguments, that a run makes functions of or puts in place of calls. -/
def Trace.bodies (r : Trace) : List (List Text) :=
  r.table.calls.filterMap (fun c => (r.table.find? c.callee).map fun d => d.expand c.args) ++
    r.passes.flatMap Pass.bodies

/-- What a run over ordinary lines knows at its end. -/
structure Table.Final (T : Table) : Prop where
  proper : ∀ c ∈ T.calls, c.Proper
  ordinary : ∀ c ∈ T.calls, ∀ d, T.find? c.callee = some d →
    ∀ l ∈ d.expand c.args, isOrdinary l = true

/-- The lines of a scope are entries of a run. -/
def Shows (T : Table) (s : Scope) (es : List Entry) : Prop :=
  s.lines = es.map Entry.text ∧ ∀ e ∈ es, e.Fine T.calls s.ns.name

variable {T : Table}

theorem Shows.inked {s : Scope} {es : List Entry} (hT : T.Final) (h : Shows T s es) :
    ∀ line ∈ s.lines, Inked line := by
  intro line hline
  rw [h.1] at hline
  obtain ⟨e, he, rfl⟩ := List.mem_map.mp hline
  exact (h.2 e he).inked hT.proper

theorem Shows.header {s : Scope} {es : List Entry} (h : Shows T s es) :
    ∀ line ∈ s.lines, Header.parse? line = none := by
  intro line hline
  rw [h.1] at hline
  obtain ⟨e, he, rfl⟩ := List.mem_map.mp hline
  exact (h.2 e he).header

/-- The function of a call starts with the lines of its body. -/
theorem shows_start {t : Table} (hT : T.Final) (hclean : t.Clean) (hextends : t.Extends T)
    {c : Call} (hc : c ∈ t.calls) {w : Pending} (h : t.start? c = some w) :
    ∃ d, T.find? c.callee = some d ∧ Shows T w.scope ((d.expand c.args).map Entry.raw) := by
  obtain ⟨d, hfind, rfl⟩ := Option.map_eq_some_iff.mp h
  have hinked := Definition.inked_expand (hclean.definitions d (List.mem_of_find?_eq_some hfind))
    (hclean.calls c hc).2
  obtain ⟨c', hc', hbare⟩ := hextends.mem_calls hc
  obtain ⟨hcallee, hargs, -, -⟩ := Call.fields_of_bare hbare
  have hfind' := hextends.find? hfind
  refine ⟨d, hfind', ?_, fun e he => ?_⟩
  · rw [List.map_map, Scope.lines, Call.scope, Text.lines_unlines fun l hl => (hinked l hl).isLine]
    exact (List.map_id _).symm
  · obtain ⟨l, hl, rfl⟩ := List.mem_map.mp he
    refine ⟨hinked l hl, hT.ordinary c' hc' d (hcallee ▸ hfind') l ?_⟩
    rw [hargs]
    exact hl

/-! ## Passes of a run -/

/-- What a pass of a run over ordinary lines can rely on. -/
structure Pass.Sound (p : Pass) (T : Table) : Prop where
  clean : p.table.Clean
  within : p.table.Within Namespace.Checked
  checked : p.work.scope.ns.Checked
  ordinary : ∀ body ∈ p.bodies, ∀ l ∈ body, isOrdinary l = true
  known : p.after.Extends T

/-- A pass keeps what its scope means. -/
theorem Pass.Sound.keeps {p : Pass} (h : p.Sound T) (hT : T.Final) {t : Table} {x : Expanded}
    (hexp : p.expansion = (t, .ok x)) (hinked : ∀ line ∈ p.work.scope.lines, Inked line)
    {es : List Entry} (hes : commandsIn p.work.scope.lines = es.map Entry.text)
    (hfine : ∀ e ∈ es, e.Fine T.calls p.work.scope.ns.name) :
    t.Clean ∧ ∃ es', Shows T (p.work.next x).scope es' ∧
      Keeps T.find? p.work.scope.ns.name 1 es es' ∧
      (x.inlined = false → ∀ e ∈ es', CallSite.parse? e.text = none) := by
  have hknown : t.Extends T := by
    obtain ⟨pending, hafter, -⟩ := p.after_eq
    obtain ⟨hlimit, hdefinitions, hcalls⟩ := h.known
    rw [hafter, hexp] at hlimit hdefinitions hcalls
    exact ⟨hlimit, hdefinitions, hcalls⟩
  obtain ⟨hclean, es', hlines, hfine', hkeeps, hfree⟩ := expandLines_keeps hT.proper h.checked
    h.clean h.within hinked (fun q hq body hbody => h.ordinary body (p.mem_bodies hq hbody)) hexp
    hknown hes hfine
  refine ⟨hclean, es', ⟨?_, hfine'⟩, hkeeps, hfree⟩
  have hline : ∀ line ∈ x.lines, Text.IsLine line := by
    intro line hl
    rw [hlines] at hl
    obtain ⟨e, he, rfl⟩ := List.mem_map.mp hl
    exact ((hfine' e he).inked hT.proper).isLine
  exact (Text.lines_unlines hline).trans hlines

/-- A table whose pending scopes consist of entries of a run. -/
structure Table.Ready (t T : Table) : Prop where
  clean : t.Clean
  within : t.Within Namespace.Checked
  pending : ∀ w ∈ t.pending, ∃ es, Shows T w.scope es

/-- What a pass leaves pending consists of entries again. -/
theorem Pass.Sound.ready_after {p : Pass} (h : p.Sound T) (hT : T.Final)
    (hsettled : p.table.Settled) (hfault : p.fault? = none)
    (hpending : ∀ w ∈ p.table.pending, ∃ es, Shows T w.scope es)
    (hinked : ∀ line ∈ p.work.scope.lines, Inked line)
    {es : List Entry} (hes : commandsIn p.work.scope.lines = es.map Entry.text)
    (hfine : ∀ e ∈ es, e.Fine T.calls p.work.scope.ns.name) : p.after.Ready T := by
  obtain ⟨t, x, hexp, hafter⟩ := expansion_of_fault?_eq_none hfault
  obtain ⟨hclean, es', hshows, -, -⟩ := h.keeps hT hexp hinked hes hfine
  have hclean : p.after.Clean := by
    rw [hafter]
    exact ⟨hclean.definitions, hclean.calls⟩
  refine ⟨hclean, p.within_after h.checked h.within, fun w hw => ?_⟩
  obtain ⟨new, hstarted, hcases⟩ := p.account hsettled
  have hnew : ∀ w ∈ new, ∃ es, Shows T w.scope es := by
    intro w hw
    have hmem := hstarted.mem_iff.mpr (List.mem_append_left _ hw)
    obtain ⟨c, hc, hstart⟩ := List.mem_filterMap.mp hmem
    obtain ⟨d, -, hshows⟩ := shows_start hT hclean h.known hc hstart
    exact ⟨_, hshows⟩
  obtain ⟨_, hsome, -⟩ | ⟨_, _, -, -, -, -, heq⟩ | ⟨_, y, hexp', -, -, -, heq⟩ := hcases
  · rw [hfault] at hsome
    cases hsome
  · rw [heq] at hw
    rcases List.mem_append.mp hw with hw | hw
    · exact hnew w hw
    · exact hpending w hw
  · rw [heq] at hw
    rcases List.mem_cons.mp hw with rfl | hw
    · rw [hexp] at hexp'
      cases hexp'
      exact ⟨es', hshows⟩
    · rcases List.mem_append.mp hw with hw | hw
      · exact hnew w hw
      · exact hpending w hw

/-- A source scope that a run can start from: its lines show something, and those outside
definitions are ordinary. -/
structure Plain (s : Scope) : Prop where
  checked : s.ns.Checked
  inked : ∀ line ∈ s.lines, Inked line
  ordinary : ∀ line ∈ commandsIn s.lines, isOrdinary line = true

theorem Plain.fine {s : Scope} (h : Plain s) :
    commandsIn s.lines = ((commandsIn s.lines).map Entry.raw).map Entry.text ∧
      ∀ e ∈ (commandsIn s.lines).map Entry.raw, e.Fine T.calls s.ns.name := by
  refine ⟨?_, fun e he => ?_⟩
  · rw [List.map_map]
    exact (List.map_id _).symm
  · obtain ⟨l, hl, rfl⟩ := List.mem_map.mp he
    exact ⟨h.inked l (commandsIn_subset _ hl), h.ordinary l hl⟩

/-- What the passes of a run can rely on about its end. -/
def Pass.Regular (p : Pass) (T : Table) : Prop :=
  p.after.Extends T ∧ ∀ body ∈ p.bodies, ∀ l ∈ body, isOrdinary l = true

namespace Table

theorem settle_sound (hT : T.Final) (t : Table) (hsettled : t.Settled) (hready : t.Ready T)
    (hfault : t.settle.fault = none) (hregular : ∀ p ∈ t.settle.passes, p.Regular T) :
    (∀ p ∈ t.settle.passes, p.Sound T) ∧ t.settle.table.Clean ∧
      t.settle.table.find? = t.find? := by
  fun_induction settle t with
  | case1 => cases hfault
  | case2 t work rest hpending pass hnone _ ih =>
      obtain ⟨hclean, hwithin, hentries⟩ := hready
      simp only [Table.Within, hpending, List.forall_mem_cons] at hwithin hentries
      obtain ⟨hpass, hregular⟩ := List.forall_mem_cons.mp hregular
      have hsound : pass.Sound T := ⟨⟨hclean.definitions, hclean.calls⟩, ⟨hwithin.1, hwithin.2.2⟩,
        hwithin.2.1, hpass.2, hpass.1⟩
      obtain ⟨es, hshows⟩ := hentries.1
      have hcommands := commandsIn_of_no_header hshows.header
      have hafter := hsound.ready_after hT hsettled hnone hentries.2 (hshows.inked hT)
        (hcommands.trans hshows.1) hshows.2
      obtain ⟨hrest, hend, hfind⟩ := ih (pass.settled_after hsettled) hafter hfault hregular
      -- entries hold no headers, so a pass over a pending scope defines nothing
      refine ⟨List.forall_mem_cons.mpr ⟨hsound, hrest⟩, hend, hfind.trans ?_⟩
      funext name
      rw [Pass.find?_after hnone, definitionsIn_of_no_header _ hshows.header]
      exact Option.or_none
  | case3 t hpending hclose =>
      rw [hsettled.canClose_eq_false] at hclose
      cases hclose
  | case4 => exact ⟨List.forall_mem_nil _, hready.clean, rfl⟩

/-- Every pass of a run over plain scopes is sound, and the run ends with clean bodies and the first
definitions in source order. -/
theorem trace_sound (hT : T.Final) (t : Table) (sources : List Scope)
    (hsources : ∀ s ∈ sources, Plain s) (hsettled : t.Settled) (hready : t.Ready T)
    (hfault : (t.trace none sources).fault = none)
    (hregular : ∀ p ∈ (t.trace none sources).passes, p.Regular T) :
    (∀ p ∈ (t.trace none sources).passes, p.Sound T) ∧ (t.trace none sources).table.Clean ∧
      ∀ name, (t.trace none sources).table.find? name = (t.find? name).or
        (firstDefinition (sources.flatMap fun s => definitionsIn s.reference s.lines) name) := by
  induction sources generalizing t with
  | nil =>
      obtain ⟨hsound, hend, hfind⟩ := settle_sound hT t hsettled hready hfault hregular
      exact ⟨hsound, hend, fun name => (congrFun hfind name).trans Option.or_none.symm⟩
  | cons s rest ih =>
      -- the invariant is `Ready`: whatever is pending consists of entries of the run
      rw [List.forall_mem_cons] at hsources
      let pass : Pass := ⟨t, ⟨s, 0⟩⟩
      rw [trace] at hfault hregular ⊢
      cases hnone : pass.fault? with
      | some fault =>
          simp only [pass] at hnone
          simp only [hnone] at hfault
          cases hfault
      | none =>
          simp only [pass] at hnone
          simp only [hnone] at hfault hregular ⊢
          obtain ⟨hpass, hregular⟩ := List.forall_mem_cons.mp hregular
          have hsound : pass.Sound T :=
            ⟨hready.clean, hready.within, hsources.1.checked, hpass.2, hpass.1⟩
          obtain ⟨hes, hfine⟩ := hsources.1.fine (T := T)
          have hafter := hsound.ready_after hT hsettled hnone hready.pending hsources.1.inked hes
            hfine
          obtain ⟨hrest, hend, hfind⟩ := ih pass.after hsources.2 (pass.settled_after hsettled)
            hafter hfault hregular
          refine ⟨List.forall_mem_cons.mpr ⟨hsound, hrest⟩, hend, fun name => (hfind name).trans ?_⟩
          rw [Pass.find?_after hnone, List.flatMap_cons, firstDefinition_append, Option.or_assoc]

end Table

/-! ## Lives -/

/-- The passes over a scope keep what it means, and leave no macro call in it. -/
theorem Chain.keeps {w : Pending} {ps : List Pass} {z : Scope} (h : Chain w ps z) (hT : T.Final)
    (hsound : ∀ p ∈ ps, p.Sound T) (hinked : ∀ line ∈ w.scope.lines, Inked line) {es : List Entry}
    (hes : commandsIn w.scope.lines = es.map Entry.text)
    (hfine : ∀ e ∈ es, e.Fine T.calls w.scope.ns.name) :
    ∃ es', Shows T z es' ∧ Keeps T.find? w.scope.ns.name ps.length es es' ∧
      ∀ e ∈ es', CallSite.parse? e.text = none := by
  induction h generalizing es with
  | last p hexp hin =>
      obtain ⟨-, es', hshows, hkeeps, hfree⟩ :=
        (hsound p List.mem_cons_self).keeps hT hexp hinked hes hfine
      exact ⟨es', hshows, hkeeps, hfree hin⟩
  | again p hexp hin hrest ih =>
      rw [List.forall_mem_cons] at hsound
      obtain ⟨-, es₁, hshows₁, hkeeps₁, -⟩ := hsound.1.keeps hT hexp hinked hes hfine
      have hcommands := commandsIn_of_no_header hshows₁.header
      obtain ⟨es₂, hshows₂, hkeeps₂, hfree⟩ := ih hsound.2 (hshows₁.inked hT)
        (hcommands.trans hshows₁.1) hshows₁.2
      -- every pass may take one level of bodies away, so the depths add up
      refine ⟨es₂, hshows₂, ?_, hfree⟩
      rw [List.length_cons, Nat.add_comm]
      exact hkeeps₁.trans hkeeps₂

end Packwright.Macro
