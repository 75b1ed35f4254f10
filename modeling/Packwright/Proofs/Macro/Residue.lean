import Packwright.Proofs.Macro.Inlining
import Packwright.Proofs.Macro.Settlement

/-! # What is left of calls and definitions

A scope is handed on after a pass that put no body into it. Such a pass leaves one line for each
line outside definitions: the line itself, or the call of a function in place of its macro call
(`remains_expandLines`). So no macro call is left in what the macro stage hands on
(`run_leaves_no_call`). Definitions are cut out, but the keyword of one may stand as the only word
before a macro call, and then the function call that is written there reads as the head of a
definition (`run_leaves_headers`).
-/

namespace Packwright.Macro

open Text (ascii)

/-! ## Lines after a pass that puts no body in -/

/-- What such a pass leaves of a line outside definitions, where functions are called by
`references`. -/
inductive Remains (references : List Text) (line : Text) : Text → Prop
  | plain (hheader : Header.parse? line = none) (hsite : CallSite.parse? line = none) :
      Remains references line line
  | written {site : CallSite} {r : Text} (hheader : Header.parse? line = none)
      (hsite : CallSite.parse? line = some site) (hr : r ∈ references) :
      Remains references line (callLine site.lead r)

namespace Remains

variable {references : List Text} {line l : Text}

theorem parse?_eq_none (h : Remains references line l)
    (hreferences : ∀ r ∈ references, ∃ c : Call, c.Proper ∧ c.reference = r) :
    CallSite.parse? l = none := by
  cases h with
  | plain _ hsite => exact hsite
  | written _ hsite hr =>
      obtain ⟨c, hproper, rfl⟩ := hreferences _ hr
      obtain ⟨-, hlead⟩ := Lead.of_parse? hsite
      exact hlead.parse?_callLine hproper.word.field hproper.ne_callWord

theorem newline_not_mem (h : Remains references line l) (hline : Text.newline ∉ line)
    (hreferences : ∀ r ∈ references, ∃ c : Call, c.Proper ∧ c.reference = r) :
    Text.newline ∉ l := by
  cases h with
  | plain => exact hline
  | written _ hsite hr =>
      obtain ⟨c, hproper, rfl⟩ := hreferences _ hr
      obtain ⟨hparts, -⟩ := Lead.of_parse? hsite
      rw [hparts, List.append_assoc, List.mem_append, not_or] at hline
      exact newline_not_mem_callLine hline.1 fun hmem => nomatch hproper.word.clean _ hmem

/-- A function call is left of a line that calls a macro. -/
theorem exists_callLine (h : Remains references line l) {site : CallSite}
    (hsite : CallSite.parse? line = some site) :
    Header.parse? line = none ∧ ∃ r ∈ references, l = callLine site.lead r := by
  cases h with
  | plain _ hnone =>
      rw [hnone] at hsite
      cases hsite
  | written hheader hsite' hr =>
      cases hsite.symm.trans hsite'
      exact ⟨hheader, _, hr, rfl⟩

/-- A line that is left reads as the head of a definition only if it was written for a call that has
the keyword of a definition as the one word before it. -/
theorem of_header (h : Remains references line l) (hl : (Header.parse? l).isSome = true) :
    ∃ site, CallSite.parse? line = some site ∧ Text.fields site.lead = [generateWord] ∧
      ∃ r ∈ references, l = callLine site.lead r := by
  cases h with
  | plain hheader =>
      rw [hheader] at hl
      cases hl
  | written hheader hsite hr =>
      exact ⟨_, hsite, (CallSite.isSome_parse?_callLine hsite hheader _).mp hl, _, hr, rfl⟩

end Remains

namespace Table

variable {t t' : Table} {s : Scope} {lines : List Text} {e : Expanded}

/-- A pass over lines that puts no body in leaves one line for each line outside definitions. -/
theorem remains_expandLines (h : t.expandLines s lines = (t', .ok e)) (hin : e.inlined = false) :
    List.Forall₂ (Remains (t'.calls.map Call.reference)) (commandsIn lines) e.lines := by
  fun_induction expandLines t s lines generalizing t' e with
  | case1 =>
      cases h
      rw [commandsIn]
      exact .nil
  | case2 | case5 => cases h
  | case3 t line rest name params hheader depth =>
      rename_i isBody ih
      rw [commandsIn]
      simp only [hheader]
      exact ih h hin
  | case4 t line rest hheader hsite t₁ result hrest ih =>
      cases result with
      | error fault => cases h
      | ok y =>
          cases h
          rw [commandsIn]
          simp only [hheader]
          exact .cons (.plain hheader hsite) (ih hrest hin)
  | case6 t line rest hheader site hsite t₁ y hresolve t₂ result hrest ih =>
      cases result with
      | error fault => cases h
      | ok z =>
          cases h
          rcases resolve_inlining hresolve with ⟨c, hc, rfl⟩ | ⟨x, -, rfl⟩
          · have hextends := (expandLines_moves t₁ s rest).extends
            rw [hrest] at hextends
            have hr : c.reference ∈ t₂.calls.map Call.reference :=
              hextends.references_subset (List.mem_map_of_mem hc)
            rw [commandsIn]
            simp only [hheader]
            exact .cons (.written hheader hsite hr) (ih hrest hin)
          · cases hin

end Table

/-! ## Finished scopes -/

namespace Pass

variable {p : Pass} {z : Scope}

/-- The lines of a finished scope are what is left of the lines outside definitions. Without any,
the scope is empty. -/
theorem remains_of_finished? (h : p.finished? = some z)
    (hproper : ∀ c ∈ p.expansion.1.calls, c.Proper) :
    let commands := commandsIn p.work.scope.lines
    (commands = [] ∧ z.content = []) ∨
      List.Forall₂ (Remains (p.expansion.1.calls.map Call.reference)) commands
        (z.content.splitOn Text.newline) := by
  intro commands
  obtain ⟨t, e, hexp, hin, rfl⟩ := expansion_of_finished? h
  have hremains := Table.remains_expandLines hexp hin
  rw [hexp] at hproper ⊢
  by_cases hlines : e.lines = []
  · rw [hlines, List.forall₂_nil_right_iff] at hremains
    have hcontent : (p.work.next e).scope.content = Text.unlines e.lines := rfl
    rw [hcontent, hlines]
    exact .inl ⟨hremains, rfl⟩
  · have hsingle : ∀ l ∈ e.lines, Text.newline ∉ l := by
      intro l hl
      obtain ⟨line, hline, hleft⟩ := exists_left_of_forall₂ hremains hl
      refine hleft.newline_not_mem ?_ fun r hr => ?_
      · exact Text.newline_not_mem_lines (commandsIn_subset _ hline)
      · obtain ⟨c, hc, rfl⟩ := List.mem_map.mp hr
        exact ⟨c, hproper c hc, rfl⟩
    have hsplit : (p.work.next e).scope.content.splitOn Text.newline = e.lines :=
      List.splitOn_intercalate Text.newline hsingle hlines
    rw [hsplit]
    exact .inr hremains

end Pass

/-- What the macro stage hands on from any table, to whoever collects it, passes have finished. -/
theorem exists_pass_of_mem_run {t : Table} {wanted : Option Nat}
    {source : List (Except Fault Scope)} {z : Scope}
    (hz : z ∈
      (Pipeline.run Collected.receive [.macros] ((t, ()), { wanted }) source).state.2.scopes) :
    let f := Flow.ofSource source
    ∃ p ∈ (t.trace f.fault f.scopes).passes, p.finished? = some z := by
  intro f
  let m : Pipeline.Memory [.macros] := (t, ())
  have hfed := (Pipeline.run_agrees Collected.receive [.macros] m { wanted } source).fed
  have hstate := congrArg (fun r => r.1.scopes) hfed
  dsimp only at hstate
  rw [hstate] at hz
  have hscopes := (Pipeline.takeEach_collected { wanted } (Pipeline.flow [.macros] m f).2.events).1
  have hmem : z ∈ (Pipeline.flow [.macros] m f).2.scopes := hscopes.subset hz
  have hyields : (Pipeline.flow [.macros] m f).2.scopes = (t.trace f.fault f.scopes).yields :=
    (t.trace_describes f).scopes
  rw [hyields] at hmem
  exact List.mem_filterMap.mp hmem

/-- Whatever runs came before, the passes of a run over scopes in checked namespaces know calls with
generated names in such namespaces alone. -/
theorem proper_of_uses {settings : Settings} {uses : List Use}
    {source : List (Except Fault Scope)}
    (huses : ∀ u ∈ uses, ∀ s ∈ (Flow.ofSource u.source).scopes, s.ns.Checked)
    (hsource : ∀ s ∈ (Flow.ofSource source).scopes, s.ns.Checked) :
    let t : Table := uses.foldl Stage.macros.use (Stage.macros.start settings)
    let f := Flow.ofSource source
    ∀ p ∈ (t.trace f.fault f.scopes).passes, ∀ c ∈ p.expansion.1.calls, c.Proper := by
  intro t f p hp
  obtain ⟨before, hbefore, hreaches⟩ := exists_reaches_of_uses (settled_start settings) huses
  obtain ⟨u, hto, hstep, -⟩ :=
    (t.trace_follows f.fault f.scopes (hreaches.settled (settled_start settings))).step p hp
  have hchecked : ∀ s ∈ before ++ f.scopes, s.ns.Checked := by
    intro s hs
    rcases List.mem_append.mp hs with hs | hs
    · exact hbefore s hs
    · exact hsource s hs
  have hall : Reaches (before ++ f.scopes) (Stage.macros.start settings) u :=
    (hreaches.mono (List.subset_append_left _ _)).trans (hto.mono (List.subset_append_right _ _))
  exact (hstep.mono (List.subset_append_right _ _)).proper hall hchecked

/-- Whatever runs came before, and however a run ends, no line of a scope that the macro stage hands
on holds the keyword of a call as a word. -/
theorem run_leaves_no_call (settings : Settings) (uses : List Use)
    (source : List (Except Fault Scope)) (wanted : Option Nat)
    (huses : ∀ u ∈ uses, ∀ s ∈ (Flow.ofSource u.source).scopes, s.ns.Checked)
    (hsource : ∀ s ∈ (Flow.ofSource source).scopes, s.ns.Checked) :
    let t : Table := uses.foldl Stage.macros.use (Stage.macros.start settings)
    let o := Pipeline.run Collected.receive [.macros] ((t, ()), { wanted }) source
    ∀ z ∈ o.state.2.scopes, ∀ line ∈ z.content.splitOn Text.newline,
      ¬ ∃ before after, line = before ++ callWord ++ after ∧ Text.EndsBlank before ∧
        endsWord after = true := by
  intro t o z hz line hline
  obtain ⟨p, hp, hfinished⟩ := exists_pass_of_mem_run hz
  have hproper := proper_of_uses huses hsource p hp
  rw [← CallSite.parse?_eq_none_iff]
  rcases Pass.remains_of_finished? hfinished hproper with ⟨-, hempty⟩ | hremains
  · rw [hempty] at hline
    rw [List.mem_singleton.mp hline]
    rfl
  · obtain ⟨l, -, hleft⟩ := exists_left_of_forall₂ hremains hline
    refine hleft.parse?_eq_none fun r hr => ?_
    obtain ⟨c, hc, rfl⟩ := List.mem_map.mp hr
    exact ⟨c, hproper c hc, rfl⟩

/-- The keyword of a call is the name of the namespace, an argument, and the name of a macro. -/
def keywords : Scope :=
  let ns : Namespace := ⟨{ path := ascii "packs/p", name := ascii "p" }, ascii "call"⟩
  ⟨ns, ascii "main", Text.unlines [ascii "generate function call", ascii "\tsay hi",
    ascii "generate function run x", ascii "\texecute run x x", ascii "call run call"]⟩

/-- The first run is stopped at its first scope, so the function of the call is left to the second
one. -/
theorem run_leaves_no_call_keywords :
    keywords.ns.Checked ∧
    let first : Use := ⟨Collected, Collected.receive, { wanted := some 1 }, [.ok keywords]⟩
    let t : Table := [first].foldl Stage.macros.use (Stage.macros.start {})
    let o := Pipeline.run Collected.receive [.macros] ((t, ()), {}) [.ok keywords]
    o.state.2.scopes.map Scope.content =
        [ascii "execute run function call:_/ff/ff/ff/ff", ascii "say hi"] ∧
      ∀ z ∈ o.state.2.scopes, ∀ line ∈ z.content.splitOn Text.newline,
        ¬ ∃ before after, line = before ++ callWord ++ after ∧ Text.EndsBlank before ∧
          endsWord after = true := by
  have hns : keywords.ns.Checked := by
    unfold Namespace.Checked
    decide +kernel
  have hsource : ∀ s ∈ (Flow.ofSource [.ok keywords]).scopes, s.ns.Checked := by
    intro s hs
    rw [List.mem_singleton.mp hs]
    exact hns
  refine ⟨hns, ?_⟩
  intro first t o
  exact ⟨by decide +kernel, run_leaves_no_call {} [first] [.ok keywords] none
    (List.forall_mem_singleton.mpr hsource) hsource⟩

/-- Whatever runs came before, and however a run ends, a line that reads as the head of a definition
in a scope that the macro stage hands on is the call of a function, written by the last pass over
the scope for a macro call that has the keyword of a definition as the one word before it. Every
such macro call leaves one, and at every pass such calls are the ones that make heads of
definitions. -/
theorem run_leaves_headers (settings : Settings) (uses : List Use)
    (source : List (Except Fault Scope)) (wanted : Option Nat)
    (huses : ∀ u ∈ uses, ∀ s ∈ (Flow.ofSource u.source).scopes, s.ns.Checked)
    (hsource : ∀ s ∈ (Flow.ofSource source).scopes, s.ns.Checked) :
    let t : Table := uses.foldl Stage.macros.use (Stage.macros.start settings)
    let f := Flow.ofSource source
    let passes := (t.trace f.fault f.scopes).passes
    let o := Pipeline.run Collected.receive [.macros] ((t, ()), { wanted }) source
    (∀ z ∈ o.state.2.scopes, ∃ p ∈ passes, p.finished? = some z ∧
      (∀ line ∈ z.content.splitOn Text.newline, (Header.parse? line).isSome = true →
        ∃ l ∈ commandsIn p.work.scope.lines, ∃ site, CallSite.parse? l = some site ∧
          Text.fields site.lead = [generateWord] ∧
          ∃ c ∈ p.expansion.1.calls, line = callLine site.lead c.reference) ∧
      ∀ l ∈ commandsIn p.work.scope.lines, ∀ site, CallSite.parse? l = some site →
        Text.fields site.lead = [generateWord] →
        ∃ line ∈ z.content.splitOn Text.newline, (Header.parse? line).isSome = true) ∧
    ∀ p ∈ passes, ∀ q ∈ p.resolutions, ∀ r : Text,
      (q.1.resolve p.work.scope q.2).2 = .ok ⟨[callLine q.2.lead r], false⟩ →
      ((Header.parse? (callLine q.2.lead r)).isSome = true ↔
        Text.fields q.2.lead = [generateWord]) := by
  intro t f passes o
  refine ⟨fun z hz => ?_, fun p hp q hq r _ => ?_⟩
  · obtain ⟨p, hp, hfinished⟩ := exists_pass_of_mem_run hz
    have hproper := proper_of_uses huses hsource p hp
    refine ⟨p, hp, hfinished, ?_⟩
    rcases Pass.remains_of_finished? hfinished hproper with ⟨hnone, hempty⟩ | hremains
    · rw [hnone, hempty]
      refine ⟨fun line hline hheader => ?_, fun l hl => (nomatch hl)⟩
      rw [List.mem_singleton.mp hline] at hheader
      cases hheader
    · refine ⟨fun line hline hheader => ?_, fun l hl site hsite hfields => ?_⟩
      · obtain ⟨l, hl, hleft⟩ := exists_left_of_forall₂ hremains hline
        obtain ⟨site, hsite, hfields, r, hr, rfl⟩ := hleft.of_header hheader
        obtain ⟨c, hc, rfl⟩ := List.mem_map.mp hr
        exact ⟨l, hl, site, hsite, hfields, c, hc, rfl⟩
      · obtain ⟨line, hmem, hleft⟩ := exists_zip_of_forall₂ hremains hl
        obtain ⟨hheader, r, -, rfl⟩ := hleft.exists_callLine hsite
        exact ⟨_, (List.of_mem_zip hmem).2,
          (CallSite.isSome_parse?_callLine hsite hheader r).mpr hfields⟩
  · obtain ⟨l, -, hheader, hsite⟩ := Table.parse?_of_mem_resolutions hq
    exact CallSite.isSome_parse?_callLine hsite hheader r

/-- A macro call with the keyword of a definition before it. -/
def generateCall : Scope :=
  let ns : Namespace := ⟨{ path := ascii "packs/p", name := ascii "p" }, ascii "ns"⟩
  ⟨ns, ascii "main", Text.unlines [ascii "generate function hi", ascii "\tsay hi",
    ascii "generate call hi"]⟩

/-- What is written for the call reads as the head of a definition. -/
theorem run_leaves_header :
    (Stage.macros.run {} [generateCall]).state.2.scopes.map Scope.content =
        [ascii "generate function ns:_/ff/ff/ff/ff", ascii "say hi"] ∧
      (Header.parse? (ascii "generate function ns:_/ff/ff/ff/ff")).isSome = true := by
  decide +kernel

theorem run_leaves_headers_generateCall :
    generateCall.ns.Checked ∧
    let t : Table := Stage.macros.start {}
    let head := ascii "generate function ns:_/ff/ff/ff/ff"
    let o := Pipeline.run Collected.receive [.macros] ((t, ()), {}) [.ok generateCall]
    generateCall.withContent head ∈ o.state.2.scopes ∧
      ∃ p ∈ (t.trace none [generateCall]).passes,
        p.finished? = some (generateCall.withContent head) ∧
        ∃ l ∈ commandsIn p.work.scope.lines, ∃ site, CallSite.parse? l = some site ∧
          Text.fields site.lead = [generateWord] ∧
          ∃ c ∈ p.expansion.1.calls, head = callLine site.lead c.reference := by
  have hns : generateCall.ns.Checked := by
    unfold Namespace.Checked
    decide +kernel
  have hsource : ∀ s ∈ (Flow.ofSource [.ok generateCall]).scopes, s.ns.Checked := by
    intro s hs
    rw [List.mem_singleton.mp hs]
    exact hns
  refine ⟨hns, ?_⟩
  intro t head o
  have hz : generateCall.withContent head ∈ o.state.2.scopes := by decide +kernel
  obtain ⟨p, hp, hfinished, hheaders, -⟩ :=
    (run_leaves_headers {} [] [.ok generateCall] none (fun _ hu => nomatch hu) hsource).1 _ hz
  exact ⟨hz, p, hp, hfinished, hheaders head (by decide +kernel) (by decide +kernel)⟩

/-- Where a body is put in for another call of the scope, the head is read, and what is indented
under it is lost. -/
example :
    let s := generateCall.withContent (Text.unlines [generateCall.content, ascii "\tsay lost",
      ascii "call hi again"])
    (Stage.macros.run {} [s]).state.2.scopes.map Scope.content =
      [ascii "say hi", ascii "say hi"] := by
  decide +kernel

end Packwright.Macro
