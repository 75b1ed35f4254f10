import Packwright.Proofs.Macro.Refinement

/-! # Expansion keeps the meaning of sources

The macro stage resolves each call by what it knows at that moment: a call is put in place, shares a
function made before, or gets a function at once or later. None of this shows in the end. What a
source scope means by its macro calls and the first definitions in source order is what the function
handed on for it means by the functions handed on for calls (`run_keeps_meaning`).
-/

namespace Packwright.Macro

open Text (ascii)

variable {T : Table}

/-! ## Compiled functions -/

section Compiled

variable {functions : List (Call × Scope)}

theorem ofCompiled_plain (hproper : ∀ f ∈ functions, f.1.Proper) {line : Text}
    (h : ¬ Anonymous.mark <:+: line) :
    Reading.ofCompiled functions line = .command (.plain line) := by
  rw [Reading.ofCompiled, find?_callLine_eq_none _ (fun f hf => (hproper f hf).mark) h]

theorem ofCompiled_call (hproper : ∀ f ∈ functions, f.1.Proper) {c : Call} {s : Scope}
    (hmem : (c, s) ∈ functions)
    (hunique : ∀ f ∈ functions, f.1.scopeName = c.scopeName → f = (c, s)) (lead : Text) :
    Reading.ofCompiled functions (callLine lead c.reference) =
      if Text.isSpace lead then .body lead s.lines
      else .command (.calling lead c.ns.name c.callee c.args) := by
  have hsome := find?_callLine_eq_some (fun f : Call × Scope => f.1.reference)
    (fun f hf => (hproper f hf).word.field) hmem (fun f hf heq => hunique f hf
      ((Namespace.reference_inj (hproper f hf).1 (hproper _ hmem).1).mp heq).2) lead []
  have hlead := take_callLine lead [] c.reference
  rw [List.append_nil] at hsome hlead
  rw [Reading.ofCompiled, hsome]
  simp only [hlead]

end Compiled

/-! ## Unfolding -/

/-- A scope without macro calls that came from lines by at most `K` passes. -/
def Compiles (T : Table) (K : Nat) (lines : List Text) (s : Scope) : Prop :=
  ∃ es k, k ≤ K ∧ Shows T s es ∧ Keeps T.find? s.ns.name k (lines.map Entry.raw) es ∧
    ∀ e ∈ es, CallSite.parse? e.text = none

/-- The functions handed on for the calls of a table come from the bodies of their macros. -/
structure Made (T : Table) (K : Nat) (functions : List (Call × Scope)) : Prop where
  calls : ∀ f ∈ functions, f.1 ∈ T.calls
  unique : ∀ f ∈ functions, ∀ g ∈ functions, f.1.scopeName = g.1.scopeName → f = g
  body : ∀ c ∈ T.calls, ∃ s d, (c, s) ∈ functions ∧ T.find? c.callee = some d ∧
    s.ns = c.ns ∧ Compiles T K (d.expand c.args) s

section Made

variable {K : Nat} {functions : List (Call × Scope)} {ns : Text}

/-- An entry without a macro call is read as the same command from both sides, or as the body of a
macro on one side and its function on the other. -/
theorem Made.reading (h : Made T K functions) (hT : T.Final) {e : Entry} (he : e.Fine T.calls ns)
    (hfree : CallSite.parse? e.text = none) :
    (∃ c, e.reading T.find? ns = .command c ∧ Reading.ofCompiled functions e.text = .command c) ∨
      ∃ lead lines s, e.reading T.find? ns = .body lead lines ∧
        Reading.ofCompiled functions e.text = .body lead s.lines ∧ s.ns.name = ns ∧
        Compiles T K lines s := by
  have hproper : ∀ f ∈ functions, f.1.Proper := fun f hf => hT.proper _ (h.calls f hf)
  cases e with
  | raw line =>
      left
      refine ⟨.plain line, ?_, ofCompiled_plain hproper (isOrdinary_iff.mp he.2).1⟩
      simp only [Entry.text] at hfree
      simp only [Entry.reading, Reading.ofSource, hfree]
  | call lead c =>
      obtain ⟨hc, rfl, -, -, -⟩ := he
      obtain ⟨s, d, hmem, hfind, hs, hcompiles⟩ := h.body c hc
      have hcompiled := ofCompiled_call hproper hmem (fun f hf => h.unique f hf _ hmem) lead
      cases hspace : Text.isSpace lead with
      | true =>
          right
          refine ⟨lead, d.expand c.args, s, ?_, ?_, congrArg Namespace.name hs, hcompiles⟩
          · simp only [Entry.reading, Reading.ofCall, hspace, hfind, if_true]
          · rw [Entry.text, hcompiled, if_pos hspace]
      | false =>
          left
          refine ⟨.calling lead c.ns.name c.callee c.args, ?_, ?_⟩
          · simp only [Entry.reading, Reading.ofCall, hspace, Bool.false_eq_true, if_false]
          · rw [Entry.text, hcompiled, hspace]
            rfl

theorem unfolding_entries (n : Nat) (es : List Entry) :
    unfolding functions (n + 1) (es.map Entry.text) =
      .concat (es.map fun e =>
        (Reading.ofCompiled functions e.text).list (unfolding functions n)) := by
  rw [unfolding, list, List.map_map]
  rfl

/-- A compiled scope shows all that the lines mean. -/
theorem Made.expansion_below (h : Made T K functions) (hT : T.Final) (n : Nat) {lines : List Text}
    {s : Scope} (hs : Compiles T K lines s) :
    (expansion T.find? s.ns.name n lines).Below (unfolding functions n s.lines) := by
  induction n generalizing lines s with
  | zero => exact Listing.nothing_below _
  | succ n ih =>
      obtain ⟨es, k, -, ⟨hlines, hfine⟩, hkeeps, hfree⟩ := hs
      rw [← mean_raw, hlines, unfolding_entries]
      refine (hkeeps n).1.trans (Listing.concat_below fun e he => ?_)
      rcases h.reading hT (hfine e he) (hfree e he) with
        ⟨c, hsource, hcompiled⟩ | ⟨lead, body, f, hsource, hcompiled, hns, hf⟩
      · rw [hsource, hcompiled]
        exact .refl _
      · rw [hsource, hcompiled, ← hns]
        exact (ih hf).behind lead

/-- The lines mean all that a compiled scope shows, some bodies deeper: each pass may have taken one
level away. -/
theorem Made.unfolding_below (h : Made T K functions) (hT : T.Final) (n : Nat) {lines : List Text}
    {s : Scope} (hs : Compiles T K lines s) :
    (unfolding functions n s.lines).Below (expansion T.find? s.ns.name (n * (K + 1)) lines) := by
  induction n generalizing lines s with
  | zero => exact Listing.nothing_below _
  | succ n ih =>
      obtain ⟨es, k, hk, ⟨hlines, hfine⟩, hkeeps, hfree⟩ := hs
      have hmean : (unfolding functions (n + 1) s.lines).Below
          (mean T.find? s.ns.name (n * (K + 1)) es) := by
        rw [hlines, unfolding_entries]
        refine Listing.concat_below fun e he => ?_
        rcases h.reading hT (hfine e he) (hfree e he) with
          ⟨c, hsource, hcompiled⟩ | ⟨lead, body, f, hsource, hcompiled, hns, hf⟩
        · rw [hsource, hcompiled]
          exact .refl _
        · rw [hsource, hcompiled, ← hns]
          exact (ih hf).behind lead
      -- one level for the function itself, and one for each of the passes over it
      have hdepth : n * (K + 1) + k + 1 ≤ (n + 1) * (K + 1) := by
        rw [Nat.succ_mul]
        omega
      refine (hmean.trans (hkeeps _).2).trans ?_
      rw [mean_raw]
      exact list_below hdepth lines

theorem Made.agree (h : Made T K functions) (hT : T.Final) {lines : List Text} {s : Scope}
    (hs : Compiles T K lines s) :
    Agree (fun n => expansion T.find? s.ns.name n lines)
      (fun n => unfolding functions n s.lines) :=
  .of_below (fun n => ⟨n, h.expansion_below hT n hs⟩) fun n => ⟨_, h.unfolding_below hT n hs⟩

end Made

/-! ## Runs -/

theorem plain_of_lines {s : Scope} (hns : s.ns.Checked)
    (hlines : ∀ line ∈ s.lines, Text.isSpace line = false ∧ Text.carriageReturn ∉ line ∧ 0 ∉ line ∧
      Text.occursIn Anonymous.mark line = false)
    (hcommands : ∀ line ∈ commandsIn s.lines, Text.firstField line ≠ generateWord) : Plain s := by
  refine ⟨hns, fun line hline => ⟨?_, fun b hb => ?_⟩, fun line hline => ?_⟩
  · by_contra hink
    have hblanks : ∀ b ∈ line, Text.isBlank b = true := by
      intro b hb
      have htab : b = Text.tab := by_contra fun hne => hink ⟨b, hb, hne⟩
      rw [htab]
      rfl
    exact nomatch (Text.isSpace_of_blanks hblanks).symm.trans (hlines line hline).1
  · obtain ⟨-, hreturn, hnul, -⟩ := hlines line hline
    have hne : b ≠ 0 ∧ b ≠ Text.newline ∧ b ≠ Text.carriageReturn :=
      ⟨fun h => hnul (h ▸ hb), fun h => Text.newline_not_mem_lines hline (h ▸ hb),
        fun h => hreturn (h ▸ hb)⟩
    simp [isControl, hne]
  · rw [isOrdinary_iff, ← Text.occursIn_iff, Bool.not_eq_true]
    exact ⟨(hlines line (commandsIn_subset _ hline)).2.2.2, hcommands line hline⟩

section Runs

variable {settings : Settings} {sources : List Scope}

theorem final_traceOf (hns : ∀ s ∈ sources, s.ns.Checked)
    (hbodies : ∀ body ∈ (traceOf settings sources).bodies, ∀ line ∈ body,
      isOrdinary line = true) : (traceOf settings sources).table.Final := by
  have hfinish := (traceOf_follows settings sources).finish
  have hwithin := hfinish.within hns (within_start _ settings)
  have hnamed := hfinish.named (named_start settings)
  refine ⟨fun c hc => ?_, fun c hc d hfind => hbodies _ (List.mem_append_left _ ?_)⟩
  · obtain ⟨id, hname, -⟩ := hnamed.used c hc
    exact ⟨hwithin.1 c hc, id, hname⟩
  · exact List.mem_filterMap.mpr ⟨c, hc, by rw [hfind]; rfl⟩

theorem regular_traceOf (hbodies : ∀ body ∈ (traceOf settings sources).bodies, ∀ line ∈ body,
      isOrdinary line = true) :
    ∀ p ∈ (traceOf settings sources).passes, p.Regular (traceOf settings sources).table := by
  intro p hp
  obtain ⟨t, -, -, hfrom⟩ := (traceOf_follows settings sources).step p hp
  refine ⟨hfrom.extends, fun body hbody => hbodies body (List.mem_append_right _ ?_)⟩
  exact List.mem_flatMap.mpr ⟨p, hp, hbody⟩

/-- A run over plain scopes is sound and knows the first definitions at its end. -/
theorem traceOf_sound (hplain : ∀ s ∈ sources, Plain s)
    (hT : (traceOf settings sources).table.Final)
    (hbodies : ∀ body ∈ (traceOf settings sources).bodies, ∀ line ∈ body, isOrdinary line = true)
    (hfault : (traceOf settings sources).fault = none) :
    (∀ p ∈ (traceOf settings sources).passes, p.Sound (traceOf settings sources).table) ∧
      (traceOf settings sources).table.Clean ∧ (traceOf settings sources).table.find? =
        firstDefinition (sources.flatMap fun s => definitionsIn s.reference s.lines) := by
  have hready : Table.Ready (Stage.macros.start settings) (traceOf settings sources).table :=
    ⟨⟨fun _ hd => (nomatch hd), fun _ hc => (nomatch hc)⟩, within_start _ settings,
      fun _ hw => (nomatch hw)⟩
  obtain ⟨hsound, hclean, hfind⟩ := Table.trace_sound hT _ sources hplain (settled_start settings)
    hready hfault (regular_traceOf hbodies)
  exact ⟨hsound, hclean, funext hfind⟩

theorem Life.compiles (l : Life) (hT : T.Final) (hsound : ∀ p ∈ l.passes, p.Sound T) {K : Nat}
    (hK : l.passes.length ≤ K) (hinked : ∀ line ∈ l.start.scope.lines, Inked line)
    {lines : List Text}
    (hlines : commandsIn l.start.scope.lines = (lines.map Entry.raw).map Entry.text)
    (hfine : ∀ e ∈ lines.map Entry.raw, e.Fine T.calls l.start.scope.ns.name) :
    Compiles T K lines l.finish := by
  obtain ⟨es, hshows, hkeeps, hfree⟩ := l.chain.keeps hT hsound hinked hlines hfine
  refine ⟨es, l.passes.length, hK, hshows, ?_, hfree⟩
  rw [l.chain.finish_ns.1]
  exact hkeeps

/-- The function of a call is compiled from the body of its macro. -/
theorem Life.compiles_call (l : Life) (hT : T.Final) (hclean : T.Clean)
    (hsound : ∀ p ∈ l.passes, p.Sound T) {K : Nat} (hK : l.passes.length ≤ K) {c : Call}
    (hc : c ∈ T.calls) (hstart : T.start? c = some l.start) :
    ∃ d, T.find? c.callee = some d ∧ Compiles T K (d.expand c.args) l.finish := by
  obtain ⟨d, hfind, hshows⟩ := shows_start hT hclean (.refl T) hc hstart
  have hcommands := (commandsIn_of_no_header hshows.header).trans hshows.1
  exact ⟨d, hfind, l.compiles hT hsound hK (hshows.inked hT) hcommands hshows.2⟩

/-- The function of a source scope is compiled from its commands. -/
theorem Life.compiles_source (l : Life) (hT : T.Final) (hsound : ∀ p ∈ l.passes, p.Sound T)
    {K : Nat} (hK : l.passes.length ≤ K) {s : Scope} (hs : Plain s) (hstart : l.start = ⟨s, 0⟩) :
    Compiles T K (commandsIn s.lines) l.finish := by
  obtain ⟨hcommands, hfine⟩ := hs.fine (T := T)
  exact l.compiles hT hsound hK (by rw [hstart]; exact hs.inked) (by rw [hstart]; exact hcommands)
    (by rw [hstart]; exact hfine)

/-- The functions handed on for calls are made from the bodies of their macros. -/
theorem made_of_lives (hT : T.Final) (hclean : T.Clean)
    (hnodup : (T.calls.map Call.scopeName).Nodup) {K : Nat} {lives : List Life}
    (hK : ∀ l ∈ lives, l.passes.length ≤ K)
    (hsound : ∀ l ∈ lives, ∀ p ∈ l.passes, p.Sound T)
    (hcalls : List.Forall₂ (fun c l => T.start? c = some l.start) T.calls lives) :
    Made T K (T.calls.zip (lives.map Life.finish)) := by
  refine ⟨fun f hf => (List.of_mem_zip hf).1, fun f hf g hg hname => ?_, fun c hc => ?_⟩
  · have hfirst : (T.calls.zip (lives.map Life.finish)).map Prod.fst = T.calls := by
      rw [List.map_fst_zip]
      rw [List.length_map, hcalls.length_eq]
    rw [← hfirst, List.map_map] at hnodup
    exact List.inj_on_of_nodup_map hnodup hf hg hname
  · obtain ⟨l, hmem, hstart⟩ := exists_zip_of_forall₂ hcalls hc
    have hl := (List.of_mem_zip hmem).2
    obtain ⟨d, hfind, hcompiles⟩ := l.compiles_call hT hclean (hsound l hl) (hK l hl) hc hstart
    refine ⟨l.finish, d, ?_, hfind, l.chain.finish_ns.1.trans (start?_ns hstart).1, hcompiles⟩
    rw [List.zip_map_right]
    exact List.mem_map_of_mem hmem

/-- A run of the macro stage that ends without a fault keeps the meaning of sources: the function
handed on for a scope shows by the functions made for calls what the scope shows by the first
definitions in source order, and the function made for a call shows what the body of the macro
shows. -/
theorem run_keeps_meaning (settings : Settings) (sources : List Scope)
    (hns : ∀ s ∈ sources, s.ns.Checked)
    (hend : (Stage.macros.run settings sources).verdict = .more)
    (hlines : ∀ s ∈ sources, ∀ line ∈ s.lines, Text.isSpace line = false ∧
      Text.carriageReturn ∉ line ∧ 0 ∉ line ∧ Text.occursIn Anonymous.mark line = false)
    (hcommands : ∀ s ∈ sources, ∀ line ∈ commandsIn s.lines, Text.firstField line ≠ generateWord)
    (hbodies : ∀ body ∈ (traceOf settings sources).bodies, ∀ line ∈ body,
      isOrdinary line = true) :
    let o := Stage.macros.run settings sources
    let table : Table := o.state.1.1
    let find? := firstDefinition (sources.flatMap fun s => definitionsIn s.reference s.lines)
    ∃ ofSources ofCalls : List Scope, o.state.2.scopes.Perm (ofSources ++ ofCalls) ∧
      List.Forall₂ (fun s z => z.ns = s.ns ∧ z.name = s.name ∧
        Agree (fun n => expansion find? s.ns.name n (commandsIn s.lines))
          (fun n => unfolding (table.calls.zip ofCalls) n z.lines)) sources ofSources ∧
      List.Forall₂ (fun c z => z.ns = c.ns ∧ z.name = c.scopeName ∧
        ∃ d, find? c.callee = some d ∧
          Agree (fun n => expansion find? c.ns.name n (d.expand c.args))
            (fun n => unfolding (table.calls.zip ofCalls) n z.lines)) table.calls ofCalls := by
  intro o table find?
  obtain ⟨hscopes, -, htable⟩ := run_macros settings sources
  have htable : table = (traceOf settings sources).table := htable hend
  have hfault := traceOf_fault_eq_none hend
  have hplain : ∀ s ∈ sources, Plain s :=
    fun s hs => plain_of_lines (hns s hs) (hlines s hs) (hcommands s hs)
  have hT := final_traceOf hns hbodies
  obtain ⟨hsound, hclean, hfind⟩ := traceOf_sound hplain hT hbodies hfault
  obtain ⟨ofSources, ofCalls, hfinish, hpasses, hsources, hcalls⟩ := traceOf_lives hfault
  have hsound : ∀ l ∈ ofSources ++ ofCalls, ∀ p ∈ l.passes,
      p.Sound (traceOf settings sources).table :=
    fun l hl p hp => hsound p (hpasses.mem_iff.mp (List.mem_flatMap.mpr ⟨l, hl, hp⟩))
  -- no scope is passed over more often than the run has passes: one bound serves all functions
  have hK : ∀ l ∈ ofSources ++ ofCalls,
      l.passes.length ≤ (traceOf settings sources).passes.length := by
    intro l hl
    rw [← hpasses.length_eq, List.flatMap]
    exact (List.sublist_flatten_of_mem (List.mem_map_of_mem hl)).length_le
  have hnamed := (traceOf_follows settings sources).finish.named (named_start settings)
  have hmade := made_of_lives hT hclean hnamed.nodup
    (fun l hl => hK l (List.mem_append_right _ hl))
    (fun l hl => hsound l (List.mem_append_right _ hl)) hcalls
  rw [← htable] at hT hclean hfind hsound hcalls hmade
  simp only [find?, ← hfind]
  refine ⟨ofSources.map Life.finish, ofCalls.map Life.finish, ?_, ?_, ?_⟩
  · rw [← List.map_append, hscopes]
    exact hfinish.symm
  · rw [List.forall₂_map_right_iff]
    refine forall₂_imp_of_mem hsources fun s hs l hl hstart => ?_
    have hl := List.mem_append_left ofCalls hl
    have hcompiles := l.compiles_source hT (hsound l hl) (hK l hl) (hplain s hs) hstart
    have hagree := hmade.agree hT hcompiles
    obtain ⟨hfinishns, hfinishname⟩ := l.chain.finish_ns
    rw [hstart] at hfinishns hfinishname
    rw [hfinishns] at hagree
    exact ⟨hfinishns, hfinishname, hagree⟩
  · rw [List.forall₂_map_right_iff]
    refine forall₂_imp_of_mem hcalls fun c hc l hl hstart => ?_
    have hl := List.mem_append_right ofSources hl
    obtain ⟨d, hd, hcompiles⟩ := l.compiles_call hT hclean (hsound l hl) (hK l hl) hc hstart
    have hagree := hmade.agree hT hcompiles
    obtain ⟨hfinishns, hfinishname⟩ := l.chain.finish_ns
    obtain ⟨hstartns, hstartname⟩ := start?_ns hstart
    rw [hfinishns, hstartns] at hagree
    exact ⟨hfinishns.trans hstartns, hfinishname.trans hstartname, d, hd, hagree⟩

end Runs

theorem run_keeps_meaning_forwardCall :
    (∀ s ∈ forwardCall, s.ns.Checked) ∧ (Stage.macros.run {} forwardCall).verdict = .more ∧
      (∀ s ∈ forwardCall, ∀ line ∈ s.lines, Text.isSpace line = false ∧
        Text.carriageReturn ∉ line ∧ 0 ∉ line ∧ Text.occursIn Anonymous.mark line = false) ∧
      (∀ s ∈ forwardCall, ∀ line ∈ commandsIn s.lines, Text.firstField line ≠ generateWord) ∧
      (∀ body ∈ (traceOf {} forwardCall).bodies, ∀ line ∈ body, isOrdinary line = true) ∧
      ∃ ofSources ofCalls : List Scope,
        (Stage.macros.run {} forwardCall).state.2.scopes.Perm (ofSources ++ ofCalls) ∧
        ∃ early ∈ ofSources, early.name = ascii "early" ∧ ∃ n,
          unfolding ((Stage.macros.run {} forwardCall).state.1.1.calls.zip ofCalls) n early.lines =
            ⟨[.plain (ascii "tell @a hi"), .plain (ascii "say done")], true⟩ := by
  have hns : ∀ s ∈ forwardCall, s.ns.Checked := by
    unfold Namespace.Checked
    decide +kernel
  have hend : (Stage.macros.run {} forwardCall).verdict = .more := by decide +kernel
  have hlines : ∀ s ∈ forwardCall, ∀ line ∈ s.lines, Text.isSpace line = false ∧
      Text.carriageReturn ∉ line ∧ 0 ∉ line ∧ Text.occursIn Anonymous.mark line = false := by
    decide +kernel
  have hcommands : ∀ s ∈ forwardCall, ∀ line ∈ commandsIn s.lines,
      Text.firstField line ≠ generateWord := by
    decide +kernel
  have hbodies : ∀ body ∈ (traceOf {} forwardCall).bodies, ∀ line ∈ body,
      isOrdinary line = true := by
    decide +kernel
  obtain ⟨ofSources, ofCalls, hscopes, hsources, -⟩ :=
    run_keeps_meaning {} forwardCall hns hend hlines hcommands hbodies
  refine ⟨hns, hend, hlines, hcommands, hbodies, ofSources, ofCalls, hscopes, ?_⟩
  obtain ⟨early, hmem, -, hname, hagree⟩ :=
    exists_zip_of_forall₂ hsources (List.mem_cons_self : forwardCall.head (by decide) ∈ _)
  refine ⟨early, (List.of_mem_zip hmem).2, hname, (hagree.whole _).mp ⟨2, ?_⟩⟩
  decide +kernel

end Packwright.Macro
