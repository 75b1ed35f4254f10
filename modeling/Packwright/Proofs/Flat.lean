import Packwright.Proofs.Address
import Packwright.Proofs.Block.Recovery
import Packwright.Proofs.Causality
import Packwright.Proofs.Macro.Showing
import Packwright.Proofs.Substitution

/-! # Compiled functions are flat

Stripping comments leaves lines that show something, and macros keep it so. Lowering takes all tabs
away from the front of such lines, and what is left shows something and is flush with the margin.
Neither reserved tokens nor continuation lines bring a tab or an empty line back. So no line of a
compiled function is empty or indented (`compile_flat`).
-/

namespace Packwright

open Text (ascii Shown Flush MadeOf)

/-! ## Blocks -/

namespace Block

/-- A group whose line is flush and whose block shows something on every line. -/
def Group.Shows (g : Group) : Prop :=
  (∀ line ∈ g.head, Flush line) ∧ ∀ line ∈ g.block, Shown line

theorem shows_of_mem_groups {ls : List Text} (h : ∀ line ∈ ls, Shown line) {g : Group}
    (hg : g ∈ groups ls) : g.Shows := by
  obtain ⟨hhead, hblock⟩ := of_mem_groups hg
  refine ⟨fun line hline => ?_, fun line hline => ?_⟩
  · obtain ⟨hmem, hindented⟩ := hhead line hline
    refine ⟨h line hmem, fun htab => ?_⟩
    rw [isIndented, htab] at hindented
    cases hindented
  · have hshown := h _ (hblock line hline)
    exact hshown.drop (n := 1) (by simp [Text.indent])

theorem Group.Shows.calling {g : Group} (h : g.Shows) {r : Text} (hr : Text.Token r) :
    Flush (g.calling r) := by
  have hblank : Text.newline ∉ ascii " " := by decide
  have hword : Text.newline ∉ Macro.functionWord := by decide
  unfold Group.calling
  split
  next line hhead =>
    exact ((((h.1 line hhead).append hblank).append hword).append hblank).append hr.newline
  next =>
    have hflush : Flush Macro.functionWord := ⟨⟨hword, 102, by decide, rfl⟩, by decide⟩
    exact (hflush.append hblank).append hr.newline

variable {generated : List Scope}

/-- Lowering groups leaves flush lines, in the scope and in the functions made for its blocks. -/
theorem Lowers.flush (hgen : Distinct generated) {ns : Namespace} {parent : Text}
    {l l' : Lowering} {gs : List Group} {lines : List Text} (h : Lowers ns parent l gs l' lines)
    (hknown : Known l.memory generated) (hmade : l'.made ⊆ generated)
    (hflush : ∀ z ∈ l.made, MadeOf Flush z.content) (hgs : ∀ g ∈ gs, g.Shows) :
    (∀ line ∈ lines, Flush line) ∧ Known l'.memory generated ∧
      ∀ z ∈ l'.made, MadeOf Flush z.content := by
  induction h with
  | nil => exact ⟨fun _ hline => (nomatch hline), hknown, hflush⟩
  | line _ _ ih =>
      rw [List.forall_mem_cons] at hgs
      obtain ⟨hlines, hknown', hflush'⟩ := ih hknown hmade hflush hgs.2
      refine ⟨List.forall_mem_append.mpr ⟨fun line hline => ?_, hlines⟩, hknown', hflush'⟩
      exact hgs.1.1 line (Option.mem_toList.mp hline)
  | @block parent name reference l l₁ l₂ l₃ l' g gs body lines _ henter hbody hleave hrest
      ihbody ihrest =>
      rw [List.forall_mem_cons] at hgs
      have hsub₃ : l₃.made ⊆ generated := by
        obtain ⟨new, hnew, -⟩ := hrest.grows
        exact fun z hz => hmade (hnew ▸ List.mem_append_left _ hz)
      obtain ⟨hsub₂, hleft⟩ := Lowering.made_of_leave hleave
      have hmade₁ := Lowering.made_of_enter henter
      have hblock : ∀ line ∈ Text.lines g.text, Shown line :=
        Text.shown_of_mem_lines ⟨g.block, hgs.1.2, rfl⟩
      obtain ⟨hbody', hknown₂, hflush₂⟩ := ihbody (hknown.enter henter)
        (fun z hz => hsub₃ (hsub₂ hz)) (hmade₁ ▸ hflush)
        fun g' hg' => shows_of_mem_groups hblock hg'
      obtain ⟨hknown₃, f, hf, -, rfl, -⟩ := hknown₂.leave hleave hsub₃
      have hflush₃ : ∀ z ∈ l₃.made, MadeOf Flush z.content := by
        intro z hz
        rcases hleft z hz with hold | hnew
        · exact hflush₂ z hold
        · exact ⟨body, hbody', hnew⟩
      obtain ⟨hlines, hknown', hflush'⟩ := ihrest hknown₃ hmade hflush₃ hgs.2
      refine ⟨List.forall_mem_cons.mpr ⟨hgs.1.calling ?_, hlines⟩, hknown', hflush'⟩
      obtain ⟨id, hid⟩ := hgen.named f hf
      rw [Scope.reference, hid]
      exact (hgen.checked f hf).token_reference fun b hb => Anonymous.plain_of_mem hb

theorem Runs.flush (hgen : Distinct generated) {m m' : Memory} {sources : List Scope}
    {outs : List Output} (h : Runs m sources m' outs) (hknown : Known m generated)
    (hmade : outs.flatMap Output.made ⊆ generated)
    (hlines : ∀ s ∈ sources, ∀ line ∈ s.lines, Shown line) :
    ∀ z ∈ outs.flatMap Output.scopes, MadeOf Flush z.content := by
  induction h with
  | nil => exact fun _ hz => (nomatch hz)
  | @cons m m' s z l rest outs hlower _ ih =>
      rw [List.forall_mem_cons] at hlines
      rw [List.flatMap_cons, List.append_subset] at hmade
      obtain ⟨lines, hlowers, rfl⟩ := lowers_of_lower hlower
      obtain ⟨hflush, hknown', hblocks⟩ := hlowers.flush hgen hknown hmade.1
        (fun _ hz => (nomatch hz)) fun g hg => shows_of_mem_groups hlines.1 hg
      rw [List.flatMap_cons, List.forall_mem_append]
      refine ⟨?_, ih hknown' hmade.2 hlines.2⟩
      exact List.forall_mem_append.mpr ⟨hblocks, List.forall_mem_singleton.mpr ⟨lines, hflush, rfl⟩⟩

end Block

/-! ## Compilations -/

namespace Compiler

/-- The lines of all functions that a compilation hands on are flush. -/
theorem flow_flush (settings : Settings) {f : Flow}
    (hf : ∀ s ∈ f.scopes, s.ns.Checked ∧ ∀ b ∈ s.name, Text.isMargin b = false) :
    ∀ z ∈ (Pipeline.flow Stage.standard (Pipeline.start settings Stage.standard) f).2.scopes,
      MadeOf Flush z.content := by
  let f₁ := (Stage.comments.transform (Stage.comments.start settings) f.fault f.events).2
  let f₂ := (Stage.macros.transform (Stage.macros.start settings) f₁.fault f₁.events).2
  let f₃ := (Stage.blocks.transform (Stage.blocks.start settings) f₂.fault f₂.events).2
  let f₄ := (Stage.substitutions.transform () f₃.fault f₃.events).2
  let good (a : Namespace × Text) : Prop := a.1.Checked ∧ ∀ b ∈ a.2, Text.isMargin b = false
  have hgood : ∀ ns name id, good (ns, name) → good (ns, Anonymous.name id) :=
    fun _ _ _ h => ⟨h.1, fun _ hb => Anonymous.plain_of_mem hb⟩
  have hgood₁ : ∀ s ∈ f₁.scopes, good s.address :=
    Stage.comments.address_transform hgood settings hf
  have hgood₂ : ∀ s ∈ f₂.scopes, good s.address :=
    Stage.macros.address_transform hgood settings hgood₁
  have hgood₃ : ∀ s ∈ f₃.scopes, good s.address :=
    Stage.blocks.address_transform hgood settings hgood₂
  have hscopes₁ : f₁.scopes = f.scopes.map fun s => s.withContent (Comment.strip s.content) :=
    (Stage.transform_pass (fun _ _ => rfl) (fun _ => rfl) _ f.fault f.events).1
  have hshown₁ : ∀ s ∈ f₁.scopes, MadeOf Shown s.content := by
    rw [hscopes₁]
    intro s hs
    obtain ⟨s', -, rfl⟩ := List.mem_map.mp hs
    exact Comment.madeOf_strip s'.content
  have hshown₂ : ∀ s ∈ f₂.scopes, MadeOf Shown s.content := by
    rw [(Macro.Table.trace_describes _ f₁).scopes]
    exact Macro.yields_shown (fun s hs => (hgood₁ s hs).1)
      (fun s hs => Text.shown_of_mem_lines (hshown₁ s hs)) f₁.fault
  have hflush₃ : ∀ s ∈ f₃.scopes, MadeOf Flush s.content := by
    obtain ⟨m, taken, outs, htaken, hruns, hscopes, -⟩ :=
      Block.transform_blocks (Stage.blocks.start settings) f₂.fault f₂.events
    rw [hscopes]
    refine hruns.flush (hruns.distinct fun s hs => ?_) (Block.known_start settings _)
      (List.Subset.refl _) fun s hs => ?_
    · exact (hgood₂ s (htaken.subset hs)).1
    · exact Text.shown_of_mem_lines (hshown₂ s (htaken.subset hs))
  have hscopes₄ : f₄.scopes = f₃.scopes.map fun s => s.withContent (Substitution.apply s) :=
    (Stage.transform_pass (fun _ _ => rfl) (fun _ => rfl) _ f₃.fault f₃.events).1
  have hflush₄ : ∀ s ∈ f₄.scopes, MadeOf Flush s.content := by
    rw [hscopes₄]
    intro s hs
    obtain ⟨s', hs', rfl⟩ := List.mem_map.mp hs
    obtain ⟨hns, hname⟩ := hgood₃ s' hs'
    exact Substitution.madeOf_apply hns hname (hflush₃ s' hs')
  have hscopes₅ : (Stage.back.transform () f₄.fault f₄.events).2.scopes =
      f₄.scopes.map fun s => s.withContent (Continuation.join s.content) :=
    (Stage.transform_pass (fun _ _ => rfl) (fun _ => rfl) _ f₄.fault f₄.events).1
  have hflow := congrArg Flow.scopes
    (Pipeline.flow_standard (Pipeline.start settings Stage.standard) f)
  rw [hflow.trans hscopes₅]
  intro z hz
  obtain ⟨s, hs, rfl⟩ := List.mem_map.mp hz
  exact Continuation.madeOf_join (hflush₄ s hs)

/-- Wherever a compilation of sources with proper names ends, no line of a function that it handed
on is empty or indented, unless the function itself is empty. -/
theorem compile_flat (settings : Settings) (wanted : Option Nat)
    (source : List (Except Fault Scope))
    (hsource : ∀ s ∈ (Flow.ofSource source).scopes,
      s.ns.Checked ∧ Name.validate .function s.name = .ok ()) :
    ∀ z ∈ (compile settings wanted source).state.scopes, z.content ≠ [] →
      ∀ line ∈ z.content.splitOn Text.newline, line ≠ [] ∧ line.head? ≠ some Text.tab := by
  intro z hz hne line hline
  have hnames : ∀ s ∈ (Flow.ofSource source).scopes,
      s.ns.Checked ∧ ∀ b ∈ s.name, Text.isMargin b = false := by
    intro s hs
    obtain ⟨hns, hname⟩ := hsource s hs
    refine ⟨hns, fun b hb => ?_⟩
    rcases Name.isNameByte_of_validate hname b hb with hbyte | ⟨-, rfl⟩
    · exact Name.plain_of_isNameByte hbyte
    · rfl
  have hstate := congrArg (fun result => result.1.scopes) (compile_eq_feed settings wanted source)
  have htaken := (Pipeline.takeEach_collected { wanted } (flow settings source).events).1
  have hmem : z ∈ (flow settings source).scopes := htaken.subset (hstate ▸ hz)
  have hmade := flow_flush settings hnames z hmem
  have hflush := hmade.of_mem_splitOn (fun _ hl => hl.newline) hne line hline
  exact ⟨hflush.ne_nil, hflush.head⟩

/-- A source with blank lines, comments, nested blocks, a body that is put in behind a tab, reserved
tokens at the front of lines and a continuation line. -/
def uneven : List (Except Fault Scope) :=
  let ns : Namespace := ⟨{ path := ascii "packs/p", name := ascii "p" }, ascii "ns"⟩
  [.ok ⟨ns, ascii "main", Text.unlines [[], ascii "\t# note", ascii "generate function twice x",
    ascii "\t\tx", ascii "\tback x", ascii "as @a", ascii "\tcall twice $this",
    ascii "\t\t\tsay\r", ascii "\t \r"]⟩]

theorem compile_flat_uneven :
    (∀ s ∈ (Flow.ofSource uneven).scopes,
      s.ns.Checked ∧ Name.validate .function s.name = .ok ()) ∧
    (compile {} none uneven).state.scopes.map Scope.content =
      [ascii "ns:_/00/00/00/01", ascii "say", ascii "function ns:_/00/00/00/03",
        ascii "function ns:_/00/00/00/01ns:_/00/00/00/00 function ns:_/00/00/00/02",
        ascii "as @a function ns:_/00/00/00/00"] ∧
    ∀ z ∈ (compile {} none uneven).state.scopes, z.content ≠ [] →
      ∀ line ∈ z.content.splitOn Text.newline, line ≠ [] ∧ line.head? ≠ some Text.tab := by
  have hsource : ∀ s ∈ (Flow.ofSource uneven).scopes,
      s.ns.Checked ∧ Name.validate .function s.name = .ok () := by
    unfold Namespace.Checked
    decide +kernel
  exact ⟨hsource, by decide +kernel, compile_flat {} none uneven hsource⟩

end Compiler

end Packwright
