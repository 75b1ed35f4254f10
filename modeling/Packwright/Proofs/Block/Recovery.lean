import Packwright.Proofs.Block.Extraction
import Packwright.Proofs.Macro.CallSite

/-! # Indentation can be recovered

Lowering takes the tabs away and leaves calls of generated functions in their place. Nothing else is
lost: reading each call as the indented lines of its function gives back the source, line by line
(`run_recovers_indentation`). A block in front of all lines of its text leaves a line that is
nothing but a call, every other block a call behind the line above it.
-/

namespace Packwright.Block

open Text (ascii IsLine)
open Macro (callLine)

/-! ## Reading calls back -/

/-- Reads a line of a lowered text: what stands before the call of a generated function, and the
indented lines of the function. -/
def recoverLine (generated : List Scope) (inner : List Text → List Text) (line : Text) :
    List Text :=
  match generated.find? fun g => (callLine (ascii " ") g.reference).isSuffixOf line with
  | none => [line]
  | some g =>
    line.take (line.length - (callLine (ascii " ") g.reference).length) ::
      (inner g.lines).map (Text.tab :: ·)

/-- Reads the first line of a lowered text, which may be nothing but a call. -/
def recoverFirst (generated : List Scope) (inner : List Text → List Text) (line : Text) :
    List Text :=
  match generated.find? fun g => callLine [] g.reference == line with
  | none => recoverLine generated inner line
  | some g => (inner g.lines).map (Text.tab :: ·)

/-- The indented lines that lowered lines stand for, with less than `depth` tabs. -/
def recover (generated : List Scope) : (depth : Nat) → List Text → List Text
  | 0, _ => []
  | _ + 1, [] => []
  | depth + 1, first :: rest =>
    recoverFirst generated (recover generated depth) first ++
      rest.flatMap (recoverLine generated (recover generated depth))

/-- Functions with generated names, no two of them the same, in checked namespaces. -/
structure Distinct (generated : List Scope) : Prop where
  checked : ∀ g ∈ generated, g.ns.Checked
  named : ∀ g ∈ generated, ∃ id, g.name = Anonymous.name id
  nodup : (generated.map Scope.name).Nodup

namespace Distinct

variable {generated : List Scope} {g g' : Scope}

theorem isField (h : Distinct generated) (hg : g ∈ generated) : Text.IsField g.reference := by
  obtain ⟨id, hid⟩ := h.named g hg
  rw [Scope.reference, hid]
  exact (h.checked g hg).isField_reference

theorem mark (h : Distinct generated) (hg : g ∈ generated) :
    Anonymous.mark <:+: g.reference := by
  obtain ⟨id, hid⟩ := h.named g hg
  rw [Scope.reference, hid]
  exact Anonymous.mark_infix_reference g.ns id

theorem isLine_callLine (h : Distinct generated) (hg : g ∈ generated) {lead : Text}
    (hlead : Text.newline ∉ lead) : IsLine (callLine lead g.reference) := by
  have hend : (callLine lead g.reference).getLast? = g.reference.getLast? := by
    rw [callLine, List.getLast?_append_of_ne_nil _ (h.isField hg).ne_nil]
  have hwords : Text.newline ∉ Macro.functionWord ++ ascii " " := by decide
  obtain ⟨id, hid⟩ := h.named g hg
  have hns := h.checked g hg
  refine ⟨?_, ?_, ?_⟩
  · exact List.append_ne_nil_of_right_ne_nil _ (h.isField hg).ne_nil
  · have hreference : Text.newline ∉ g.reference := by
      rw [Scope.reference, hid]
      exact hns.not_mem_reference (by decide) (by decide) (by decide)
    rw [callLine, List.append_assoc lead]
    simp only [List.mem_append (s := lead ++ _), List.mem_append (s := lead), not_or]
    exact ⟨⟨hlead, hwords⟩, hreference⟩
  · rw [hend, Scope.reference, hid]
    exact fun hlast => hns.not_mem_reference (by decide) (by decide) (by decide)
      (List.mem_of_getLast? hlast)

theorem eq_of_reference (h : Distinct generated) (hg : g ∈ generated) (hg' : g' ∈ generated)
    (heq : g'.reference = g.reference) : g' = g := by
  have hname := ((Namespace.reference_inj (h.checked g' hg') (h.checked g hg)).mp heq).2
  exact List.inj_on_of_nodup_map h.nodup hg' hg hname

end Distinct

section Reading

variable {generated : List Scope} {g : Scope} (inner : List Text → List Text)

theorem recoverLine_plain (h : Distinct generated) {line : Text}
    (hline : ¬ Anonymous.mark <:+: line) : recoverLine generated inner line = [line] := by
  rw [recoverLine, Macro.find?_callLine_eq_none _ (fun g hg => h.mark hg) hline]

theorem recoverFirst_plain (h : Distinct generated) {line : Text}
    (hline : ¬ Anonymous.mark <:+: line) : recoverFirst generated inner line = [line] := by
  have hnone : generated.find? (fun g => callLine [] g.reference == line) = none := by
    rw [List.find?_eq_none]
    intro g hg heq
    exact hline (eq_of_beq heq ▸ Macro.infix_callLine (h.mark hg) [])
  rw [recoverFirst, hnone]
  exact recoverLine_plain inner h hline

/-- A call behind a line is read as the line and the indented lines of the function. -/
theorem recoverLine_call (h : Distinct generated) (hg : g ∈ generated) (line : Text) :
    recoverLine generated inner (callLine (line ++ ascii " ") g.reference) =
      line :: (inner g.lines).map (Text.tab :: ·) := by
  have hsome := Macro.find?_callLine_eq_some Scope.reference (fun g' hg' => h.isField hg') hg
    (fun g' hg' => h.eq_of_reference hg hg') line (ascii " ")
  rw [recoverLine, hsome]
  simp only [Macro.take_callLine]

theorem recoverFirst_call (h : Distinct generated) (hg : g ∈ generated) (line : Text) :
    recoverFirst generated inner (callLine (line ++ ascii " ") g.reference) =
      line :: (inner g.lines).map (Text.tab :: ·) := by
  have hnone : generated.find? (fun g' => callLine [] g'.reference ==
      callLine (line ++ ascii " ") g.reference) = none := by
    rw [List.find?_eq_none]
    intro g' hg' heq
    have hcall := eq_of_beq heq
    have hsuffix : callLine [] g'.reference <:+ callLine (line ++ ascii " ") g.reference := by
      rw [hcall]
    have hsame := Macro.reference_of_suffix (h.isField hg) (h.isField hg') hsuffix
    have hlength := congrArg List.length hcall
    have hblank : (ascii " ").length = 1 := by decide
    simp only [callLine, hsame, List.length_append, List.length_nil, hblank] at hlength
    omega
  rw [recoverFirst, hnone]
  exact recoverLine_call inner h hg line

/-- A call alone is read as the indented lines of the function. -/
theorem recoverFirst_alone (h : Distinct generated) (hg : g ∈ generated) :
    recoverFirst generated inner (callLine [] g.reference) =
      (inner g.lines).map (Text.tab :: ·) := by
  cases hfind : generated.find? (fun g' => callLine [] g'.reference == callLine [] g.reference) with
  | none => exact absurd (beq_self_eq_true _) (List.find?_eq_none.mp hfind g hg)
  | some g' =>
      have hg' := List.mem_of_find?_eq_some hfind
      have hcall : callLine [] g'.reference = callLine [] g.reference :=
        eq_of_beq (List.find?_some hfind :)
      have hsame := List.append_cancel_left hcall
      rw [recoverFirst, hfind, h.eq_of_reference hg hg' hsame]

end Reading

/-! ## Groups -/

/-- A line that holds more than tabs, ends where a line ends and holds no generated reference. -/
structure Legible (line : Text) : Prop where
  ink : ∃ b ∈ line, b ≠ Text.tab
  newline : Text.newline ∉ line
  ending : line.getLast? ≠ some Text.carriageReturn
  mark : ¬ Anonymous.mark <:+: line

theorem Legible.isLine {line : Text} (h : Legible line) : IsLine line := by
  refine ⟨?_, h.newline, h.ending⟩
  rintro rfl
  obtain ⟨b, hb, -⟩ := h.ink
  cases hb

theorem eq_cons_of_isIndented {line : Text} (h : isIndented line = true) :
    line = Text.tab :: line.drop 1 := by
  cases line with
  | nil => cases h
  | cons b rest => simpa [isIndented] using h

/-- A line stays legible without its first tab. -/
theorem Legible.drop {line : Text} (h : Legible line) (hindented : isIndented line = true) :
    Legible (line.drop 1) := by
  rw [eq_cons_of_isIndented hindented] at h
  generalize line.drop 1 = rest at h ⊢
  obtain ⟨b, hb, hne⟩ := h.ink
  have hmem : b ∈ rest := (List.mem_cons.mp hb).resolve_left hne
  refine ⟨⟨b, hmem, hne⟩, fun hn => h.newline (List.mem_cons_of_mem _ hn), fun hlast => ?_,
    fun hmark => h.mark (hmark.trans (List.suffix_cons _ _).isInfix)⟩
  apply h.ending
  rw [List.getLast?_cons, hlast]
  rfl

/-- The lines that a group stands for. -/
def Group.lines (g : Group) : List Text := g.head.toList ++ g.block.map (Text.tab :: ·)

theorem Group.lines_indented {line : Text} (h : isIndented line = true) (block : List Text) :
    Group.lines ⟨none, line.drop 1 :: block⟩ = line :: Group.lines ⟨none, block⟩ := by
  rw [Group.lines, List.map_cons, ← eq_cons_of_isIndented h]
  rfl

/-- Grouping lines loses none. -/
theorem flatMap_lines_groups (ls : List Text) : (groups ls).flatMap Group.lines = ls := by
  fun_induction groups ls with
  | case1 => rfl
  | case2 line rest hindented block gs hgs ih =>
      rw [List.flatMap_cons, Group.lines_indented hindented, List.cons_append, ← List.flatMap_cons,
        ← hgs, ih]
  | case3 line rest hindented _ ih =>
      rw [List.flatMap_cons, Group.lines_indented hindented, ih]
      rfl
  | case4 line rest hindented block gs hgs ih =>
      rw [hgs] at ih
      exact congrArg (line :: ·) ih
  | case5 line rest hindented _ ih => exact congrArg (line :: ·) ih

/-- What a group of legible lines looks like. -/
structure Group.Fine (g : Group) : Prop where
  head : ∀ line ∈ g.head, Legible line ∧ isIndented line = false
  block : ∀ line ∈ g.block, Legible line
  holds : g.head = none → g.block ≠ []

theorem head_ne_none_of_tail {gs : List Group} (htail : ∀ g ∈ gs.tail, g.head ≠ none)
    (hfirst : ∀ block rest, gs = ⟨none, block⟩ :: rest → False) : ∀ g ∈ gs, g.head ≠ none := by
  cases gs with
  | nil => exact fun _ hg => (nomatch hg)
  | cons g rest =>
      refine List.forall_mem_cons.mpr ⟨fun hnone => ?_, htail⟩
      obtain ⟨head, block⟩ := g
      obtain rfl : head = none := hnone
      exact hfirst block rest rfl

/-- A line above a block is not indented, and only the first group may lack one. -/
theorem groups_heads (ls : List Text) :
    (∀ g ∈ groups ls, (∀ line ∈ g.head, isIndented line = false) ∧ (g.head = none → g.block ≠ [])) ∧
      ∀ g ∈ (groups ls).tail, g.head ≠ none := by
  fun_induction groups ls with
  | case1 => exact ⟨fun _ hg => (nomatch hg), fun _ hg => (nomatch hg)⟩
  | case2 line rest hindented block gs hgs ih =>
      rw [hgs] at ih
      obtain ⟨hgroups, htail⟩ := ih
      refine ⟨List.forall_mem_cons.mpr ⟨⟨fun _ hl => (nomatch hl), fun _ => nofun⟩, ?_⟩, htail⟩
      exact (List.forall_mem_cons.mp hgroups).2
  | case3 line rest hindented hgs ih =>
      refine ⟨List.forall_mem_cons.mpr ⟨⟨fun _ hl => (nomatch hl), fun _ => nofun⟩, ih.1⟩, ?_⟩
      exact head_ne_none_of_tail ih.2 hgs
  | case4 line rest hindented block gs hgs ih =>
      rw [hgs] at ih
      obtain ⟨hgroups, htail⟩ := ih
      refine ⟨List.forall_mem_cons.mpr ⟨⟨?_, nofun⟩, (List.forall_mem_cons.mp hgroups).2⟩, htail⟩
      rintro l ⟨⟩
      simpa using hindented
  | case5 line rest hindented hgs ih =>
      refine ⟨List.forall_mem_cons.mpr ⟨⟨?_, nofun⟩, ih.1⟩, head_ne_none_of_tail ih.2 hgs⟩
      rintro l ⟨⟩
      simpa using hindented

/-- The lines above blocks are lines that are not indented, and the lines of blocks are indented
lines without a tab. -/
theorem of_mem_groups {ls : List Text} {g : Group} (hg : g ∈ groups ls) :
    (∀ line ∈ g.head, line ∈ ls ∧ isIndented line = false) ∧
      ∀ line ∈ g.block, Text.tab :: line ∈ ls := by
  have hlines : g.lines ⊆ ls := by
    intro l hl
    rw [← flatMap_lines_groups ls]
    exact List.mem_flatMap.mpr ⟨g, hg, hl⟩
  have hheads := ((groups_heads ls).1 g hg).1
  refine ⟨fun line hline => ⟨hlines ?_, hheads line hline⟩, fun line hline => hlines ?_⟩
  · exact List.mem_append_left _ (Option.mem_toList.mpr hline)
  · exact List.mem_append_right _ (List.mem_map_of_mem hline)

theorem groups_fine {ls : List Text} (h : ∀ line ∈ ls, Legible line) :
    (∀ g ∈ groups ls, g.Fine) ∧ ∀ g ∈ (groups ls).tail, g.head ≠ none := by
  obtain ⟨hgroups, htail⟩ := groups_heads ls
  refine ⟨fun g hg => ?_, htail⟩
  obtain ⟨hhead, hblock⟩ := of_mem_groups hg
  refine ⟨fun line hline => ?_, fun line hline => ?_, (hgroups g hg).2⟩
  · exact ⟨h line (hhead line hline).1, (hhead line hline).2⟩
  · exact (h _ (hblock line hline)).drop rfl

/-! ## Lowered lines -/

/-- A line that a group was lowered to: reading it gives the lines of the group back. -/
structure Lowered (generated : List Scope) (g : Group) (line : Text) : Prop where
  isLine : IsLine line
  flat : isIndented line = false
  first : ∀ n, (∀ l ∈ g.lines, Text.indent l ≤ n) →
    recoverFirst generated (recover generated n) line = g.lines
  later : g.head ≠ none → ∀ n, (∀ l ∈ g.lines, Text.indent l ≤ n) →
    recoverLine generated (recover generated n) line = g.lines

variable {generated : List Scope}

theorem flatMap_recoverLine {gs : List Group} {lines : List Text}
    (h : List.Forall₂ (Lowered generated) gs lines) (hhead : ∀ g ∈ gs, g.head ≠ none) {n : Nat}
    (hdepth : ∀ l ∈ gs.flatMap Group.lines, Text.indent l ≤ n) :
    lines.flatMap (recoverLine generated (recover generated n)) = gs.flatMap Group.lines := by
  induction h with
  | nil => rfl
  | cons hg _ ih =>
      rw [List.forall_mem_cons] at hhead
      rw [List.flatMap_cons, List.forall_mem_append] at hdepth
      rw [List.flatMap_cons, List.flatMap_cons, hg.later hhead.1 n hdepth.1, ih hhead.2 hdepth.2]

/-- Lowered lines are read as the lines of their groups. -/
theorem recover_lowered {gs : List Group} {lines : List Text}
    (h : List.Forall₂ (Lowered generated) gs lines) (htail : ∀ g ∈ gs.tail, g.head ≠ none)
    {n : Nat} (hdepth : ∀ l ∈ gs.flatMap Group.lines, Text.indent l < n) :
    recover generated n lines = gs.flatMap Group.lines := by
  cases n with
  | zero =>
      have hnil : gs.flatMap Group.lines = [] :=
        List.eq_nil_iff_forall_not_mem.mpr fun l hl => Nat.not_lt_zero _ (hdepth l hl)
      rw [hnil, recover]
  | succ n =>
      cases h with
      | nil => rfl
      | cons hg hrest =>
          rw [List.flatMap_cons, List.forall_mem_append] at hdepth
          rw [recover, List.flatMap_cons,
            hg.first n fun l hl => Nat.le_of_lt_succ (hdepth.1 l hl),
            flatMap_recoverLine hrest htail fun l hl => Nat.le_of_lt_succ (hdepth.2 l hl)]

theorem lowered_line (hgen : Distinct generated) {g : Group} {line : Text}
    (hhead : g.head = some line) (hblock : g.block = []) (hfine : g.Fine) :
    Lowered generated g line := by
  obtain ⟨hlegible, hflat⟩ := hfine.head line hhead
  have hlines : g.lines = [line] := by rw [Group.lines, hhead, hblock]; rfl
  refine ⟨hlegible.isLine, hflat, fun n _ => ?_, fun _ n _ => ?_⟩
  · rw [recoverFirst_plain _ hgen hlegible.mark, hlines]
  · rw [recoverLine_plain _ hgen hlegible.mark, hlines]

/-- A group with a block is lowered to the call of a function that stands for the block. -/
theorem lowered_call (hgen : Distinct generated) {g : Group} (hfine : g.Fine) {f : Scope}
    (hf : f ∈ generated) (hbody : ∀ n, (∀ l ∈ g.block, Text.indent l < n) →
      recover generated n f.lines = g.block) : Lowered generated g (g.calling f.reference) := by
  obtain ⟨head, block⟩ := g
  have hdeep : ∀ n, (∀ l ∈ Group.lines ⟨head, block⟩, Text.indent l ≤ n) →
      recover generated n f.lines = block := by
    -- in the group the lines of the block have one tab more
    intro n hdepth
    refine hbody n fun l hl => ?_
    have hindent : Text.indent (Text.tab :: l) = Text.indent l + 1 := by simp [Text.indent]
    have hle := hdepth (Text.tab :: l) (List.mem_append_right _ (List.mem_map_of_mem hl))
    omega
  cases head with
  | none =>
      have hcall : Group.calling ⟨none, block⟩ f.reference = callLine [] f.reference := rfl
      rw [hcall]
      refine ⟨hgen.isLine_callLine hf List.not_mem_nil, rfl, fun n hdepth => ?_, nofun⟩
      rw [recoverFirst_alone _ hgen hf, hdeep n hdepth]
      rfl
  | some line =>
      obtain ⟨hlegible, hflat⟩ := hfine.head line rfl
      have hcall : Group.calling ⟨some line, block⟩ f.reference =
          callLine (line ++ ascii " ") f.reference := rfl
      rw [hcall]
      refine ⟨hgen.isLine_callLine hf ?_, ?_, fun n hdepth => ?_, fun _ n hdepth => ?_⟩
      · rw [List.mem_append]
        exact fun h => h.elim hlegible.newline (by decide)
      · obtain ⟨b, rest, rfl⟩ := List.exists_cons_of_ne_nil hlegible.isLine.ne_nil
        exact hflat
      · rw [recoverFirst_call _ hgen hf, hdeep n hdepth]
        rfl
      · rw [recoverLine_call _ hgen hf, hdeep n hdepth]
        rfl

/-- No line of a scope is indented. -/
def Flat (z : Scope) : Prop := ∀ line ∈ z.lines, isIndented line = false

theorem lines_of_lowered {gs : List Group} {lines : List Text} {z : Scope}
    (h : List.Forall₂ (Lowered generated) gs lines) (hz : z.content = Text.unlines lines) :
    z.lines = lines ∧ Flat z := by
  have hall : ∀ line ∈ lines, IsLine line ∧ isIndented line = false := by
    clear hz
    induction h with
    | nil => exact fun _ hline => (nomatch hline)
    | cons hg _ ih => exact List.forall_mem_cons.mpr ⟨⟨hg.isLine, hg.flat⟩, ih⟩
  have hlines : z.lines = lines := by
    rw [Scope.lines, hz]
    exact Text.lines_unlines fun line hline => (hall line hline).1
  exact ⟨hlines, fun line hline => (hall line (hlines ▸ hline)).2⟩

/-- The reference found for a block is the one of a function that is read as the block. -/
def Extraction.Stands (generated : List Scope) (x : Extraction) : Prop :=
  ∃ f ∈ generated, f.reference = x.reference ∧
    ∀ n, (∀ l ∈ x.block, Text.indent l < n) → recover generated n f.lines = x.block

/-- Lowering groups of legible lines keeps all that is needed to read the lines back. -/
theorem Lowers.lowered (hgen : Distinct generated) {ns : Namespace} {parent : Text}
    {l l' : Lowering} {gs : List Group} {lines : List Text} (h : Lowers ns parent l gs l' lines)
    (hknown : Known l.memory generated) (hmade : l'.made ⊆ generated) (hflat : ∀ z ∈ l.made, Flat z)
    (hfine : ∀ g ∈ gs, g.Fine) :
    List.Forall₂ (Lowered generated) gs lines ∧ Known l'.memory generated ∧
      (∀ z ∈ l'.made, Flat z) ∧ ∀ x ∈ extractions ns parent l gs, x.Stands generated := by
  induction h with
  | nil =>
      rw [extractions_nil]
      exact ⟨.nil, hknown, hflat, fun _ hx => (nomatch hx)⟩
  | @line parent l l' g gs lines hblock _ ih =>
      rw [List.forall_mem_cons] at hfine
      obtain ⟨hrest, hknown', hflat', hstands⟩ := ih hknown hmade hflat hfine.2
      rw [extractions_line hblock]
      refine ⟨?_, hknown', hflat', hstands⟩
      cases hhead : g.head with
      | none => exact absurd hblock (hfine.1.holds hhead)
      | some line => exact .cons (lowered_line hgen hhead hblock hfine.1) hrest
  | @block parent name reference l l₁ l₂ l₃ l' g gs body lines hblock henter hbody hleave hrest
      ihbody ihrest =>
      rw [List.forall_mem_cons] at hfine
      have hsub₃ : l₃.made ⊆ generated := by
        obtain ⟨new, hnew, -⟩ := hrest.grows
        exact fun z hz => hmade (hnew ▸ List.mem_append_left _ hz)
      obtain ⟨hsub₂, hleft⟩ := Lowering.made_of_leave hleave
      have hmade₁ := Lowering.made_of_enter henter
      have hlines : Text.lines g.text = g.block :=
        Text.lines_unlines fun line hline => (hfine.1.block line hline).isLine
      rw [extractions_block hblock henter hbody hleave, hlines]
      rw [hlines] at ihbody
      obtain ⟨hfineBody, htail⟩ := groups_fine hfine.1.block
      obtain ⟨hlowered, hknown₂, hflat₂, hinside⟩ := ihbody (hknown.enter henter)
        (fun z hz => hsub₃ (hsub₂ hz)) (hmade₁ ▸ hflat) hfineBody
      -- the function called is made now or shared, and has the lowered block in both cases
      obtain ⟨hknown₃, f, hf, -, rfl, hcontent⟩ := hknown₂.leave hleave hsub₃
      have hread : ∀ n, (∀ l ∈ g.block, Text.indent l < n) →
          recover generated n f.lines = g.block := by
        intro n hdepth
        have hblocks := flatMap_lines_groups g.block
        rw [(lines_of_lowered hlowered hcontent).1, recover_lowered hlowered htail, hblocks]
        rw [hblocks]
        exact hdepth
      have hflat₃ : ∀ z ∈ l₃.made, Flat z := by
        intro z hz
        rcases hleft z hz with hold | hnew
        · exact hflat₂ z hold
        · exact (lines_of_lowered hlowered hnew).2
      obtain ⟨hlowered', hknown', hflat', hbehind⟩ := ihrest hknown₃ hmade hflat₃ hfine.2
      refine ⟨.cons (lowered_call hgen hfine.1 hf hread) hlowered', hknown', hflat', ?_⟩
      rw [List.forall_mem_append, List.forall_mem_cons]
      exact ⟨hinside, ⟨f, hf, rfl, hread⟩, hbehind⟩

/-! ## Runs -/

theorem Runs.distinct {m m' : Memory} {sources : List Scope} {outs : List Output}
    (h : Runs m sources m' outs) (hns : ∀ s ∈ sources, s.ns.Checked) :
    Distinct (outs.flatMap Output.made) := by
  have hgrows := h.grows
  refine ⟨fun g hg => ?_, fun g hg => ?_, hgrows.nodup⟩
  · obtain ⟨s, hs, heq⟩ := h.exists_ns g hg
    rw [heq]
    exact hns s hs
  · obtain ⟨id, hname, -⟩ := hgrows.fresh g hg
    exact ⟨id, hname⟩

/-- A run over legible scopes hands on flat ones, and each source can be read back from them. -/
theorem Runs.recovers (hgen : Distinct generated) {m m' : Memory} {sources : List Scope}
    {outs : List Output} (h : Runs m sources m' outs) (hknown : Known m generated)
    (hmade : outs.flatMap Output.made ⊆ generated)
    (hlines : ∀ s ∈ sources, ∀ line ∈ s.lines, Legible line) :
    List.Forall₂ (fun s out => (∀ z ∈ out.scopes, Flat z) ∧
      ∀ n, (∀ line ∈ s.lines, Text.indent line < n) →
        recover generated n out.scope.lines = s.lines) sources outs := by
  induction h with
  | nil => exact .nil
  | @cons m m' s z l rest outs hlower _ ih =>
      rw [List.forall_mem_cons] at hlines
      rw [List.flatMap_cons, List.append_subset] at hmade
      obtain ⟨lines, hlowers, rfl⟩ := lowers_of_lower hlower
      obtain ⟨hfine, htail⟩ := groups_fine hlines.1
      obtain ⟨hlowered, hknown', hflat, -⟩ := hlowers.lowered hgen hknown hmade.1
        (fun _ hz => (nomatch hz)) hfine
      obtain ⟨hkept, hflat'⟩ :=
        lines_of_lowered (z := s.withContent (Text.unlines lines)) hlowered rfl
      refine .cons ⟨fun z hz => ?_, fun n hdepth => ?_⟩ (ih hknown' hmade.2 hlines.2)
      · rcases List.mem_append.mp hz with hz | hz
        · exact hflat z hz
        · rw [List.mem_singleton.mp hz]
          exact hflat'
      · have hgroups := flatMap_lines_groups s.lines
        rw [hkept, recover_lowered hlowered htail, hgroups]
        rw [hgroups]
        exact hdepth

/-- A run of the block stage without a fault hands on the functions of blocks and the scopes that
call them, all of them flat, and reading the calls back gives the indented lines of every source. -/
theorem run_recovers_indentation (settings : Settings) (sources : List Scope)
    (hns : ∀ s ∈ sources, s.ns.Checked)
    (hend : (Stage.blocks.run settings sources).verdict = .more)
    (hlines : ∀ s ∈ sources, ∀ line ∈ s.lines, (∃ b ∈ line, b ≠ Text.tab) ∧
      line.getLast? ≠ some Text.carriageReturn ∧ Text.occursIn Anonymous.mark line = false) :
    ∃ outs : List Output,
      (Stage.blocks.run settings sources).state.2.scopes = outs.flatMap Output.scopes ∧
      Distinct (outs.flatMap Output.made) ∧
      List.Forall₂ (fun s out => out.scope.ns = s.ns ∧ out.scope.name = s.name ∧
        (∀ g ∈ out.made, g.ns = s.ns) ∧ (∀ z ∈ out.scopes, Flat z) ∧
        ∀ n, (∀ line ∈ s.lines, Text.indent line < n) →
          recover (outs.flatMap Output.made) n out.scope.lines = s.lines) sources outs := by
  obtain ⟨m, outs, hruns, hscopes⟩ := run_blocks hend
  have hdistinct := hruns.distinct hns
  have hlegible : ∀ s ∈ sources, ∀ line ∈ s.lines, Legible line := by
    intro s hs line hline
    obtain ⟨hink, hending, hmark⟩ := hlines s hs line hline
    refine ⟨hink, Text.newline_not_mem_lines hline, hending, ?_⟩
    rw [← Text.occursIn_iff, hmark]
    nofun
  have hrecovers := hruns.recovers hdistinct (known_start settings _) (List.Subset.refl _) hlegible
  refine ⟨outs, hscopes, hdistinct, hruns.forall₂.mp ?_ hrecovers⟩
  rintro s out ⟨hkept, hname, hmade⟩ ⟨hflat, hread⟩
  exact ⟨hkept, hname, hmade, hflat, hread⟩

/-- Two scopes with nested blocks, one of which opens with a block two tabs deep. Both hold the same
inner block. -/
def nested : List Scope :=
  let ns : Namespace := ⟨{ path := ascii "packs/p", name := ascii "p" }, ascii "ns"⟩
  [⟨ns, ascii "inner", Text.unlines [ascii "execute as @a run", ascii "\texecute at @s run",
      ascii "\t\tsay hi", ascii "say done"]⟩,
    ⟨ns, ascii "deep", Text.unlines [ascii "\t\tsay hi", ascii "\tsay there", ascii "say end"]⟩]

theorem run_recovers_indentation_nested :
    (∀ s ∈ nested, s.ns.Checked) ∧
      (Stage.blocks.run { shareBlocks := true } nested).verdict = .more ∧
      (∀ s ∈ nested, ∀ line ∈ s.lines, (∃ b ∈ line, b ≠ Text.tab) ∧
        line.getLast? ≠ some Text.carriageReturn ∧ Text.occursIn Anonymous.mark line = false) ∧
      ∃ outs : List Output, (Stage.blocks.run { shareBlocks := true } nested).state.2.scopes =
        outs.flatMap Output.scopes ∧ ∃ out ∈ outs, out.scope.name = ascii "deep" ∧
          recover (outs.flatMap Output.made) 3 out.scope.lines =
            [ascii "\t\tsay hi", ascii "\tsay there", ascii "say end"] := by
  have hns : ∀ s ∈ nested, s.ns.Checked := by
    unfold Namespace.Checked
    decide +kernel
  have hend : (Stage.blocks.run { shareBlocks := true } nested).verdict = .more := by
    decide +kernel
  have hlines : ∀ s ∈ nested, ∀ line ∈ s.lines, (∃ b ∈ line, b ≠ Text.tab) ∧
      line.getLast? ≠ some Text.carriageReturn ∧ Text.occursIn Anonymous.mark line = false := by
    decide +kernel
  obtain ⟨outs, hscopes, -, houts⟩ := run_recovers_indentation _ nested hns hend hlines
  refine ⟨hns, hend, hlines, outs, hscopes, ?_⟩
  cases houts with
  | cons _ hrest =>
      cases hrest with
      | cons hdeep _ =>
          obtain ⟨-, hname, -, -, hread⟩ := hdeep
          refine ⟨_, List.mem_cons_of_mem _ List.mem_cons_self, hname, ?_⟩
          rw [hread 3 (by decide +kernel)]
          decide +kernel

end Packwright.Block
