import Packwright.Proofs.Block.Extraction
import Packwright.Proofs.Block.Span
import Packwright.Proofs.Drawing
import Packwright.Proofs.Layout

/-! # How blocks are numbered

The blocks of a text are the longest stretches of lines indented to a level, as many for each line
as it is indented deeper than the line above (`rises`). Blocks that do not share get their names in
the order in which they open, and their functions are made in the order in which they close
(`accept_numbers_blocks`). Where a block lies depends on how deep lines are indented, and that is
not changed when the lines of a block are put together and read again.
-/

namespace Packwright

open Text (ascii)

namespace Text

/-- Lines that are put together are read again without an empty one at the end, and without carriage
returns at their ends. -/
theorem lines_unlines_eq_map {ls : List Text} (h : ∀ line ∈ ls, newline ∉ line) :
    lines (unlines ls) =
      (if ls.getLast? = some [] then ls.dropLast else ls).map (chop carriageReturn) := by
  induction ls with
  | nil => rfl
  | cons line rest ih =>
      obtain ⟨hline, hrest⟩ := List.forall_mem_cons.mp h
      cases rest with
      | nil =>
          have hunlines : unlines [line] = line := by simp [unlines, join]
          rw [hunlines, lines_of_not_mem hline]
          by_cases hempty : line = [] <;> simp [hempty]
      | cons next rest =>
          rw [unlines_cons (List.cons_ne_nil _ _), lines_append_newline hline, ih hrest,
            List.getLast?_cons_cons]
          split <;> rfl

theorem getElem?_lines_unlines {ls : List Text} (h : ∀ line ∈ ls, newline ∉ line) {i : Nat}
    {line : Text} (hline : (lines (unlines ls))[i]? = some line) :
    ls[i]?.map (chop carriageReturn) = some line := by
  rw [lines_unlines_eq_map h, List.getElem?_map] at hline
  split at hline
  next =>
    rw [List.getElem?_dropLast] at hline
    split at hline
    next => exact hline
    next => cases hline
  next => exact hline

theorem indent_tab (line : Text) : indent (tab :: line) = indent line + 1 := by
  simp [indent]

/-- A carriage return at the end is no indentation. -/
theorem indent_chop (line : Text) : indent (chop carriageReturn line) = indent line := by
  unfold chop
  split
  next hlast =>
    have hreturn : (carriageReturn == tab) = false := by decide
    conv_rhs => rw [← List.dropLast_append_getLast? carriageReturn hlast]
    generalize line.dropLast = lead
    induction lead with
    | nil => simp [indent, hreturn]
    | cons b lead ih =>
        simp only [indent, List.cons_append, List.takeWhile_cons] at ih ⊢
        split
        next => rw [List.length_cons, List.length_cons, ih]
        next => rfl
  next => rfl

theorem drop_chop (b : UInt8) (n : Nat) (t : Text) : (chop b t).drop n = chop b (t.drop n) := by
  rcases Nat.lt_or_ge n t.length with hn | hn
  · unfold chop
    rw [List.getLast?_drop, if_neg (Nat.not_le_of_lt hn)]
    split
    next => rw [List.dropLast_drop_eq_drop_dropLast]
    next => rfl
  · have hchop := length_chop_le b t
    rw [List.drop_of_length_le hn, List.drop_of_length_le (Nat.le_trans hchop hn)]
    rfl

end Text

namespace Block

/-! ## Depths of lines -/

/-- How far depths climb in all, where the line before has a given depth: the sum of what each line
is deeper than the one above, lines that are not deeper left out. -/
def climb (before : Nat) : List Nat → Nat
  | [] => 0
  | d :: depths => d - before + climb d depths

/-- How far the indentation of lines rises from line to line. Above the first one, there is none. -/
def rises (ls : List Text) : Nat := climb 0 (ls.map Text.indent)

/-- How deep a line is indented. Behind the last one, lines are taken as flush. -/
def depthAt (ls : List Text) (i : Nat) : Nat := (ls.map Text.indent).getD i 0

@[simp] theorem climb_nil (before : Nat) : climb before [] = 0 := rfl

@[simp] theorem climb_cons (before d : Nat) (depths : List Nat) :
    climb before (d :: depths) = d - before + climb d depths := rfl

theorem climb_append_zero (before : Nat) (depths : List Nat) :
    climb before (depths ++ [0]) = climb before depths := by
  induction depths generalizing before with
  | nil => simp
  | cons d depths ih => simp [ih]

theorem climb_flush {depths : List Nat} (h : depths.getD 0 0 = 0) (before : Nat) :
    climb before depths = climb 0 depths := by
  cases depths with
  | nil => rfl
  | cons d depths =>
      obtain rfl : d = 0 := by simpa using h
      simp

/-- Within a run, depths climb as they do one tab to the left. -/
theorem climb_run {rest : List Nat} (h : rest.getD 0 0 = 0) (before : Nat) (depths : List Nat) :
    climb (before + 1) (depths.map (· + 1) ++ rest) = climb before depths + climb 0 rest := by
  induction depths generalizing before with
  | nil => simpa using climb_flush h (before + 1)
  | cons d depths ih =>
      simp only [List.map_cons, List.cons_append, climb_cons, ih]
      omega

theorem indent_of_flush {line : Text} (h : isIndented line = false) : Text.indent line = 0 := by
  cases line with
  | nil => rfl
  | cons b rest =>
      have hb : (b == Text.tab) = false := by simpa [isIndented] using h
      simp [Text.indent, hb]

theorem indent_of_indented {line : Text} (h : isIndented line = true) :
    Text.indent line = Text.indent (line.drop 1) + 1 := by
  cases line with
  | nil => simp [isIndented] at h
  | cons b rest =>
      obtain rfl : b = Text.tab := by simpa [isIndented] using h
      exact Text.indent_tab rest

theorem rises_flush {line : Text} (h : isIndented line = false) (rest : List Text) :
    rises (line :: rest) = rises rest := by
  simp [rises, indent_of_flush h]

/-- Lines that are put together and read again are as deep as before, an empty one at the end
apart. -/
theorem exists_indents_eq {ls : List Text} (h : ∀ line ∈ ls, Text.newline ∉ line) :
    let again := (Text.lines (Text.unlines ls)).map Text.indent
    ls.map Text.indent = again ∨ ls.map Text.indent = again ++ [0] := by
  have hindent : Text.indent ∘ Text.chop Text.carriageReturn = Text.indent :=
    funext Text.indent_chop
  dsimp only
  rw [Text.lines_unlines_eq_map h, List.map_map, hindent]
  split
  next hlast =>
    right
    conv_lhs => rw [← List.dropLast_append_getLast? [] hlast]
    rw [List.map_append]
    rfl
  next => exact .inl rfl

theorem depthAt_lines_unlines {ls : List Text} (h : ∀ line ∈ ls, Text.newline ∉ line) (i : Nat) :
    depthAt (Text.lines (Text.unlines ls)) i = depthAt ls i := by
  rw [depthAt, depthAt]
  rcases exists_indents_eq h with heq | heq
  · rw [heq]
  · rw [heq]
    grind

theorem rises_lines_unlines {ls : List Text} (h : ∀ line ∈ ls, Text.newline ∉ line) :
    rises (Text.lines (Text.unlines ls)) = rises ls := by
  rw [rises, rises]
  rcases exists_indents_eq h with heq | heq
  · rw [heq]
  · rw [heq, climb_append_zero]

/-! ## Going through lines -/

/-- The lines that the block of a run is read as. -/
def inner (run : List Text) : List Text := Text.lines (Text.unlines (run.map (·.drop 1)))

/-- A run of indented lines that the lines below do not go on with. -/
structure IsRun (run rest : List Text) : Prop where
  ne_nil : run ≠ []
  indented : ∀ line ∈ run, isIndented line = true
  newline : ∀ line ∈ run, Text.newline ∉ line
  flush : ∀ line ∈ rest.head?, isIndented line = false

namespace IsRun

variable {run rest : List Text}

theorem groups_eq (h : IsRun run rest) :
    groups (run ++ rest) = ⟨none, run.map (·.drop 1)⟩ :: groups rest := by
  obtain ⟨line, more, rfl⟩ := List.exists_cons_of_ne_nil h.ne_nil
  obtain ⟨hline, hmore⟩ := List.forall_mem_cons.mp h.indented
  have htake : rest.takeWhile isIndented = [] := by
    cases rest with
    | nil => rfl
    | cons next rest => simp [h.flush next rfl]
  have hdrop : rest.dropWhile isIndented = rest := by
    cases rest with
    | nil => rfl
    | cons next rest => simp [h.flush next rfl]
  rw [List.cons_append, groups_indented hline, List.takeWhile_append_of_pos hmore,
    List.dropWhile_append_of_pos hmore, htake, hdrop, List.append_nil, List.map_cons]

/-- A block is smaller than the lines that it is in. -/
theorem extent_lt (h : IsRun run rest) : Text.extent (inner run) < Text.extent (run ++ rest) := by
  have hweight := weight_groups_le (run ++ rest)
  rw [h.groups_eq, weight_cons, if_neg (by simpa using h.ne_nil)] at hweight
  have hread : Text.extent (inner run) ≤ _ := Text.extent_lines_le _
  simp only [Group.text] at hweight
  omega

theorem newline_drop (h : IsRun run rest) :
    ∀ line ∈ run.map (·.drop 1), Text.newline ∉ line := by
  intro line hline
  obtain ⟨whole, hwhole, rfl⟩ := List.mem_map.mp hline
  exact fun hmem => h.newline whole hwhole (List.mem_of_mem_drop hmem)

theorem indents_eq (h : IsRun run rest) :
    run.map Text.indent = ((run.map (·.drop 1)).map Text.indent).map (· + 1) := by
  simp only [List.map_map]
  exact List.map_congr_left fun line hline => indent_of_indented (h.indented line hline)

theorem depthAt_rest (h : IsRun run rest) : depthAt rest 0 = 0 := by
  cases rest with
  | nil => rfl
  | cons next rest => exact indent_of_flush (h.flush next rfl)

theorem toRun (h : IsRun run rest) :
    Run (depthAt (run ++ rest)) (depthAt (inner run)) (depthAt rest) run.length := by
  have hinner : ∀ i, depthAt (inner run) i = depthAt (run.map (·.drop 1)) i :=
    depthAt_lines_unlines h.newline_drop
  refine ⟨List.length_pos_of_ne_nil h.ne_nil, fun i hi => ?_, fun i hi => ?_, h.depthAt_rest,
    fun i => ?_⟩
  · rw [hinner, depthAt, depthAt, List.map_append, h.indents_eq]
    simp [List.getElem?_append, List.getD_eq_getElem?_getD, hi]
  · rw [hinner, depthAt]
    simp [List.getD_eq_getElem?_getD, hi]
  · rw [depthAt, depthAt, List.map_append, List.getD_eq_getElem?_getD, List.getD_eq_getElem?_getD,
      List.getElem?_append_right (by simp)]
    simp

theorem rises_eq (h : IsRun run rest) :
    rises (run ++ rest) = 1 + rises (inner run) + rises rest := by
  have hinner : rises (inner run) = rises (run.map (·.drop 1)) :=
    rises_lines_unlines h.newline_drop
  rw [hinner, rises, rises, rises, List.map_append, h.indents_eq]
  obtain ⟨line, more, rfl⟩ := List.exists_cons_of_ne_nil h.ne_nil
  have hrest : (rest.map Text.indent).getD 0 0 = 0 := h.depthAt_rest
  simp only [List.map_cons, List.cons_append, climb_cons, climb_run hrest]
  omega

end IsRun

/-- Lines as lowering goes through them: from line to line, and into each run before the rest. -/
theorem lines_induction {motive : List Text → Prop} (nil : motive [])
    (flush : ∀ line rest, isIndented line = false → motive rest → motive (line :: rest))
    (run : ∀ run rest, IsRun run rest → motive (inner run) → motive rest → motive (run ++ rest))
    {ls : List Text} (hls : ∀ line ∈ ls, Text.newline ∉ line) : motive ls := by
  induction hsize : Text.extent ls using Nat.strongRecOn generalizing ls with
  | ind size ih =>
      subst hsize
      cases ls with
      | nil => exact nil
      | cons line rest =>
          cases hline : isIndented line with
          | false =>
              apply flush line rest hline
              apply ih _ ?_ (List.forall_mem_cons.mp hls).2 rfl
              rw [Text.extent_cons]
              omega
          | true =>
              have hsplit := List.takeWhile_append_dropWhile (p := isIndented) (l := line :: rest)
              have hrun : IsRun ((line :: rest).takeWhile isIndented)
                  ((line :: rest).dropWhile isIndented) := by
                refine ⟨by simp [hline], List.all_eq_true.mp List.all_takeWhile,
                  fun l hl => hls l (List.takeWhile_subset _ hl), fun l hl => ?_⟩
                have hhead := List.head?_dropWhile_not isIndented (line :: rest)
                rw [hl] at hhead
                exact hhead
              have hextent := extent_takeWhile_add_dropWhile isIndented (line :: rest)
              have hless := hrun.extent_lt
              rw [hsplit] at hless
              rw [← hsplit]
              apply run _ _ hrun
              · exact ih _ hless (fun l hl => Text.newline_not_mem_lines hl) rfl
              · apply ih _ ?_ (fun l hl => hls l (List.dropWhile_subset _ hl)) rfl
                rw [← hextent, List.takeWhile_cons_of_pos hline, Text.extent_cons]
                omega

/-! ## Lowering lines -/

/-- A line of a block without the tabs of its level. A carriage return at its end is taken for part
of the line end each time that it is read again inside a block. -/
def strip (level : Nat) (line : Text) : Text :=
  (Text.chop Text.carriageReturn)^[level - 1] (line.drop level)

theorem strip_chop {level : Nat} (h : 0 < level) (line : Text) :
    strip level (Text.chop Text.carriageReturn (line.drop 1)) = strip (level + 1) line := by
  obtain ⟨outer, rfl⟩ := Nat.exists_eq_add_one_of_ne_zero (Nat.ne_of_gt h)
  rw [strip, strip, Text.drop_chop, List.drop_drop, Nat.add_comm 1]
  rfl

namespace Span

/-- The lines at a stretch. -/
def lines (ls : List Text) (b : Span) : List Text := (ls.drop b.first).take (b.stop - b.first)

/-- The text of a block. -/
def text (ls : List Text) (b : Span) : Text := Text.unlines ((b.lines ls).map (strip b.level))

/-- The function of a block that is entered when names come from `ids`. -/
def function (ns : Namespace) (ls : List Text) (ids : Allocator) (b : Span) : Except Fault Scope :=
  (lower ⟨ids.after 1, none⟩ ⟨ns, Anonymous.name ids.next, b.text ls⟩).2

variable {run rest : List Text} {b : Span}

theorem lines_shift (b : Span) (run rest : List Text) :
    (b.shift run.length).lines (run ++ rest) = b.lines rest := by
  have hlength : b.stop + run.length - (b.first + run.length) = b.stop - b.first :=
    Nat.add_sub_add_right _ _ _
  rw [lines, lines, shift, hlength, Nat.add_comm b.first, ← List.drop_drop, List.drop_left]

theorem text_whole (run rest : List Text) :
    (Span.mk 0 run.length 1).text (run ++ rest) = Text.unlines (run.map (·.drop 1)) := by
  rw [text, lines, List.drop_zero, Nat.sub_zero, List.take_left]
  rfl

theorem text_shift (b : Span) (run rest : List Text) :
    (b.shift run.length).text (run ++ rest) = b.text rest := by
  rw [text, text, lines_shift]
  rfl

theorem lines_deeper (h : IsRun run rest) (hb : b.IsBlock (depthAt (inner run))) :
    b.lines (inner run) =
      (b.deeper.lines (run ++ rest)).map fun line =>
        Text.chop Text.carriageReturn (line.drop 1) := by
  have hstop := h.toRun.stop_le hb
  ext1 i
  simp only [lines, deeper, List.getElem?_map, List.getElem?_take, List.getElem?_drop]
  split
  next hi =>
    have hdeep := hb.deep (b.first + i) (by omega) (by omega)
    have hpos := hb.level_pos
    rw [List.getElem?_append_left (by omega)]
    cases hline : (inner run)[b.first + i]? with
    | none =>
        rw [depthAt, List.getD_eq_getElem?_getD, List.getElem?_map, hline] at hdeep
        exact absurd (Nat.lt_of_lt_of_le hpos hdeep) (Nat.lt_irrefl 0)
    | some line =>
        rw [← Text.getElem?_lines_unlines h.newline_drop hline, List.getElem?_map, Option.map_map]
        rfl
  next => rfl

theorem text_deeper (h : IsRun run rest) (hb : b.IsBlock (depthAt (inner run))) :
    b.deeper.text (run ++ rest) = b.text (inner run) := by
  rw [text, text, lines_deeper h hb, List.map_map]
  congr 1
  apply List.map_congr_left
  intro line _
  exact (strip_chop hb.level_pos line).symm

end Span

/-- The lines that are kept of a flush line and those below: the call of a block right under the
line is attached to it. -/
def attach (line : Text) (below kept : List Text) : List Text :=
  if below.head?.any isIndented then kept.modifyHead (line ++ ascii " " ++ ·) else line :: kept

/-- A flush line is lowered with the lines below. -/
theorem Lowers.cons_flush {ns : Namespace} {parent line : Text} {l l' : Lowering}
    {rest kept : List Text} (hline : isIndented line = false)
    (h : Lowers ns parent l (groups rest) l' kept) :
    Lowers ns parent l (groups (line :: rest)) l' (attach line rest kept) := by
  cases rest with
  | nil =>
      rw [groups] at h
      simp only [groups, hline, Bool.false_eq_true, if_false]
      exact .line rfl h
  | cons next rest =>
      rw [groups, if_neg (by simp [hline])]
      cases hnext : isIndented next with
      | true =>
          rw [groups_indented hnext] at h ⊢
          cases h with
          | line hblock _ => cases hblock
          | block hblock henter hbody hleave hrest =>
              have hkept := Lowers.block (g := ⟨some line, _⟩) hblock henter hbody hleave hrest
              simpa [attach, hnext, Group.calling] using hkept
      | false =>
          have hattach : attach line (next :: rest) kept = line :: kept := by simp [attach, hnext]
          rw [hattach]
          split
          next block gs hgs =>
            rw [groups, if_neg (by simp [hnext])] at hgs
            split at hgs
            next => cases hgs
            next => cases hgs
          next => exact .line rfl h

/-- A block that does not share gets the next name. -/
theorem Lowering.enter_eq {ids : Allocator} (h : ids.remaining ≠ 0) (before : List Scope)
    (journal : List Note) (parent : Text) :
    Lowering.enter ⟨⟨ids, none⟩, before, journal⟩ parent =
      (⟨⟨ids.after 1, none⟩, before, journal⟩, .ok (Anonymous.name ids.next)) := by
  rcases ids.draw_cases with ⟨hnone, -⟩ | ⟨hdraw, -⟩
  · exact absurd hnone h
  · simp only [enter, draw, hdraw]
    rfl

/-- What lowering makes of lines whose blocks get names from `ids`: functions for the blocks, in the
order in which they close, each named as the block is counted when it opens. -/
structure Numbers (ns : Namespace) (ids : Allocator) (ls : List Text) (opened closed : List Span)
    (made : List Scope) (kept : List Text) : Prop where
  numbering : Numbering (depthAt ls) opened closed
  length : opened.length = rises ls
  functions : made.map Except.ok =
    closed.map fun b => b.function ns ls (ids.after (opened.idxOf b))
  lowers : ∀ parent before journal, ∃ journal',
    Lowers ns parent ⟨⟨ids, none⟩, before, journal⟩ (groups ls)
      ⟨⟨ids.after (rises ls), none⟩, before ++ made, journal'⟩ kept

namespace Numbers

variable {ns : Namespace} {ids : Allocator} {made made₁ made₂ : List Scope}
  {opened closed opened₁ closed₁ opened₂ closed₂ : List Span}
  {kept kept₁ kept₂ run rest : List Text}

theorem nil (ns : Namespace) (ids : Allocator) : Numbers ns ids [] [] [] [] [] := by
  refine ⟨.nil fun i => rfl, rfl, rfl, fun parent before journal => ⟨journal, ?_⟩⟩
  rw [groups, List.append_nil]
  exact .nil _ _

theorem flush {line : Text} (hline : isIndented line = false)
    (h : Numbers ns ids rest opened closed made kept) :
    Numbers ns ids (line :: rest) (opened.map (.shift 1)) (closed.map (.shift 1)) made
      (attach line rest kept) := by
  have hindent := indent_of_flush hline
  have hrises := rises_flush hline rest
  refine ⟨h.numbering.flush hindent fun i => rfl, ?_, ?_, ?_⟩
  · rw [List.length_map, h.length, hrises]
  · rw [h.functions, List.map_map]
    apply List.map_congr_left
    intro b _
    have htext : (b.shift 1).text (line :: rest) = b.text rest := b.text_shift [line] rest
    simp only [Function.comp, Span.function, htext, Span.idxOf_map (Span.shift_injective 1)]
  · intro parent before journal
    obtain ⟨journal', hlowers⟩ := h.lowers parent before journal
    rw [hrises]
    exact ⟨journal', hlowers.cons_flush hline⟩

/-- The function of a run holds what is kept of the lines in it. -/
theorem function_whole (h₁ : Numbers ns (ids.after 1) (inner run) opened₁ closed₁ made₁ kept₁)
    (rest : List Text) :
    (Span.mk 0 run.length 1).function ns (run ++ rest) ids =
      .ok ⟨ns, Anonymous.name ids.next, Text.unlines kept₁⟩ := by
  obtain ⟨journal, hbody⟩ := h₁.lowers (ns.reference (Anonymous.name ids.next)) [] []
  have hlower := hbody.lowerGroups_eq
  rw [inner] at hlower
  simp only [Span.function, lower, Span.text_whole, Scope.lines, Scope.reference, hlower]
  rfl

/-- A block is entered first, then those in it, then those below, and it is left after those in
it. -/
theorem block (h₁ : Numbers ns (ids.after 1) (inner run) opened₁ closed₁ made₁ kept₁)
    (hrun : IsRun run rest) (hids : ids.remaining ≠ 0)
    (h₂ : Numbers ns (ids.after (1 + rises (inner run))) rest opened₂ closed₂ made₂ kept₂) :
    Numbers ns ids (run ++ rest)
      (⟨0, run.length, 1⟩ :: (opened₁.map .deeper ++ opened₂.map (.shift run.length)))
      (closed₁.map .deeper ++ ⟨0, run.length, 1⟩ :: closed₂.map (.shift run.length))
      (made₁ ++ ⟨ns, Anonymous.name ids.next, Text.unlines kept₁⟩ :: made₂)
      (Group.calling ⟨none, run.map (·.drop 1)⟩ (ns.reference (Anonymous.name ids.next)) ::
        kept₂) := by
  refine ⟨.run hrun.toRun h₁.numbering h₂.numbering, ?_, ?_, fun parent before journal => ?_⟩
  · simp only [List.length_cons, List.length_append, List.length_map, h₁.length, h₂.length,
      hrun.rises_eq]
    omega
  · rw [List.map_append, List.map_cons, List.map_append, List.map_cons, List.map_map, List.map_map,
      h₁.functions, h₂.functions, ← h₁.function_whole rest, List.idxOf_cons_self]
    congr 1
    · apply List.map_congr_left
      intro b hb
      have hblock := (h₁.numbering.mem_closed b).mp hb
      simp only [Function.comp, Span.function, Span.text_deeper hrun hblock,
        h₁.numbering.idxOf_deeper hblock, Allocator.after_add]
    · congr 1
      apply List.map_congr_left
      intro b _
      simp only [Function.comp, Span.function, Span.text_shift,
        Numbering.idxOf_shift hrun.toRun h₁.numbering, h₁.length, Allocator.after_add]
  · have henter := Lowering.enter_eq hids before journal parent
    obtain ⟨journal₁, hbody⟩ := h₁.lowers (ns.reference (Anonymous.name ids.next)) before journal
    rw [← Allocator.after_add] at hbody
    obtain ⟨journal₂, hrest⟩ := h₂.lowers parent
      (before ++ made₁ ++ [⟨ns, Anonymous.name ids.next, Text.unlines kept₁⟩])
      (journal₁ ++ [.blockExtracted (ns.reference (Anonymous.name ids.next)) parent])
    have hmade : before ++ (made₁ ++ ⟨ns, Anonymous.name ids.next, Text.unlines kept₁⟩ :: made₂) =
        before ++ made₁ ++ [⟨ns, Anonymous.name ids.next, Text.unlines kept₁⟩] ++ made₂ := by simp
    rw [← Allocator.after_add, ← hrun.rises_eq] at hrest
    refine ⟨journal₂, ?_⟩
    rw [hrun.groups_eq, hmade]
    exact .block (by simpa using hrun.ne_nil) henter hbody rfl hrest

end Numbers

/-- If there are names for them, all blocks of lines are numbered. -/
theorem exists_numbers (ns : Namespace) {ls : List Text} (hls : ∀ line ∈ ls, Text.newline ∉ line)
    {ids : Allocator} (hids : rises ls ≤ ids.remaining) :
    ∃ opened closed made kept, Numbers ns ids ls opened closed made kept := by
  refine lines_induction (motive := fun ls => ∀ ids : Allocator, rises ls ≤ ids.remaining →
    ∃ opened closed made kept, Numbers ns ids ls opened closed made kept) ?nil ?flush ?run hls ids
    hids
  case nil => exact fun ids _ => ⟨_, _, _, _, .nil ns ids⟩
  case flush =>
    intro line rest hline ih ids hids
    obtain ⟨opened, closed, made, kept, h⟩ := ih ids (rises_flush hline rest ▸ hids)
    exact ⟨_, _, _, _, h.flush hline⟩
  case run =>
    intro run rest hrun ih₁ ih₂ ids hids
    rw [hrun.rises_eq] at hids
    obtain ⟨opened₁, closed₁, made₁, kept₁, h₁⟩ := ih₁ (ids.after 1) (by
      rw [Allocator.remaining_after]
      omega)
    obtain ⟨opened₂, closed₂, made₂, kept₂, h₂⟩ := ih₂ (ids.after (1 + rises (inner run))) (by
      rw [Allocator.remaining_after]
      omega)
    exact ⟨_, _, _, _, h₁.block hrun (by omega) h₂⟩

theorem Span.function_ok {ns : Namespace} {ls : List Text} {ids : Allocator} {b : Span} {z : Scope}
    (h : b.function ns ls ids = .ok z) : z.ns = ns ∧ z.name = Anonymous.name ids.next := by
  obtain ⟨_, -, rfl⟩ := lowers_of_lower (Prod.ext rfl h)
  exact ⟨rfl, rfl⟩

/-- Lowering a scope whose blocks do not share makes one function for each tab by which a line is
indented deeper than the line above, as long as there are names. The functions come in the order in
which the blocks close, before the scope itself. Their names are those of the next ids, in the order
in which the blocks open. -/
theorem accept_numbers_blocks (m : Memory) (s : Scope) (hshared : m.shared = none)
    (hids : rises s.lines ≤ m.ids.remaining) :
    let reaction := Stage.blocks.accept m s
    ∃ opened closed made z,
      Numbering (depthAt s.lines) opened closed ∧ made.length = rises s.lines ∧
      reaction.fault = none ∧ reaction.memory = { m with ids := m.ids.after (rises s.lines) } ∧
      (Flow.mk reaction.events none).scopes = made ++ [z] ∧ z.ns = s.ns ∧ z.name = s.name ∧
      List.Forall₂ (fun b f => f.ns = s.ns ∧
        f.name = Anonymous.name (m.ids.direction.step^[opened.idxOf b] m.ids.next) ∧
        b.function s.ns s.lines (m.ids.after (opened.idxOf b)) = .ok f) closed made := by
  obtain ⟨ids, shared⟩ := m
  obtain rfl : shared = none := hshared
  have hlines : ∀ line ∈ s.lines, Text.newline ∉ line := fun _ => Text.newline_not_mem_lines
  obtain ⟨opened, closed, made, kept, h⟩ := exists_numbers s.ns hlines hids
  obtain ⟨journal, hlowers⟩ := h.lowers s.reference [] []
  have hlower : lower ⟨ids, none⟩ s = _ := congrArg
    (fun r => (r.1, r.2.map fun lines => s.withContent (Text.unlines lines))) hlowers.lowerGroups_eq
  have hlength : made.length = closed.length := by
    simpa using congrArg List.length h.functions
  refine ⟨opened, closed, made, s.withContent (Text.unlines kept), h.numbering, ?_, ?_, ?_, ?_, rfl,
    rfl, ?_⟩
  · rw [hlength, h.numbering.perm.length_eq, h.length]
  · rw [accept_of_ok hlower]
  · rw [accept_of_ok hlower]
  · rw [accept_of_ok hlower, Flow.scopes_notes_append, List.nil_append]
  · apply List.forall₂_iff_get.mpr
    refine ⟨hlength.symm, fun i hclosed hmade => ?_⟩
    have hfunction : .ok made[i] =
        closed[i].function s.ns s.lines (ids.after (opened.idxOf closed[i])) := by
      simpa [hclosed, hmade] using congrArg (·[i]?) h.functions
    have hmem : closed[i] ∈ opened := h.numbering.perm.mem_iff.mp (List.getElem_mem hclosed)
    have hrank : opened.idxOf closed[i] < ids.remaining := by
      have := List.idxOf_lt_length_iff.mpr hmem
      rw [h.length] at this
      exact Nat.lt_of_lt_of_le this hids
    obtain ⟨hns, hname⟩ := Span.function_ok hfunction.symm
    rw [Allocator.next_after hrank] at hname
    exact ⟨hns, hname, hfunction.symm⟩

/-- Blocks that open two at a time, at the end of the ids. The last line of the second one is empty
but for its tab. -/
theorem accept_numbers_blocks_last :
    let ns : Namespace := ⟨{ path := ascii "packs/p", name := ascii "p" }, ascii "ns"⟩
    let s : Scope := ⟨ns, ascii "main", ascii "\t\ta\n\tb\nc\n\t\td\r\r\n\t"⟩
    let m : Memory := { ids := { Allocator.ascending with next := 0x7FFFFFFC } }
    m.shared = none ∧ rises s.lines = 4 ∧ m.ids.remaining = 4 ∧
      (∃ made z, (Flow.mk (Stage.blocks.accept m s).events none).scopes = made ++ [z] ∧
        made.length = 4) ∧
      (Flow.mk (Stage.blocks.accept m s).events none).scopes.map Scope.name =
        [Anonymous.name 0x7FFFFFFD, Anonymous.name 0x7FFFFFFC, Anonymous.name 0x7FFFFFFF,
          Anonymous.name 0x7FFFFFFE, ascii "main"] := by
  intro ns s m
  have hrises : rises s.lines = 4 := by decide +kernel
  have hremaining : m.ids.remaining = 4 := by decide +kernel
  obtain ⟨_, _, made, z, -, hlength, -, -, hscopes, -⟩ :=
    accept_numbers_blocks m s rfl (Nat.le_of_eq (hrises.trans hremaining.symm))
  exact ⟨rfl, hrises, hremaining, ⟨made, z, hscopes, hlength.trans hrises⟩, by decide +kernel⟩

end Block

end Packwright
