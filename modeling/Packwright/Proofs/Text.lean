import Mathlib.Data.List.Infix
import Packwright.Text.Line
import Packwright.Text.WhiteSpace

/-! # Laws of text

Lines that can stand in a text are found again in it (`lines_unlines`). White space is read byte by
byte, and what a byte counts as depends on the bytes after it up to the end of its character. A
blank ends every character, so a text that ends in a blank is read the same whatever follows it
(`firstField_append`). A carriage return is white space but no blank: it goes when lines are put
together and taken apart, and the first field of a line does not show it
(`head?_fields_append_return`).
-/

namespace Packwright.Text

/-! ## Lines -/

/-- A text that stands as a line of its own among others. -/
structure IsLine (line : Text) : Prop where
  ne_nil : line ≠ []
  newline : newline ∉ line
  ending : line.getLast? ≠ some carriageReturn

theorem chop_of_getLast?_ne {b : UInt8} {t : Text} (h : t.getLast? ≠ some b) : chop b t = t :=
  if_neg h

theorem unlines_cons {line : Text} {rest : List Text} (h : rest ≠ []) :
    unlines (line :: rest) = line ++ newline :: unlines rest := by
  simp [unlines, join, List.intercalate_cons_of_ne_nil h]

theorem unlines_ne_nil {ls : List Text} (hls : ls ≠ []) (hlast : ls.getLast? ≠ some []) :
    unlines ls ≠ [] := by
  match ls with
  | [line] => simpa [unlines, join] using hlast
  | line :: next :: rest => simp [unlines_cons]

/-- Lines put together do not end in the end of a line, unless the last one is empty. -/
theorem getLast?_unlines {ls : List Text} (h : ∀ line ∈ ls, newline ∉ line)
    (hlast : ls.getLast? ≠ some []) : (unlines ls).getLast? ≠ some newline := by
  induction ls with
  | nil => simp [unlines, join]
  | cons line rest ih =>
      rw [List.forall_mem_cons] at h
      by_cases hrest : rest = []
      · intro hend
        have hmem : newline ∈ line := by
          apply List.mem_of_getLast?
          simpa [hrest, unlines, join] using hend
        exact h.1 hmem
      · have hlast : rest.getLast? ≠ some [] := by
          rwa [← List.singleton_append, List.getLast?_append_of_ne_nil _ hrest] at hlast
        rw [unlines_cons hrest, List.append_cons,
          List.getLast?_append_of_ne_nil _ (unlines_ne_nil hrest hlast)]
        exact ih h.2 hlast

/-- The lines of lines put together are these lines, unless the last one is empty. -/
theorem lines_unlines_of_last {ls : List Text}
    (h : ∀ line ∈ ls, newline ∉ line ∧ line.getLast? ≠ some carriageReturn)
    (hlast : ls.getLast? ≠ some []) : lines (unlines ls) = ls := by
  by_cases hls : ls = []
  · subst hls
    rfl
  · have hnewline : ∀ line ∈ ls, newline ∉ line := fun line hl => (h line hl).1
    have hne : (unlines ls).isEmpty = false := by simpa using unlines_ne_nil hls hlast
    have hsplit : (unlines ls).splitOn newline = ls :=
      List.splitOn_intercalate newline hnewline hls
    rw [lines, hne, chop_of_getLast?_ne (getLast?_unlines hnewline hlast), hsplit]
    have hchop : ls.map (chop carriageReturn) = ls.map id :=
      List.map_congr_left fun line hl => chop_of_getLast?_ne (h line hl).2
    simpa using hchop

theorem lines_unlines {ls : List Text} (h : ∀ line ∈ ls, IsLine line) :
    lines (unlines ls) = ls :=
  lines_unlines_of_last (fun line hl => ⟨(h line hl).newline, (h line hl).ending⟩)
    fun hlast => (h [] (List.mem_of_getLast? hlast)).ne_nil rfl

/-- A part of a text cut at a byte does not hold the byte. -/
theorem of_mem_splitOn {b : UInt8} {t l : Text} (h : l ∈ t.splitOn b) : b ∉ l ∧ l ⊆ t := by
  induction t generalizing l with
  | nil =>
      obtain rfl : l = [] := by simpa using h
      simp
  | cons c rest ih =>
      rw [List.splitOn_cons_eq_if_modifyHead] at h
      split at h
      next =>
        rcases List.mem_cons.mp h with rfl | h
        · simp
        · exact (ih h).imp_right (List.subset_cons_of_subset c)
      next hc =>
        cases hsplit : rest.splitOn b with
        | nil => exact absurd hsplit (List.splitOn_ne_nil b rest)
        | cons first others =>
            rw [hsplit, List.modifyHead_cons] at h
            rcases List.mem_cons.mp h with rfl | h
            · obtain ⟨hfirst, hsub⟩ := ih (hsplit ▸ List.mem_cons_self)
              have hne : b ≠ c := fun heq => hc (by simp [heq])
              exact ⟨by simp [hne, hfirst], List.cons_subset_cons c hsub⟩
            · have hl := ih (hsplit ▸ List.mem_cons_of_mem _ h)
              exact hl.imp_right (List.subset_cons_of_subset c)

theorem chop_subset (b : UInt8) (t : Text) : chop b t ⊆ t := by
  unfold chop
  split
  next => exact List.dropLast_subset t
  next => exact List.Subset.refl t

theorem newline_not_mem_lines {t line : Text} (h : line ∈ lines t) : newline ∉ line := by
  unfold lines at h
  split at h
  next => cases h
  next =>
    obtain ⟨l, hl, rfl⟩ := List.mem_map.mp h
    exact fun hmem => (of_mem_splitOn hl).1 (chop_subset _ l hmem)

/-- What a final separator is taken off has no parts but those of the text. -/
theorem splitOn_chop_subset (b : UInt8) (t : Text) : (chop b t).splitOn b ⊆ t.splitOn b := by
  unfold chop
  split
  next hlast =>
    have ht : t.dropLast ++ [b] = t := List.dropLast_append_getLast? b hlast
    have hsplit := List.splitOn_append_cons_self (a := b) t.dropLast []
    rw [ht] at hsplit
    rw [hsplit]
    exact List.subset_append_left _ _
  next => exact List.Subset.refl _

/-- The lines of a text that was put together of lines are among them, up to a carriage return at
their ends. -/
theorem mem_lines_unlines {ls : List Text} (h : ∀ line ∈ ls, newline ∉ line) {line : Text}
    (hline : line ∈ lines (unlines ls)) : ∃ l ∈ ls, line = chop carriageReturn l := by
  by_cases hls : ls = []
  · subst hls
    cases hline
  · have hsplit : (unlines ls).splitOn newline = ls := List.splitOn_intercalate newline h hls
    unfold lines at hline
    split at hline
    next => cases hline
    next =>
      obtain ⟨l, hl, rfl⟩ := List.mem_map.mp hline
      refine ⟨l, ?_, rfl⟩
      rw [← hsplit]
      exact splitOn_chop_subset newline _ hl

/-! ## White space -/

/-- A text that is empty or ends in a blank. -/
def EndsBlank (t : Text) : Prop := ∀ b, t.getLast? = some b → isBlank b = true

theorem EndsBlank.suffix {t t' : Text} (h : EndsBlank t) (hsuffix : t' <:+ t) : EndsBlank t' := by
  obtain ⟨u, rfl⟩ := hsuffix
  intro b hb
  exact h b (by rw [List.getLast?_append, hb, Option.some_or])

theorem EndsBlank.tail {a : UInt8} {rest : Text} (h : EndsBlank (a :: rest)) : EndsBlank rest :=
  h.suffix (List.suffix_cons a rest)

theorem eq_of_isBlank {b : UInt8} (h : isBlank b = true) : b = space ∨ b = tab := by
  simpa [isBlank] using h

theorem isContinuation_of_blank {b : UInt8} (h : isBlank b = true) : isContinuation b = false := by
  rcases eq_of_isBlank h with rfl | rfl <;> rfl

theorem not_le_of_blank {b : UInt8} (h : isBlank b = true) (p : Prop) [Decidable p] (low : UInt8)
    (hlow : 0x80 ≤ low) : ¬ (if p then low else 0x80) ≤ b := by
  have hb : b < 0x80 := by rcases eq_of_isBlank h with rfl | rfl <;> decide
  split
  next => exact fun hle => absurd (UInt8.le_trans hlow hle) (UInt8.not_le.mpr hb)
  next => exact UInt8.not_le.mpr hb

/-- A character in a text is there whatever follows the text. -/
theorem sequenceAt_append {a : UInt8} {rest : Text} {c : Char} {more : Nat}
    (h : sequenceAt a rest = some (c, more)) (y : Text) :
    sequenceAt a (rest ++ y) = some (c, more) ∧ more ≤ rest.length := by
  match rest with
  | [] =>
      simp only [sequenceAt] at h ⊢
      split at h <;> simp_all
  | [b] =>
      simp only [sequenceAt] at h ⊢
      grind
  | [b, c] =>
      simp only [sequenceAt] at h ⊢
      grind
  | b :: c :: d :: rest =>
      simp only [sequenceAt] at h ⊢
      grind

/-- A blank in a text hides what follows the text: it is no part of a longer character. -/
theorem sequenceAt_append_of_blank {rest : Text} (h : ∃ b ∈ rest, isBlank b = true) (a : UInt8)
    (y : Text) : sequenceAt a (rest ++ y) = sequenceAt a rest := by
  match rest, y with
  | [], _ => simp at h
  | _ :: _, [] => rw [List.append_nil]
  | [b], [c] | [b], c :: d :: y =>
      have hb : isBlank b = true := by simpa using h
      simp [sequenceAt, not_le_of_blank hb]
  | [b, c], d :: y =>
      have hblank : isBlank b = true ∨ isBlank c = true := by simpa using h
      rcases hblank with hb | hc
      · simp [sequenceAt, not_le_of_blank hb]
      · simp [sequenceAt, isContinuation_of_blank hc]
  | b :: c :: d :: rest, _ => rfl

theorem spaceWidth_of_blank {a : UInt8} (h : isBlank a = true) (rest : Text) :
    spaceWidth a rest = 1 := by
  rcases eq_of_isBlank h with rfl | rfl <;> rfl

theorem spaceWidth_append {a : UInt8} {rest : Text} {n : Nat} (h : spaceWidth a rest = n + 1)
    (y : Text) : spaceWidth a (rest ++ y) = n + 1 ∧ n ≤ rest.length := by
  unfold spaceWidth at h ⊢
  split at h
  next c more hsequence =>
    obtain ⟨happend, hle⟩ := sequenceAt_append hsequence y
    rw [happend]
    refine ⟨h, ?_⟩
    split at h
    next => omega
    next => cases h
  next => cases h

theorem spaceWidth_append_of_endsBlank {a : UInt8} {rest : Text} (h : EndsBlank (a :: rest))
    (y : Text) : spaceWidth a (rest ++ y) = spaceWidth a rest := by
  rcases List.eq_nil_or_concat rest with rfl | ⟨init, b, rfl⟩
  · have ha : isBlank a = true := h a rfl
    rw [spaceWidth_of_blank ha, spaceWidth_of_blank ha]
  · have hb : isBlank b = true := h.tail b (by simp)
    unfold spaceWidth
    rw [sequenceAt_append_of_blank ⟨b, by simp, hb⟩]

theorem skipSpaceFrom_suffix (pending : Nat) (t : Text) : skipSpaceFrom pending t <:+ t := by
  fun_induction skipSpaceFrom pending t with
  | case1 => exact List.suffix_rfl
  | case2 a rest n ih => exact ih.trans (List.suffix_cons a rest)
  | case3 => exact List.suffix_rfl
  | case4 a rest n _ ih => exact ih.trans (List.suffix_cons a rest)

/-- White space at the front of a text that ends in a blank is skipped the same whatever follows. -/
theorem skipSpaceFrom_append {pending : Nat} {t : Text} (h : EndsBlank t) (hle : pending ≤ t.length)
    (y : Text) : skipSpaceFrom pending (t ++ y) =
      if (skipSpaceFrom pending t).isEmpty then skipSpace y else skipSpaceFrom pending t ++ y := by
  fun_induction skipSpaceFrom pending t with
  | case1 pending =>
      obtain rfl : pending = 0 := Nat.le_zero.mp hle
      rfl
  | case2 a rest n ih => exact ih h.tail (Nat.le_of_succ_le_succ hle)
  | case3 a rest hwidth =>
      rw [List.cons_append, skipSpaceFrom, spaceWidth_append_of_endsBlank h, hwidth]
      rfl
  | case4 a rest n hwidth ih =>
      obtain ⟨happend, hlength⟩ := spaceWidth_append hwidth y
      rw [List.cons_append, skipSpaceFrom, happend]
      exact ih h.tail hlength

theorem skipSpace_append {t : Text} (h : EndsBlank t) (y : Text) :
    skipSpace (t ++ y) = if isSpace t then skipSpace y else skipSpace t ++ y :=
  skipSpaceFrom_append h (Nat.zero_le _) y

theorem isSpace_append {t : Text} (h : EndsBlank t) (hspace : isSpace t = true) (y : Text) :
    isSpace (t ++ y) = isSpace y := by
  rw [isSpace, skipSpace_append h, if_pos hspace]
  rfl

theorem takeField_append {t : Text} (h : EndsBlank t) (hne : t ≠ []) (y : Text) :
    takeField (t ++ y) = takeField t := by
  induction t with
  | nil => exact absurd rfl hne
  | cons a rest ih =>
      rw [List.cons_append, takeField, takeField, spaceWidth_append_of_endsBlank h]
      split
      next hwidth =>
        by_cases hrest : rest = []
        · subst hrest
          rw [spaceWidth_of_blank (h a rfl)] at hwidth
          cases hwidth
        · rw [ih h.tail hrest]
      next => rfl

/-- The first field of a text that ends in a blank is the same whatever follows. -/
theorem firstField_append {t : Text} (h : EndsBlank t) (y : Text) :
    firstField (t ++ y) = if isSpace t then firstField y else firstField t := by
  rw [firstField, skipSpace_append h]
  split
  next => rfl
  next hspace =>
    have hne : skipSpace t ≠ [] := by simpa [isSpace] using hspace
    exact takeField_append (h.suffix (skipSpaceFrom_suffix 0 t)) hne y

theorem isSpace_of_blanks {t : Text} (h : ∀ b ∈ t, isBlank b = true) : isSpace t = true := by
  suffices hskip : skipSpace t = [] by rw [isSpace, hskip]; rfl
  induction t with
  | nil => rfl
  | cons a rest ih =>
      rw [skipSpace, skipSpaceFrom, spaceWidth_of_blank (h a List.mem_cons_self)]
      exact ih fun b hb => h b (List.mem_cons_of_mem _ hb)

theorem mem_takeField {t : Text} {b : UInt8} (h : b ∈ takeField t) : b ∈ t ∧ isBlank b = false := by
  induction t with
  | nil => cases h
  | cons a rest ih =>
      rw [takeField] at h
      split at h
      next hwidth =>
        rcases List.mem_cons.mp h with rfl | h
        · refine ⟨List.mem_cons_self, ?_⟩
          by_contra hblank
          rw [spaceWidth_of_blank (by simpa using hblank)] at hwidth
          cases hwidth
        · exact (ih h).imp_left (List.mem_cons_of_mem _)
      next => cases h

theorem dropField_suffix (t : Text) : dropField t <:+ t := by
  induction t with
  | nil => exact List.suffix_rfl
  | cons a rest ih =>
      rw [dropField]
      split
      next => exact ih.trans (List.suffix_cons a rest)
      next => exact List.suffix_rfl

/-- A text that is not empty and free of blanks. -/
structure IsField (w : Text) : Prop where
  ne_nil : w ≠ []
  blank : ∀ b ∈ w, isBlank b = false

/-- The fields of a text are made of its bytes. -/
theorem isField_of_mem_fields {t w : Text} (h : w ∈ fields t) : IsField w ∧ w ⊆ t := by
  fun_induction fields t with
  | case1 => cases h
  | case2 t a rest hskip _ ih =>
      have hsub : a :: rest ⊆ t := hskip ▸ (skipSpaceFrom_suffix 0 t).subset
      rcases List.mem_cons.mp h with rfl | h
      · refine ⟨⟨?_, fun b hb => (mem_takeField hb).2⟩, fun b hb => hsub (mem_takeField hb).1⟩
        rw [takeField, if_pos (spaceWidth_of_skipSpaceFrom hskip)]
        exact List.cons_ne_nil _ _
      · obtain ⟨hfield, hmem⟩ := ih h
        exact ⟨hfield, fun b hb => hsub ((dropField_suffix _).subset (hmem hb))⟩

theorem fields_eq (t : Text) :
    fields t = match skipSpace t with
      | [] => []
      | a :: rest => takeField (a :: rest) :: fields (dropField (a :: rest)) := by
  rw [fields]
  split <;> simp_all

theorem dropField_append {t : Text} (h : EndsBlank t) (hne : t ≠ []) (y : Text) :
    dropField (t ++ y) = dropField t ++ y := by
  induction t with
  | nil => exact absurd rfl hne
  | cons a rest ih =>
      rw [List.cons_append, dropField, dropField, spaceWidth_append_of_endsBlank h]
      split
      next hwidth =>
        by_cases hrest : rest = []
        · subst hrest
          rw [spaceWidth_of_blank (h a rfl)] at hwidth
          cases hwidth
        · exact ih h.tail hrest
      next => rfl

/-- A blank divides the fields of a text: those before it are the same whatever follows. -/
theorem fields_append {t : Text} (h : EndsBlank t) (y : Text) :
    fields (t ++ y) = fields t ++ fields y := by
  fun_induction fields t with
  | case1 t hskip =>
      have hspace : isSpace t = true := by rw [isSpace, hskip]; rfl
      rw [fields_eq, skipSpace_append h, if_pos hspace, ← fields_eq]
      rfl
  | case2 t a rest hskip _ ih =>
      have hspace : ¬ isSpace t = true := by rw [isSpace, hskip]; exact Bool.false_ne_true
      have hends : EndsBlank (a :: rest) := hskip ▸ h.suffix (skipSpaceFrom_suffix 0 t)
      rw [fields_eq, skipSpace_append h, if_neg hspace, hskip]
      simp only [List.cons_append]
      rw [← List.cons_append, takeField_append hends (List.cons_ne_nil a rest),
        dropField_append hends (List.cons_ne_nil a rest),
        ih (hends.suffix (dropField_suffix (a :: rest)))]

theorem join_append (separator : Text) {front back : List Text} (hfront : front ≠ [])
    (hback : back ≠ []) :
    join separator (front ++ back) = join separator front ++ separator ++ join separator back := by
  unfold join
  induction front with
  | nil => exact absurd rfl hfront
  | cons first rest ih =>
      by_cases hrest : rest = []
      · rw [hrest, List.singleton_append, List.intercalate_cons_of_ne_nil hback,
          List.intercalate_singleton]
      · rw [List.cons_append, List.intercalate_cons_of_ne_nil (by simp [hrest]), ih hrest,
          List.intercalate_cons_of_ne_nil hrest]
        simp only [List.append_assoc]

theorem join_concat (separator : Text) {es : List Text} (hes : es ≠ []) (e : Text) :
    join separator (es ++ [e]) = join separator es ++ separator ++ e := by
  rw [join_append separator hes (List.cons_ne_nil e []), join, join, List.intercalate_singleton]

/-- Read backwards, joined parts are the parts in the other order, each of them read backwards. -/
theorem reverse_join (separator : Text) (parts : List Text) :
    (join separator parts).reverse =
      join separator.reverse (parts.map List.reverse).reverse := by
  induction parts with
  | nil => rfl
  | cons first rest ih =>
      by_cases hrest : rest = []
      · simp [hrest, join]
      · rw [← List.singleton_append, join_append separator (List.cons_ne_nil _ _) hrest,
          List.reverse_append, List.reverse_append, ih, List.map_append, List.reverse_append,
          join_append _ (by simpa using hrest) (by simp)]
        simp [join]

theorem join_ne_nil {separator w : Text} {ws : List Text} (h : w ≠ []) :
    join separator (w :: ws) ≠ [] := by
  cases ws with
  | nil => simpa [join] using h
  | cons w' ws => simp [join, List.intercalate_cons_cons, h]

/-- Fields with spaces between them are told apart again. -/
theorem join_space_inj {ws ws' : List Text} (h : ∀ w ∈ ws, IsField w) (h' : ∀ w ∈ ws', IsField w)
    (heq : join [space] ws = join [space] ws') : ws = ws' := by
  have hspace : ∀ w : Text, IsField w → space ∉ w := fun w hw hmem => nomatch hw.blank space hmem
  cases ws with
  | nil =>
      cases ws' with
      | nil => rfl
      | cons w' ws' => exact absurd heq.symm (join_ne_nil (h' w' List.mem_cons_self).ne_nil)
  | cons w ws =>
      cases ws' with
      | nil => exact absurd heq (join_ne_nil (h w List.mem_cons_self).ne_nil)
      | cons w' ws' =>
          have hsplit := congrArg (List.splitOn space) heq
          rwa [join, join, List.splitOn_intercalate space (fun l hl => hspace l (h l hl)) (by simp),
            List.splitOn_intercalate space (fun l hl => hspace l (h' l hl)) (by simp)] at hsplit

/-! ## Carriage returns -/

/-- A carriage return after a text is no part of a character in it. -/
theorem sequenceAt_append_return (a : UInt8) (rest : Text) :
    sequenceAt a (rest ++ [carriageReturn]) = sequenceAt a rest := by
  have hcontinuation : isContinuation carriageReturn = false := by decide
  match rest with
  | [] | [b] | [b, c] => simp [sequenceAt, hcontinuation]
  | b :: c :: d :: rest => rfl

theorem spaceWidth_append_return (a : UInt8) (rest : Text) :
    spaceWidth a (rest ++ [carriageReturn]) = spaceWidth a rest := by
  rw [spaceWidth, spaceWidth, sequenceAt_append_return]

theorem takeField_append_return (t : Text) : takeField (t ++ [carriageReturn]) = takeField t := by
  induction t with
  | nil => rfl
  | cons a rest ih => rw [List.cons_append, takeField, takeField, spaceWidth_append_return, ih]

theorem skipSpaceFrom_append_return {pending : Nat} {t : Text} (h : skipSpaceFrom pending t ≠ []) :
    skipSpaceFrom pending (t ++ [carriageReturn]) =
      skipSpaceFrom pending t ++ [carriageReturn] := by
  fun_induction skipSpaceFrom pending t with
  | case1 => exact absurd rfl h
  | case2 a rest n ih => exact ih h
  | case3 a rest hwidth =>
      rw [List.cons_append, skipSpaceFrom, spaceWidth_append_return, hwidth]
  | case4 a rest n hwidth ih =>
      rw [List.cons_append, skipSpaceFrom, spaceWidth_append_return, hwidth]
      exact ih h

theorem head?_fields (t : Text) :
    (fields t).head? = if skipSpace t = [] then none else some (firstField t) := by
  rw [fields]
  split
  next hskip => rw [if_pos hskip]; rfl
  next a rest hskip =>
    rw [if_neg (by simp [hskip])]
    exact congrArg (some ∘ takeField) hskip.symm

/-- A carriage return at the end of a text does not change its first field. -/
theorem head?_fields_append_return {t w : Text} (h : (fields t).head? = some w) :
    (fields (t ++ [carriageReturn])).head? = some w := by
  rw [head?_fields] at h
  split at h
  next => cases h
  next hskip =>
    have hskip' : skipSpace (t ++ [carriageReturn]) = skipSpace t ++ [carriageReturn] :=
      skipSpaceFrom_append_return hskip
    rw [head?_fields, if_neg (by simp [hskip']), ← h, firstField, firstField, hskip',
      takeField_append_return]

/-! ## Occurrences -/

theorem occursIn_iff {needle t : Text} : occursIn needle t = true ↔ needle <:+: t := by
  induction t with
  | nil => simp [occursIn]
  | cons b rest ih =>
      rw [occursIn, Bool.or_eq_true, List.isPrefixOf_iff_prefix, ih, List.infix_cons_iff]

/-- A text without blanks does not occur across a blank. -/
theorem infix_append_of_endsBlank {needle t y : Text} (hneedle : ∀ b ∈ needle, isBlank b = false)
    (ht : EndsBlank t) (h : needle <:+: t ++ y) : needle <:+: t ∨ needle <:+: y := by
  rcases List.infix_append_iff.mp h with h | h | ⟨u, v, rfl, hu, hv⟩
  · exact .inl h
  · exact .inr h
  · rcases List.eq_nil_or_concat u with rfl | ⟨init, b, rfl⟩
    · exact .inr hv.isInfix
    · have hblank : isBlank b = true := (ht.suffix hu) b (by simp)
      rw [hneedle b (by simp)] at hblank
      cases hblank

end Packwright.Text
