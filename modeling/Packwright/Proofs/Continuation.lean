import Packwright.Proofs.Plain

/-! # Joining undoes cutting

A logical line may be cut anywhere and written on several lines, where every piece but the first
stands on a line of its own behind the keyword. What the pieces are made of does not matter: they
may be empty, start with blanks, or hold the keyword themselves. A line is recognised by its first
word and loses everything up to one blank behind that word, so joining finds each piece again
(`Segment.tail_line`) and puts the logical lines together as they were (`join_undoes_cutting`).
-/

namespace Packwright.Continuation

open Text (ascii)

/-- A piece of a logical line on a continuation line, with the blanks before the keyword and the one
behind it. -/
structure Segment where
  blanks : Text
  delimiter : UInt8
  piece : Text
  blank : ∀ b ∈ blanks, Text.isBlank b = true
  delimits : Text.isBlank delimiter = true
  newline : Text.newline ∉ piece
  ending : piece.getLast? ≠ some Text.carriageReturn

namespace Segment

/-- The line that a piece is written on. -/
def line (s : Segment) : Text := s.blanks ++ keyword ++ s.delimiter :: s.piece

theorem continues_line (s : Segment) : continues s.line = true :=
  continues_iff.mpr ⟨s.blanks, s.delimiter :: s.piece, rfl, s.blank, s.delimits⟩

/-- What a continuation line adds is the piece on it, from its first byte on. -/
theorem tail_line (s : Segment) : tail s.line = s.piece := by
  have hword : (keyword ++ s.delimiter :: s.piece).dropWhile Text.isBlank =
      keyword ++ s.delimiter :: s.piece := rfl
  rw [tail, line, List.append_assoc, List.dropWhile_append_of_pos s.blank, hword, List.drop_left]
  exact if_pos s.delimits

theorem newline_not_mem_line (s : Segment) : Text.newline ∉ s.line := by
  have hkeyword : Text.newline ∉ keyword := by decide
  have hblanks : Text.newline ∉ s.blanks := fun hmem => nomatch s.blank _ hmem
  have hdelimiter : Text.newline ≠ s.delimiter := by
    rcases Text.eq_of_isBlank s.delimits with h | h <;> rw [h] <;> decide
  simp [line, hkeyword, hblanks, hdelimiter, s.newline]

theorem getLast?_line (s : Segment) : s.line.getLast? ≠ some Text.carriageReturn := by
  rw [line, List.getLast?_append_of_ne_nil _ (List.cons_ne_nil _ _), List.getLast?_cons]
  cases hlast : s.piece.getLast? with
  | none => rcases Text.eq_of_isBlank s.delimits with h | h <;> rw [h] <;> decide
  | some b =>
      have hending := s.ending
      rwa [hlast] at hending

end Segment

/-- A logical line that is cut into a head, on a line of its own, and further pieces. -/
structure Cut where
  head : Text
  more : List Segment
  newline : Text.newline ∉ head
  ending : head.getLast? ≠ some Text.carriageReturn

namespace Cut

/-- The lines that a logical line is written on. -/
def lines (c : Cut) : List Text := c.head :: c.more.map Segment.line

/-- The logical line. -/
def whole (c : Cut) : Text := c.head ++ c.more.flatMap Segment.piece

theorem of_mem_lines {c : Cut} {line : Text} (h : line ∈ c.lines) :
    Text.newline ∉ line ∧ line.getLast? ≠ some Text.carriageReturn := by
  rcases List.mem_cons.mp h with rfl | h
  · exact ⟨c.newline, c.ending⟩
  · obtain ⟨s, -, rfl⟩ := List.mem_map.mp h
    exact ⟨s.newline_not_mem_line, s.getLast?_line⟩

end Cut

/-- Further pieces are added to the line before them, one after the other. -/
theorem absorb_segments (current : Text) (more : List Segment) (rest : List Text) :
    absorb current (more.map Segment.line ++ rest) =
      absorb (current ++ more.flatMap Segment.piece) rest := by
  induction more generalizing current with
  | nil => simp
  | cons s more ih =>
      rw [List.map_cons, List.cons_append, absorb, if_pos s.continues_line, s.tail_line, ih,
        List.flatMap_cons, List.append_assoc]

/-- A head that is no continuation line ends the logical line before it. The logical line that it
starts may read as a continuation line once it is joined, but it is not looked at again. -/
theorem absorb_cuts (current : Text) {cuts : List Cut}
    (h : ∀ c ∈ cuts, continues c.head = false) :
    absorb current (cuts.flatMap Cut.lines) = current :: cuts.map Cut.whole := by
  induction cuts generalizing current with
  | nil => rfl
  | cons c cuts ih =>
      rw [List.forall_mem_cons] at h
      rw [List.flatMap_cons, Cut.lines, List.cons_append, absorb,
        if_neg (Bool.eq_false_iff.mp h.1), absorb_segments, ih _ h.2]
      rfl

/-- Logical lines that are cut into pieces in any way, and written on lines that are read as such,
are put together again by joining. -/
theorem join_undoes_cutting (cuts : List Cut) (hne : cuts ≠ [])
    (hheads : ∀ c ∈ cuts.tail, continues c.head = false)
    (hlast : (cuts.flatMap Cut.lines).getLast? ≠ some []) :
    join (Text.unlines (cuts.flatMap Cut.lines)) = Text.unlines (cuts.map Cut.whole) := by
  have hlines : ∀ line ∈ cuts.flatMap Cut.lines,
      Text.newline ∉ line ∧ line.getLast? ≠ some Text.carriageReturn := by
    intro line hline
    obtain ⟨c, -, hline⟩ := List.mem_flatMap.mp hline
    exact Cut.of_mem_lines hline
  rw [join, Text.lines_unlines_of_last hlines hlast]
  obtain ⟨c, cuts, rfl⟩ := List.exists_cons_of_ne_nil hne
  rw [List.tail_cons] at hheads
  rw [List.flatMap_cons, Cut.lines, List.cons_append, joinLines, absorb_segments,
    absorb_cuts _ hheads]
  rfl

/-- A first line that is no continuation for lack of a line before it, pieces that are empty or hold
the keyword, and a head without a byte, whose logical line reads as a continuation. -/
def crossedCuts : List Cut :=
  [{ head := ascii "back to", newline := by decide, ending := by decide
     more := [
      { blanks := ascii " \t", delimiter := Text.tab, piece := ascii "  back back"
        blank := List.all_eq_true.mp (by decide), delimits := by decide, newline := by decide
        ending := by decide },
      { blanks := [], delimiter := Text.space, piece := []
        blank := List.all_eq_true.mp (by decide), delimits := by decide, newline := by decide
        ending := by decide }] },
   { head := [], newline := by decide, ending := by decide
     more := [
      { blanks := [], delimiter := Text.space, piece := ascii "back again"
        blank := List.all_eq_true.mp (by decide), delimits := by decide, newline := by decide
        ending := by decide }] }]

theorem join_undoes_cutting_crossed :
    crossedCuts ≠ [] ∧ (∀ c ∈ crossedCuts.tail, continues c.head = false) ∧
    (crossedCuts.flatMap Cut.lines).getLast? ≠ some [] ∧
    Text.unlines (crossedCuts.flatMap Cut.lines) =
      ascii "back to\n \tback\t  back back\nback \n\nback back again" ∧
    join (Text.unlines (crossedCuts.flatMap Cut.lines)) =
      ascii "back to  back back\nback again" := by
  have hne : crossedCuts ≠ [] := List.cons_ne_nil _ _
  have hheads : ∀ c ∈ crossedCuts.tail, continues c.head = false := by
    intro c hc
    rw [List.mem_singleton.mp hc]
    rfl
  have hlast : (crossedCuts.flatMap Cut.lines).getLast? ≠ some [] := by decide +kernel
  refine ⟨hne, hheads, hlast, by decide +kernel, ?_⟩
  rw [join_undoes_cutting crossedCuts hne hheads hlast]
  decide +kernel

end Packwright.Continuation
