import Packwright.Text.Basic

/-! # Lines

A text is seen as the lines a reader sees: a final newline does not start another line, and a
carriage return before the end of a line does not belong to it.
-/

namespace Packwright.Text

/-- The lines of a text. The empty text has none. -/
def lines (t : Text) : List Text :=
  if t.isEmpty then [] else ((chop newline t).splitOn newline).map (chop carriageReturn)

/-- Puts lines together again, without a final newline. -/
def unlines (ls : List Text) : Text := join [newline] ls

/-- The number of tabs a line starts with. -/
def indent (line : Text) : Nat := (line.takeWhile (· == tab)).length

/-- The first word of a line, delimited by blanks. -/
def firstWord (line : Text) : Text := (line.dropWhile isBlank).takeWhile fun b => !isBlank b

/-- The number of bytes in lines, with their ends. -/
def extent : List Text → Nat
  | [] => 0
  | line :: rest => line.length + 1 + extent rest

theorem extent_cons (line : Text) (rest : List Text) :
    extent (line :: rest) = line.length + 1 + extent rest := rfl

/-- Cutting a text at a byte takes away one byte for each cut. -/
theorem extent_splitOn (b : UInt8) (t : Text) : extent (t.splitOn b) = t.length + 1 := by
  induction t with
  | nil => simp [extent]
  | cons c rest ih =>
    rw [List.splitOn_cons_eq_if_modifyHead]
    split
    next => rw [extent_cons, ih, List.length_nil, List.length_cons]; omega
    next =>
      cases h : rest.splitOn b with
      | nil => exact absurd h (List.splitOn_ne_nil b rest)
      | cons l ls =>
        rw [h] at ih
        simp only [List.modifyHead_cons, extent_cons, List.length_cons] at ih ⊢
        omega

theorem length_chop_le (b : UInt8) (t : Text) : (chop b t).length ≤ t.length := by
  unfold chop
  split <;> simp

/-- The lines of a text, each with its end, are no longer than the text with one more line end. -/
theorem extent_lines_le (t : Text) : extent (lines t) ≤ t.length + 1 := by
  unfold lines
  split
  next => exact Nat.zero_le _
  next =>
    have hchop : ∀ ls : List Text, extent (ls.map (chop carriageReturn)) ≤ extent ls := by
      intro ls
      induction ls with
      | nil => exact Nat.le_refl _
      | cons l ls ih =>
        have := length_chop_le carriageReturn l
        simp only [List.map_cons, extent_cons]
        omega
    refine Nat.le_trans (hchop _) ?_
    rw [extent_splitOn]
    have := length_chop_le newline t
    omega

end Packwright.Text
