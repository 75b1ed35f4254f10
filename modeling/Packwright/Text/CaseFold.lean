import Packwright.Text.LowerCase
import Packwright.Text.Piece

/-! # Folding case in limited room

Names are compared in lower case. A text is folded window by window into a buffer that is as large
as a window at first. A character whose lower-case form is longer than the room left is lost, and
when nothing at all fits, the buffer is enlarged for what follows. While the text stays as it is, a
window takes no room. Only few characters grow in lower case, so a short text loses nothing: it is
folded character by character.
-/

namespace Packwright.Text

/-- The size of a window, and of the buffer at first. -/
def foldWindow : Nat := 128

/-- What one pass did: the bytes it wrote, how many bytes of the text it passed, and whether it
ended at a character that did not fit. -/
structure FoldPass where
  written : Text := []
  passed : Nat := 0
  full : Bool := false
  deriving DecidableEq, Repr

/-- How many bytes a pass counts for a character. The replacement character counts as the one stray
byte it may stand for. -/
def foldWidth (c : Char) : Nat := if c = '�' then 1 else c.utf8Size

/-- Folds characters into the room left. A character that does not fit counts as passed. -/
def foldInto (room : Nat) : List Char → FoldPass
  | [] => {}
  | c :: cs =>
    let lower := String.utf8EncodeChar (lowerChar c)
    if room < lower.length then { passed := foldWidth c, full := true }
    else
      let p := foldInto (room - lower.length) cs
      { p with written := lower ++ p.written, passed := foldWidth c + p.passed }

/-- The size of a buffer after it was enlarged. -/
def enlarged (size : Nat) : Nat := if size ≤ 256 then 2 * size else size + size / 2

theorem foldWidth_pos (c : Char) : 0 < foldWidth c := by
  unfold foldWidth
  split
  · exact Nat.one_pos
  · exact c.utf8Size_pos

theorem passed_foldInto_pos (room : Nat) (c : Char) (cs : List Char) :
    0 < (foldInto room (c :: cs)).passed := by
  have width := foldWidth_pos c
  simp only [foldInto]
  split
  · exact width
  · exact Nat.add_pos_left width _

/-- A pass over the window at the front of a text moves on. -/
theorem passed_window_pos (room : Nat) (b : UInt8) (t : Text) :
    0 < (foldInto room (chars ((b :: t).take foldWindow))).passed := by
  have front : (b :: t).take foldWindow = b :: t.take 127 := rfl
  rw [front]
  simp only [chars, pieces, piecesFrom]
  split <;> exact passed_foldInto_pos room _ _

/-- Folds the rest of a text into a buffer of the given size, of which some bytes are used. -/
def foldRest (size used : Nat) : Text → Text
  | [] => []
  | b :: t =>
    let p := foldInto (size - used) (chars ((b :: t).take foldWindow))
    let next := if p.full && p.written.isEmpty then enlarged size else size
    p.written ++ foldRest next (used + p.written.length) ((b :: t).drop p.passed)
termination_by t => t.length
decreasing_by
  have moved := passed_window_pos (size - used) b t
  simp only [List.length_drop, List.length_cons]
  omega

/-- Folds a text of which `same` bytes were passed that are their own lower-case form. The first
window with a change goes into the buffer behind them; if they leave no room for it, the buffer is
made as large as the text would be if nothing else changed. -/
def foldFrom (length same : Nat) : Text → Text
  | [] => []
  | b :: t =>
    let window := (b :: t).take foldWindow
    let p := foldInto foldWindow (chars window)
    if !p.full && p.written == window.take p.passed then
      p.written ++ foldFrom length (same + p.passed) ((b :: t).drop p.passed)
    else
      let used := same + p.written.length
      let size := if foldWindow < used then length + p.written.length - p.passed else foldWindow
      p.written ++ foldRest size used ((b :: t).drop p.passed)
termination_by t => t.length
decreasing_by
  have moved := passed_window_pos foldWindow b t
  simp only [List.length_drop, List.length_cons]
  omega

/-- A text in lower case, as names are compared. -/
def fold (t : Text) : Text := foldFrom t.length 0 t

end Packwright.Text
