import Packwright.Text.Piece

/-! # White space, trimming and fields

White space is the Unicode property of that name, so it reaches beyond ASCII. A stray byte is never
white space, whatever its value. The fields of a text are its maximal runs free of white space.
-/

namespace Packwright.Text

/-- Whether a character is white space. -/
def isWhiteSpace (c : Char) : Bool :=
  let n := c.toNat
  n == 0x20 || (0x09 ≤ n && n ≤ 0x0D) || n == 0x85 || n == 0xA0 || n == 0x1680
    || (0x2000 ≤ n && n ≤ 0x200A) || n == 0x2028 || n == 0x2029 || n == 0x202F || n == 0x205F
    || n == 0x3000

/-- The number of bytes of the white space character that starts with byte `a`, given the bytes
after it; zero if none does. Only the first byte of a character can start one. -/
def spaceWidth (a : UInt8) (rest : Text) : Nat :=
  match sequenceAt a rest with
  | some (c, more) => if isWhiteSpace c then more + 1 else 0
  | none => 0

/-- The text from its first byte on that is not white space. The first `pending` bytes belong to a
white space character already seen. -/
def skipSpaceFrom (pending : Nat) : Text → Text
  | [] => []
  | a :: rest =>
    match pending with
    | n + 1 => skipSpaceFrom n rest
    | 0 =>
      match spaceWidth a rest with
      | 0 => a :: rest
      | n + 1 => skipSpaceFrom n rest

/-- The text without the white space at its front. -/
def skipSpace (t : Text) : Text := skipSpaceFrom 0 t

/-- Whether a text holds nothing but white space. -/
def isSpace (t : Text) : Bool := (skipSpace t).isEmpty

/-- The text up to its first white space. -/
def takeField : Text → Text
  | [] => []
  | a :: rest => if spaceWidth a rest = 0 then a :: takeField rest else []

/-- The text from its first white space on. -/
def dropField : Text → Text
  | [] => []
  | a :: rest => if spaceWidth a rest = 0 then dropField rest else a :: rest

/-- The text without the white space at its end. -/
def dropSpaceEnd : Text → Text
  | [] => []
  | a :: rest => if isSpace (a :: rest) then [] else a :: dropSpaceEnd rest

/-- The text without the white space at its two ends. -/
def trim (t : Text) : Text := dropSpaceEnd (skipSpace t)

theorem length_skipSpaceFrom_le (pending : Nat) (t : Text) :
    (skipSpaceFrom pending t).length ≤ t.length := by
  induction t generalizing pending with
  | nil => simp [skipSpaceFrom]
  | cons a rest ih =>
    cases pending with
    | succ n => exact Nat.le_succ_of_le (ih n)
    | zero =>
      rw [skipSpaceFrom]
      split
      next => exact Nat.le_refl _
      next n _ => exact Nat.le_succ_of_le (ih n)

/-- What is left after white space does not start with white space. -/
theorem spaceWidth_of_skipSpaceFrom {pending : Nat} {t rest : Text} {a : UInt8}
    (h : skipSpaceFrom pending t = a :: rest) : spaceWidth a rest = 0 := by
  induction t generalizing pending with
  | nil => cases h
  | cons b tail ih =>
    cases pending with
    | succ n => exact ih h
    | zero =>
      rw [skipSpaceFrom] at h
      split at h
      next hwidth => cases h; exact hwidth
      next => exact ih h

theorem length_dropField_le (t : Text) : (dropField t).length ≤ t.length := by
  induction t with
  | nil => simp [dropField]
  | cons a rest ih =>
    rw [dropField]
    split
    next => exact Nat.le_succ_of_le ih
    next => exact Nat.le_refl _

/-- The maximal runs of a text that are free of white space, in order. -/
def fields (t : Text) : List Text :=
  match h : skipSpace t with
  | [] => []
  | a :: rest =>
    have : (dropField (a :: rest)).length < t.length := by
      have hle := length_skipSpaceFrom_le 0 t
      have hwidth := spaceWidth_of_skipSpaceFrom h
      have hrest := length_dropField_le rest
      rw [show skipSpaceFrom 0 t = a :: rest from h, List.length_cons] at hle
      rw [dropField, if_pos hwidth]
      omega
    takeField (a :: rest) :: fields (dropField (a :: rest))
termination_by t.length

/-- The first field of a text, empty if the text holds nothing but white space. -/
def firstField (t : Text) : Text := takeField (skipSpace t)

end Packwright.Text
