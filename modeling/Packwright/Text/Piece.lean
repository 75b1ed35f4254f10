import Packwright.Text.Basic

/-! # Reading text as characters

Text is read as UTF-8 from left to right. Where a well-formed sequence starts, it is one character;
any other byte is a stray and stands for itself.
-/

namespace Packwright.Text

/-- What stands at a position of a text: a character, or a byte that belongs to none. -/
inductive Piece where
  | char (c : Char)
  | stray (b : UInt8)
  deriving DecidableEq, Repr

/-- The character a piece counts as; a stray byte counts as the replacement character. -/
def Piece.toChar : Piece → Char
  | .char c => c
  | .stray _ => '\uFFFD'

/-- Whether `b` continues a sequence: the two high bits are `10`. -/
def isContinuation (b : UInt8) : Bool := 0x80 ≤ b && b ≤ 0xBF

/-- The six low bits that a continuation byte carries. -/
def continuationBits (b : UInt8) : Nat := b.toNat - 0x80

/-- The well-formed sequence that starts with byte `a`, given the bytes after it: its character and
the number of continuation bytes. Overlong forms, surrogates and values beyond the last code point
are not well-formed. -/
def sequenceAt (a : UInt8) (rest : Text) : Option (Char × Nat) :=
  if a < 0x80 then some (Char.ofNat a.toNat, 0)
  else if 0xC2 ≤ a && a ≤ 0xDF then
    match rest with
    | b :: _ =>
      if isContinuation b then
        some (Char.ofNat ((a.toNat - 0xC0) * 64 + continuationBits b), 1)
      else none
    | [] => none
  else if 0xE0 ≤ a && a ≤ 0xEF then
    match rest with
    | b :: c :: _ =>
      let low : UInt8 := if a == 0xE0 then 0xA0 else 0x80
      let high : UInt8 := if a == 0xED then 0x9F else 0xBF
      if low ≤ b && b ≤ high && isContinuation c then
        let high := (a.toNat - 0xE0) * 64 + continuationBits b
        some (Char.ofNat (high * 64 + continuationBits c), 2)
      else none
    | _ => none
  else if 0xF0 ≤ a && a ≤ 0xF4 then
    match rest with
    | b :: c :: d :: _ =>
      let low : UInt8 := if a == 0xF0 then 0x90 else 0x80
      let high : UInt8 := if a == 0xF4 then 0x8F else 0xBF
      if low ≤ b && b ≤ high && isContinuation c && isContinuation d then
        some (Char.ofNat ((((a.toNat - 0xF0) * 64 + continuationBits b) * 64
          + continuationBits c) * 64 + continuationBits d), 3)
      else none
    | _ => none
  else none

/-- The pieces of a text whose first `pending` bytes belong to a character already read. -/
def piecesFrom (pending : Nat) : Text → List Piece
  | [] => []
  | a :: rest =>
    match pending with
    | n + 1 => piecesFrom n rest
    | 0 =>
      match sequenceAt a rest with
      | some (c, more) => .char c :: piecesFrom more rest
      | none => .stray a :: piecesFrom 0 rest

/-- The pieces of a text, from left to right. -/
def pieces (t : Text) : List Piece := piecesFrom 0 t

/-- The characters of a text, with the replacement character for each stray byte. -/
def chars (t : Text) : List Char := (pieces t).map Piece.toChar

/-- Writes characters as bytes. -/
def ofChars (cs : List Char) : Text := cs.flatMap String.utf8EncodeChar

end Packwright.Text
