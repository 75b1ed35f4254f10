import Packwright.Text.Numeral
import Packwright.Text.Piece
import Packwright.Text.Printable

/-! # Quoted text

Messages show names and characters in quotes. Printable characters stand for themselves, the quote
in use and the backslash are escaped by a backslash, and everything else has an escape that shows
its code point or, for a stray byte, its value.
-/

namespace Packwright.Text

/-- The letter of the short escape of a control character. -/
def shortEscape? (c : Char) : Option Char :=
  match c.toNat with
  | 7 => some 'a'
  | 8 => some 'b'
  | 9 => some 't'
  | 10 => some 'n'
  | 11 => some 'v'
  | 12 => some 'f'
  | 13 => some 'r'
  | _ => none

/-- A character inside quotes of kind `quote`. -/
def quotedChar (quote c : Char) : Text :=
  if c = quote || c = '\\' then ascii "\\" ++ ofChars [c]
  else if isPrintable c then ofChars [c]
  else
    match shortEscape? c with
    | some letter => ascii "\\" ++ ofChars [letter]
    | none =>
      if c.toNat < 0x80 then ascii "\\x" ++ hex 2 c.toNat
      else if c.toNat < 0x10000 then ascii "\\u" ++ hex 4 c.toNat
      else ascii "\\U" ++ hex 8 c.toNat

/-- A piece inside quotes of kind `quote`. -/
def quotedPiece (quote : Char) : Piece → Text
  | .char c => quotedChar quote c
  | .stray b => ascii "\\x" ++ hex 2 b.toNat

/-- Text in double quotes. -/
def quote (t : Text) : Text :=
  ascii "\"" ++ (pieces t).flatMap (quotedPiece '"') ++ ascii "\""

/-- A character in single quotes. -/
def quoteChar (c : Char) : Text :=
  ascii "'" ++ quotedChar (Char.ofNat 39) c ++ ascii "'"

end Packwright.Text
