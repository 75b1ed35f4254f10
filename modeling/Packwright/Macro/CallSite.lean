import Packwright.Text.Basic

/-! # Call sites

A line calls a macro when it holds `call` as a word of its own, delimited by blanks or the ends of
the line. The first such word divides the line.
-/

namespace Packwright.Macro

open Text (ascii)

/-- The word that marks a call. -/
def callWord : Text := ascii "call"

/-- A line divided at its call: the text before the keyword, and the macro name and arguments after
it. -/
structure CallSite where
  lead : Text
  payload : Text
  deriving DecidableEq, Repr

/-- Whether a word may end before this text. -/
def endsWord : Text → Bool
  | [] => true
  | b :: _ => Text.isBlank b

/-- Finds the first call in a text. `wordStart` says whether a word may start at its first byte. -/
def CallSite.find? (wordStart : Bool) : Text → Option CallSite
  | [] => none
  | text@(b :: rest) =>
    if wordStart && callWord.isPrefixOf text && endsWord (text.drop callWord.length) then
      some ⟨[], text.drop callWord.length⟩
    else (CallSite.find? (Text.isBlank b) rest).map fun site => { site with lead := b :: site.lead }

/-- Divides a line at its first call, if it holds one. -/
def CallSite.parse? (line : Text) : Option CallSite := CallSite.find? true line

end Packwright.Macro
