import Packwright.Pack
import Packwright.Text.Line
import Packwright.Text.Numeral

/-! # The description of a pack

A pack is described by a JSON file that names the pack format and a free text. Markup characters and
the two Unicode line separators are escaped as well as what JSON demands, and a stray byte is
written as the replacement character.
-/

namespace Packwright.Pack

open Text (ascii)

/-- A character inside a JSON string. -/
def jsonChar (c : Char) : Text :=
  match c with
  | '"' => ascii "\\\""
  | '\\' => ascii "\\\\"
  | '\n' => ascii "\\n"
  | '\r' => ascii "\\r"
  | '\t' => ascii "\\t"
  | c =>
    if c.toNat = 8 then ascii "\\b"
    else if c.toNat = 12 then ascii "\\f"
    else if c.toNat < 0x20 || c == '<' || c == '>' || c == '&' || c.toNat = 0x2028
        || c.toNat = 0x2029 then
      ascii "\\u" ++ Text.hex 4 c.toNat
    else Text.ofChars [c]

/-- A JSON string. -/
def jsonString (t : Text) : Text := ascii "\"" ++ (Text.chars t).flatMap jsonChar ++ ascii "\""

/-- The content of the file that describes a pack. -/
def metaContent (p : Pack) : Text :=
  Text.unlines [
    ascii "\x7b",
    ascii "  \"pack\": \x7b",
    ascii "    \"pack_format\": " ++ Text.decimal p.release.packFormat ++ ascii ",",
    ascii "    \"description\": " ++ jsonString p.description,
    ascii "  \x7d",
    ascii "\x7d",
    []]

end Packwright.Pack
