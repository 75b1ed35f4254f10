/-! # Text as bytes

Source functions, names and paths are byte strings. Most rules look at single bytes, so text is a
list of bytes and need not be well-formed UTF-8; the rules about characters read it as pieces first.
-/

namespace Packwright

/-- A byte string. -/
abbrev Text := List UInt8

namespace Text

/-- The bytes of an ASCII literal. -/
def ascii (s : String) : Text := s.toList.map Char.toUInt8

/-- The byte that ends a line. -/
abbrev newline : UInt8 := 10

/-- The byte that may stand before the end of a line. -/
abbrev carriageReturn : UInt8 := 13

/-- The byte that indents a line by one level. -/
abbrev tab : UInt8 := 9

/-- The byte between the words of a line. -/
abbrev space : UInt8 := 32

/-- The byte between the elements of a path. -/
abbrev slash : UInt8 := 47

/-- Blanks delimit words inside a line: the space and the tab. -/
def isBlank (b : UInt8) : Bool := b == space || b == tab

/-- Word bytes are the ASCII letters, the digits and the underscore. -/
def isWord (b : UInt8) : Bool :=
  b == 95 || (97 ≤ b && b ≤ 122) || (65 ≤ b && b ≤ 90) || (48 ≤ b && b ≤ 57)

/-- Joins parts with a separator between them. -/
def join (separator : Text) (parts : List Text) : Text := separator.intercalate parts

/-- Removes one trailing `b`, if there is one. -/
def chop (b : UInt8) (t : Text) : Text := if t.getLast? = some b then t.dropLast else t

/-- Whether `needle` occurs somewhere in the text. -/
def occursIn (needle : Text) : Text → Bool
  | [] => needle.isEmpty
  | b :: rest => needle.isPrefixOf (b :: rest) || occursIn needle rest

/-- Replaces matches from left to right without overlap. `match?` looks at the text from a position
on and answers with the number of bytes that follow the first one of the match and with what is
written in its place; `pending` counts the bytes of the current match that are still to pass. -/
def replaceMatches (match? : Text → Option (Nat × Text)) (pending : Nat) : Text → Text
  | [] => []
  | b :: rest =>
    match pending with
    | n + 1 => replaceMatches match? n rest
    | 0 =>
      match match? (b :: rest) with
      | some (more, replacement) => replacement ++ replaceMatches match? more rest
      | none => b :: replaceMatches match? 0 rest

/-- Replaces every occurrence of a non-empty `old`, from left to right without overlap. -/
def replaceAll (old new : Text) : Text → Text :=
  replaceMatches (fun t => if old.isPrefixOf t then some (old.length - 1, new) else none) 0

/-- The order of byte strings: the first byte that differs decides, and a proper beginning of a
text stands before it. -/
def le : Text → Text → Bool
  | [], _ => true
  | _ :: _, [] => false
  | a :: as, b :: bs => a < b || (a == b && le as bs)

end Text

end Packwright
