import Packwright.Text.Quoted

/-! # Names

Packs, namespaces and functions are addressed by names over a small character set: lower-case
letters, digits, underscore and hyphen. A function name may also be a path, with single slashes
between non-empty segments.
-/

namespace Packwright

open Text (ascii)

/-- What a name belongs to: a pack, a namespace, a function or something else. Only function names
may hold slashes. -/
inductive NameKind where
  | pack
  | space
  | function
  | other (label : Text)
  deriving DecidableEq, Repr

/-- The word for a kind of name. -/
def NameKind.label : NameKind → Text
  | .pack => ascii "datapack"
  | .space => ascii "namespace"
  | .function => ascii "function"
  | .other label => label

/-- The characters of a kind of name, as a message lists them. -/
def NameKind.alphabet : NameKind → Text
  | .function => ascii "a-z 0-9 _ - /"
  | _ => ascii "a-z 0-9 _ -"

/-- A refused name. `char` is the offending character, absent when the name is empty. -/
structure NameError where
  kind : NameKind
  name : Text
  char : Option Char
  deriving DecidableEq, Repr

/-- The wording of a refusal. A name whose offending character is NUL reads as an empty one. -/
def NameError.message (e : NameError) : Text :=
  ascii "invalid " ++ e.kind.label ++ ascii " name " ++ Text.quote e.name ++
    match e.char with
    | none | some '\x00' => ascii ": name is empty"
    | some c =>
      ascii ": character " ++ Text.quoteChar c ++ ascii " not allowed (use " ++ e.kind.alphabet
        ++ ascii ")"

namespace Name

/-- The characters every kind of name may hold. -/
def isNameChar (c : Char) : Bool :=
  ('a' ≤ c && c ≤ 'z') || ('0' ≤ c && c ≤ '9') || c == '_' || c == '-'

/-- The characters a kind of name may hold. -/
def allows (kind : NameKind) (c : Char) : Bool := isNameChar c || (kind == .function && c == '/')

/-- Whether slashes stand where they separate nothing: at an end, or two in a row. -/
def misplacedSlash (name : Text) : Bool :=
  name.head? == some Text.slash || name.getLast? == some Text.slash
    || Text.occursIn [Text.slash, Text.slash] name

/-- Checks a name against the rules of its kind. The first character outside the kind's set is
reported before a misplaced slash. -/
def validate (kind : NameKind) (name : Text) : Except NameError Unit :=
  if name.isEmpty then .error ⟨kind, name, none⟩
  else
    match (Text.chars name).find? fun c => !allows kind c with
    | some c => .error ⟨kind, name, some c⟩
    | none =>
      if kind == .function && misplacedSlash name then .error ⟨kind, name, some '/'⟩ else .ok ()

end Name

end Packwright
