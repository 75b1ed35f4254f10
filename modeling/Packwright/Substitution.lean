import Packwright.Digest.Base32
import Packwright.Digest.Sha256
import Packwright.Scope

/-! # Reserved tokens

Before a function is finished, four kinds of token in it turn into plain command text:

```text
$this        the reference of the function itself
$namespace   the name of its namespace
#[value]     a short identifier made from the value
name@board   name board
```

The kinds are replaced in this order, each in one pass from left to right.
-/

namespace Packwright.Substitution

open Text (ascii)

/-- The bytes of a name on a scoreboard. -/
def isScoreByte (b : UInt8) : Bool :=
  (97 ≤ b && b ≤ 122) || (48 ≤ b && b ≤ 57) || b == 45 || b == 95

/-- The bytes of a hashed value: those of a score name and the dot. -/
def isValueByte (b : UInt8) : Bool := isScoreByte b || b == 46

/-- A short identifier made from a value: the first sixteen base32 digits of its digest. It is valid
as a scoreboard objective, tag or storage key. -/
def contentHash (value : Text) : Text := (Base32.encode (Sha256.digest value)).take 16

/-- A text that starts with `#[value]`: how far the token reaches past its first byte, and the
identifier. -/
def hashToken? : Text → Option (Nat × Text)
  | 35 :: 91 :: rest =>
    let value := rest.takeWhile isValueByte
    if !value.isEmpty && (rest.drop value.length).head? == some 93 then
      some (value.length + 2, contentHash value)
    else none
  | _ => none

/-- Where a byte stands with respect to score names: outside of any, in a name that a board may
follow, or in a board. -/
inductive ScorePosition where
  | outside
  | name
  | board
  deriving DecidableEq, Repr

/-- The position after a byte of a score name. -/
def ScorePosition.next : ScorePosition → ScorePosition
  | .board => .board
  | _ => .name

/-- Replaces every `name@board` in a text that starts at the given position. A board ends its token,
so it is not the name of a further one. -/
def replaceScoresFrom (position : ScorePosition) : Text → Text
  | [] => []
  | b :: rest =>
    if isScoreByte b then b :: replaceScoresFrom position.next rest
    else if b == 64 && position == .name && (rest.head?.map isScoreByte).getD false then
      Text.space :: replaceScoresFrom .board rest
    else b :: replaceScoresFrom .outside rest

/-- Replaces every `#[value]`. -/
def replaceHashes (t : Text) : Text := Text.replaceMatches hashToken? 0 t

/-- Replaces every `name@board`. -/
def replaceScores (t : Text) : Text := replaceScoresFrom .outside t

/-- The content of a scope with its reserved tokens replaced. -/
def apply (s : Scope) : Text :=
  replaceScores <| replaceHashes <|
    Text.replaceAll (ascii "$namespace") s.ns.name <|
      Text.replaceAll (ascii "$this") s.reference s.content

end Packwright.Substitution
