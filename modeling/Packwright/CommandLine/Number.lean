import Packwright.Text.Basic

/-! # Reading whole numbers

A number is written in decimal, or after `0b`, `0o`, `0x` or a plain `0` in binary, octal,
hexadecimal or octal again. A sign may stand before it, and single underscores may stand between its
digits. It has to fit a signed 64-bit word.
-/

namespace Packwright.CommandLine

open Text (ascii)

/-- Why a text is no number: it is not written like one, or the number is too large. -/
inductive NumberError where
  | malformed
  | outOfRange
  deriving DecidableEq, Repr

/-- The wording of a refused number. -/
def NumberError.message : NumberError → Text
  | .malformed => ascii "invalid syntax"
  | .outOfRange => ascii "value out of range"

/-- The lower-case form of an ASCII letter. -/
def lowerByte (b : UInt8) : UInt8 := b ||| 0x20

/-- The value of a digit: the letters go on after the nine. -/
def digit? (b : UInt8) : Option Nat :=
  if 48 ≤ b && b ≤ 57 then some (b.toNat - 48)
  else if 97 ≤ lowerByte b && lowerByte b ≤ 122 then some ((lowerByte b).toNat - 87)
  else none

/-- The base of an unsigned number and the digits after the mark of the base. -/
def splitBase : Text → Nat × Text
  | 48 :: b :: c :: rest =>
    if lowerByte b == 98 then (2, c :: rest)
    else if lowerByte b == 111 then (8, c :: rest)
    else if lowerByte b == 120 then (16, c :: rest)
    else (8, b :: c :: rest)
  | 48 :: rest => (8, rest)
  | t => (10, t)

/-- Adds digits to a value, passing over underscores. The first digit that makes the value too large
for 64 bits ends the reading. -/
def readDigits (base : Nat) (value : Nat) : Text → Except NumberError Nat
  | [] => .ok value
  | b :: rest =>
    if b == 95 then readDigits base value rest
    else
      match digit? b with
      | none => .error .malformed
      | some d =>
        if base ≤ d then .error .malformed
        else if UInt64.size ≤ value * base + d then .error .outOfRange
        else readDigits base (value * base + d) rest

/-- Whether every underscore stands between digits. `afterDigit` says whether a digit, or the mark
of a base, stands before the text. -/
def separated (afterDigit : Bool) : Text → Bool
  | [] => afterDigit
  | b :: rest => if b == 95 then afterDigit && separated false rest else separated true rest

/-- Reads an unsigned number. -/
def readUnsigned (t : Text) : Except NumberError Nat := do
  if t.isEmpty then throw .malformed
  let (base, digits) := splitBase t
  let value ← readDigits base 0 digits
  if separated (digits.length < t.length) digits then return value else throw .malformed

/-- Reads a number. -/
def readNumber (t : Text) : Except NumberError Int := do
  let negative := t.head? == some 45
  let signed := negative || t.head? == some 43
  let value ← readUnsigned (if signed then t.drop 1 else t)
  if negative then
    if UInt64.size / 2 < value then throw .outOfRange else return -(value : Int)
  else if UInt64.size / 2 ≤ value then throw .outOfRange
  else return value

end Packwright.CommandLine
