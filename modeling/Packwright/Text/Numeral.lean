import Packwright.Text.Basic

/-! # Numerals

Counts are written in decimal, byte values and code points in lower-case hexadecimal of a fixed
width.
-/

namespace Packwright.Text

/-- The decimal numeral of a number. -/
def decimal (n : Nat) : Text := (Nat.toDigits 10 n).map Char.toUInt8

/-- One lower-case hexadecimal digit, for a value below sixteen. -/
def hexDigit (n : Nat) : UInt8 := if n < 10 then (48 + n).toUInt8 else (87 + n).toUInt8

/-- The last `width` hexadecimal digits of a number, most significant first. -/
def hex : (width : Nat) → Nat → Text
  | 0, _ => []
  | width + 1, n => hex width (n / 16) ++ [hexDigit (n % 16)]

/-- Truth values read `true` and `false`. -/
def ofBool (b : Bool) : Text := if b then ascii "true" else ascii "false"

end Packwright.Text
