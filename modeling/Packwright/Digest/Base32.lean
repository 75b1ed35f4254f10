import Packwright.Text.Basic

/-! # Base32

Five bytes are written as eight digits of five bits each. A last group of fewer bytes is filled up
with zero bits, and digits that hold none of its bits are written as `=`.
-/

namespace Packwright.Base32

/-- The digit for a five-bit value: the lower-case letters, then `2` to `7`. -/
def digit (n : Nat) : UInt8 := if n < 26 then (97 + n).toUInt8 else (24 + n).toUInt8

/-- The eight digits of a group of five bytes. -/
def group (a b c d e : UInt8) : Text :=
  let n := (((a.toNat * 256 + b.toNat) * 256 + c.toNat) * 256 + d.toNat) * 256 + e.toNat
  [35, 30, 25, 20, 15, 10, 5, 0].map fun shift => digit ((n >>> shift) % 32)

/-- The first `n` digits of a group, filled up to eight with `=`. -/
def padded (n : Nat) (digits : Text) : Text := digits.take n ++ List.replicate (8 - n) 61

/-- The base32 form of a byte string, in lower case. -/
def encode : Text → Text
  | a :: b :: c :: d :: e :: rest => group a b c d e ++ encode rest
  | [a, b, c, d] => padded 7 (group a b c d 0)
  | [a, b, c] => padded 5 (group a b c 0 0)
  | [a, b] => padded 4 (group a b 0 0 0)
  | [a] => padded 2 (group a 0 0 0 0)
  | [] => []

end Packwright.Base32
