import Packwright.Text.Basic

/-! # SHA-256

The message is padded to a whole number of 64-byte blocks, and the blocks are folded one after the
other into a state of eight 32-bit words. The digest is the final state, most significant byte of
each word first.
-/

namespace Packwright.Sha256

/-- The constants of the sixty-four rounds. -/
def roundConstants : List UInt32 :=
  [0x428a2f98, 0x71374491, 0xb5c0fbcf, 0xe9b5dba5, 0x3956c25b, 0x59f111f1, 0x923f82a4, 0xab1c5ed5,
   0xd807aa98, 0x12835b01, 0x243185be, 0x550c7dc3, 0x72be5d74, 0x80deb1fe, 0x9bdc06a7, 0xc19bf174,
   0xe49b69c1, 0xefbe4786, 0x0fc19dc6, 0x240ca1cc, 0x2de92c6f, 0x4a7484aa, 0x5cb0a9dc, 0x76f988da,
   0x983e5152, 0xa831c66d, 0xb00327c8, 0xbf597fc7, 0xc6e00bf3, 0xd5a79147, 0x06ca6351, 0x14292967,
   0x27b70a85, 0x2e1b2138, 0x4d2c6dfc, 0x53380d13, 0x650a7354, 0x766a0abb, 0x81c2c92e, 0x92722c85,
   0xa2bfe8a1, 0xa81a664b, 0xc24b8b70, 0xc76c51a3, 0xd192e819, 0xd6990624, 0xf40e3585, 0x106aa070,
   0x19a4c116, 0x1e376c08, 0x2748774c, 0x34b0bcb5, 0x391c0cb3, 0x4ed8aa4a, 0x5b9cca4f, 0x682e6ff3,
   0x748f82ee, 0x78a5636f, 0x84c87814, 0x8cc70208, 0x90befffa, 0xa4506ceb, 0xbef9a3f7, 0xc67178f2]

/-- The state before the first block. -/
def initialState : List UInt32 :=
  [0x6a09e667, 0xbb67ae85, 0x3c6ef372, 0xa54ff53a, 0x510e527f, 0x9b05688c, 0x1f83d9ab, 0x5be0cd19]

/-- Rotates a word to the right. -/
def rotate (x : UInt32) (n : UInt32) : UInt32 := (x >>> n) ||| (x <<< (32 - n))

/-- The message with its padding: one set bit, zeros, and the length in bits as eight bytes. -/
def pad (message : Text) : Text :=
  let zeros := (119 - message.length % 64) % 64
  let bits := message.length * 8
  message ++ [(0x80 : UInt8)] ++ List.replicate zeros (0 : UInt8)
    ++ ([56, 48, 40, 32, 24, 16, 8, 0].map fun shift => (bits >>> shift).toUInt8)

/-- Reads bytes as big-endian words. -/
def words : Text → List UInt32
  | a :: b :: c :: d :: rest =>
    ((a.toUInt32 <<< 24) ||| (b.toUInt32 <<< 16) ||| (c.toUInt32 <<< 8) ||| d.toUInt32)
      :: words rest
  | _ => []

/-- Appends `n` words to a schedule of at least sixteen words, each one made from four earlier
ones. -/
def extend : (n : Nat) → List UInt32 → List UInt32
  | 0, ws => ws
  | n + 1, ws =>
    let back (k : Nat) := ws.getD (ws.length - k) 0
    let s0 := rotate (back 15) 7 ^^^ rotate (back 15) 18 ^^^ (back 15 >>> 3)
    let s1 := rotate (back 2) 17 ^^^ rotate (back 2) 19 ^^^ (back 2 >>> 10)
    extend n (ws ++ [back 16 + s0 + back 7 + s1])

/-- One round, with its constant and schedule word. -/
def round (state : List UInt32) (constantAndWord : UInt32 × UInt32) : List UInt32 :=
  match state with
  | [a, b, c, d, e, f, g, h] =>
    let s1 := rotate e 6 ^^^ rotate e 11 ^^^ rotate e 25
    let choice := (e &&& f) ^^^ (~~~e &&& g)
    let t1 := h + s1 + choice + constantAndWord.1 + constantAndWord.2
    let s0 := rotate a 2 ^^^ rotate a 13 ^^^ rotate a 22
    let majority := (a &&& b) ^^^ (a &&& c) ^^^ (b &&& c)
    [t1 + s0 + majority, a, b, c, d + t1, e, f, g]
  | _ => state

/-- Folds one block of sixteen words into the state. -/
def compress (state block : List UInt32) : List UInt32 :=
  let final := (roundConstants.zip (extend 48 block)).foldl round state
  List.zipWith (· + ·) state final

/-- Cuts `n` blocks of sixteen words off a list of words. -/
def blocks : (n : Nat) → List UInt32 → List (List UInt32)
  | 0, _ => []
  | n + 1, ws => ws.take 16 :: blocks n (ws.drop 16)

/-- The bytes of a word, most significant first. -/
def wordBytes (w : UInt32) : Text :=
  [(24 : UInt32), 16, 8, 0].map fun shift => (w >>> shift).toUInt8

/-- The digest of a message, thirty-two bytes. -/
def digest (message : Text) : Text :=
  let ws := words (pad message)
  ((blocks (ws.length / 16) ws).foldl compress initialState).flatMap wordBytes

end Packwright.Sha256
