import Packwright.Text.CaseFold

/-! # Suggestions for misspelt macros

A called name that no definition has is answered with the name most likely meant. A defined name
that holds the letters of the called one in order, whatever their case, comes first; failing that, a
name a small edit distance away.
-/

namespace Packwright.Macro

/-- The next row of the distance table: `diagonal` and `above` come from the row before, `left` is
the entry just computed. -/
def distanceRow (c : Char) (left diagonal : Nat) : List Char → List Nat → List Nat
  | t :: ts, above :: row =>
    let entry := if c = t then diagonal else min (min left above) diagonal + 1
    entry :: distanceRow c entry above ts row
  | _, _ => []

/-- The table of distances between the beginnings of two words, one row after the other. Row `i`
holds the distances of the first `i` characters of one word to the beginnings of the other. -/
def distanceRows (target : List Char) : (i : Nat) → (row : List Nat) → List Char → List Nat
  | _, row, [] => row
  | i, row, c :: cs =>
    distanceRows target (i + 1) ((i + 1) :: distanceRow c (i + 1) i target (row.drop 1)) cs

/-- The number of insertions, deletions and replacements of single characters that turn one word
into another. -/
def editDistance (source target : List Char) : Nat :=
  (distanceRows target 0 (List.range (target.length + 1)) source).getLast?.getD 0

/-- Whether a defined name holds the letters of the called one in order, whatever their case, and is
not shorter in bytes once both are in lower case. -/
def resembles (called defined : Text) : Bool :=
  (Text.fold called).length ≤ (Text.fold defined).length
    && (Text.chars (Text.fold called)).isSublist (Text.chars (Text.fold defined))

/-- The distance between two names, in characters. -/
def nameDistance (called defined : Text) : Nat :=
  editDistance (Text.chars called) (Text.chars defined)

/-- The first of the candidates with the smallest score. -/
def firstLeast (score : Text → Nat) : List Text → Option Text
  | [] => none
  | t :: ts =>
    match firstLeast score ts with
    | none => some t
    | some best => if score best < score t then some best else some t

/-- The largest distance at which a defined name may be a misspelling. Short names leave less
room. -/
def tolerance (called defined : Text) : Nat :=
  if min called.length defined.length ≤ 4 then 1 else 2

/-- Whether a defined name may be what a misspelt one stands for. -/
def isNear (called defined : Text) : Bool :=
  0 < nameDistance called defined && nameDistance called defined ≤ tolerance called defined

/-- The defined name most likely meant by a called one, if any is likely enough. -/
def suggestion (called : Text) (defined : List Text) : Option Text :=
  match firstLeast (nameDistance called) (defined.filter (resembles called)) with
  | some best => some best
  | none => firstLeast (nameDistance called) (defined.filter (isNear called))

end Packwright.Macro
