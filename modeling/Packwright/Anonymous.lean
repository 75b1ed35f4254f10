import Packwright.Text.Numeral

/-! # Anonymous functions

Generated functions are named by 32-bit ids. The id space is split in half: one allocator counts up
through the lower half and the other counts down through the upper half, so the two never hand out
the same name.
-/

namespace Packwright

open Text (ascii)

namespace Anonymous

/-- The name of the generated function with a given id: a directory tree with one level for each
byte of the id, most significant first. -/
def name (id : UInt32) : Text :=
  Text.join [Text.slash]
    (ascii "_" :: [24, 16, 8, 0].map fun shift => Text.hex 2 ((id.toNat >>> shift) % 256))

end Anonymous

/-- The way an allocator counts. -/
inductive Direction where
  | ascending
  | descending
  deriving DecidableEq, Repr

/-- The next id in a direction, around the end of the id space if need be. -/
def Direction.step : Direction → UInt32 → UInt32
  | .ascending, id => id + 1
  | .descending, id => id - 1

/-- How many steps lead from one id to another. -/
def Direction.distance : Direction → (start finish : UInt32) → Nat
  | .ascending, start, finish => (finish - start).toNat
  | .descending, start, finish => (start - finish).toNat

/-- A source of unused ids. `next` is the id handed out next; it stays at `last` once the half is
used up. -/
structure Allocator where
  direction : Direction
  next : UInt32
  last : UInt32
  exhausted : Bool := false
  deriving DecidableEq, Repr

namespace Allocator

/-- Counts up from the bottom of the lower half. -/
def ascending : Allocator := ⟨.ascending, 0, 0x7FFFFFFF, false⟩

/-- Counts down from the top of the upper half. -/
def descending : Allocator := ⟨.descending, 0xFFFFFFFF, 0x80000000, false⟩

/-- Hands out the next name, or none once the ids are used up. -/
def draw (a : Allocator) : Option (Text × Allocator) :=
  if a.exhausted then none
  else if a.next = a.last then some (Anonymous.name a.next, { a with exhausted := true })
  else some (Anonymous.name a.next, { a with next := a.direction.step a.next })

/-- The number of names that can still be drawn. -/
def remaining (a : Allocator) : Nat :=
  if a.exhausted then 0 else a.direction.distance a.next a.last + 1

/-- Every name drawn uses up one of the ids that remain. -/
theorem remaining_draw {a b : Allocator} {name : Text} (h : a.draw = some (name, b)) :
    b.remaining + 1 = a.remaining := by
  unfold draw at h
  split at h
  next => cases h
  next hfresh =>
    split at h
    next hlast =>
      cases h
      simp only [remaining, hfresh, hlast]
      cases a.direction <;> simp [Direction.distance]
    next hlast =>
      cases h
      have hne : a.next.toNat ≠ a.last.toNat := fun heq => hlast (UInt32.toNat_inj.mp heq)
      have hnext := a.next.toNat_lt
      have hend := a.last.toNat_lt
      simp only [remaining, hfresh]
      cases a.direction with
      | ascending =>
        simp only [Direction.distance, Direction.step, Bool.false_eq_true, if_false,
          UInt32.toNat_sub, UInt32.toNat_add, UInt32.reduceToNat]
        omega
      | descending =>
        simp only [Direction.distance, Direction.step, Bool.false_eq_true, if_false,
          UInt32.toNat_sub, UInt32.reduceToNat]
        omega

end Allocator

end Packwright
