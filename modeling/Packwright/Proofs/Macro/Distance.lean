import Mathlib.Data.List.Basic
import Mathlib.Order.Bounds.Basic
import Mathlib.Order.MinMax
import Packwright.Macro.Suggestion

/-! # Distances between words

The table of distances is filled row by row and never looked at again. Its last entry is the least
number of edits, insertions, deletions and replacements of single characters at any place, that turn
one word into the other (`isLeast_editDistance`). The recursion behind the table works from the ends
of the words, so it is stated on reversed words (`distance`).
-/

namespace Packwright.Macro

/-! ## The recursion behind the table -/

/-- The distance between two words that are given from their ends. -/
def distance : List Char → List Char → Nat
  | [], t => t.length
  | s, [] => s.length
  | c :: s, d :: t =>
    if c = d then distance s t
    else min (min (distance (c :: s) t) (distance s (d :: t))) (distance s t) + 1

theorem distance_nil_left (t : List Char) : distance [] t = t.length := by
  rw [distance]

theorem distance_nil_right (s : List Char) : distance s [] = s.length := by
  cases s <;> simp [distance]

theorem distance_cons_self (c : Char) (s t : List Char) :
    distance (c :: s) (c :: t) = distance s t := by
  rw [distance, if_pos rfl]

theorem distance_cons_of_ne {c d : Char} (h : c ≠ d) (s t : List Char) :
    distance (c :: s) (d :: t) =
      min (min (distance (c :: s) t) (distance s (d :: t))) (distance s t) + 1 := by
  rw [distance, if_neg h]

/-- The row of distances to the beginnings of a word, from the one on whose reverse is `passed`. -/
def rowFrom (s passed : List Char) : List Char → List Nat
  | [] => [distance s passed]
  | d :: t => distance s passed :: rowFrom s (d :: passed) t

theorem rowFrom_nil (passed t : List Char) :
    rowFrom [] passed t = List.range' passed.length (t.length + 1) := by
  induction t generalizing passed with
  | nil => rw [rowFrom, distance_nil_left, List.length_nil, List.range'_one]
  | cons d t ih =>
      rw [rowFrom, ih (d :: passed), distance_nil_left]
      exact List.range'_succ.symm

/-- One row is computed from the row before. -/
theorem distanceRow_eq (c : Char) (s passed t : List Char) :
    distance (c :: s) passed :: distanceRow c (distance (c :: s) passed) (distance s passed) t
        ((rowFrom s passed t).drop 1) =
      rowFrom (c :: s) passed t := by
  induction t generalizing passed with
  | nil => rfl
  | cons d t ih =>
      have hentry : distance (c :: s) (d :: passed) = if c = d then distance s passed else
          min (min (distance (c :: s) passed) (distance s (d :: passed))) (distance s passed) + 1 := by
        rw [distance]
      have hrow : (rowFrom s passed (d :: t)).drop 1 =
          distance s (d :: passed) :: (rowFrom s (d :: passed) t).drop 1 := by
        cases t <;> rfl
      rw [hrow, distanceRow, ← hentry, ih (d :: passed), rowFrom]

theorem distanceRows_eq (t s word : List Char) :
    distanceRows t s.length (rowFrom s [] t) word = rowFrom (word.reverse ++ s) [] t := by
  induction word generalizing s with
  | nil => rfl
  | cons c word ih =>
      have hrow := distanceRow_eq c s [] t
      rw [distance_nil_right, distance_nil_right, List.length_cons] at hrow
      rw [distanceRows, hrow]
      have hnext := ih (c :: s)
      rw [List.length_cons] at hnext
      rw [hnext, List.reverse_cons, List.append_assoc, List.singleton_append]

theorem getLast?_rowFrom (s passed t : List Char) :
    (rowFrom s passed t).getLast? = some (distance s (t.reverse ++ passed)) := by
  induction t generalizing passed with
  | nil => rfl
  | cons d t ih =>
      rw [rowFrom, List.getLast?_cons, ih, List.reverse_cons, List.append_assoc]
      rfl

/-- The table computes the recursion. -/
theorem editDistance_eq (s t : List Char) :
    editDistance s t = distance s.reverse t.reverse := by
  have hfirst : List.range (t.length + 1) = rowFrom [] [] t := by
    rw [rowFrom_nil, List.range_eq_range']
    rfl
  have hrows := distanceRows_eq t [] s
  rw [List.length_nil, List.append_nil] at hrows
  rw [editDistance, hfirst, hrows, getLast?_rowFrom, List.append_nil]
  rfl

/-! ## Edits -/

/-- One edit of a word: a character is inserted, deleted or replaced, at any place. -/
inductive Edit : List Char → List Char → Prop where
  | insert (x : List Char) (c : Char) (y : List Char) : Edit (x ++ y) (x ++ c :: y)
  | delete (x : List Char) (c : Char) (y : List Char) : Edit (x ++ c :: y) (x ++ y)
  | replace (x : List Char) (c d : Char) (y : List Char) : Edit (x ++ c :: y) (x ++ d :: y)

/-- A word becomes another one by so many edits. -/
inductive Edits : Nat → List Char → List Char → Prop where
  | done (s : List Char) : Edits 0 s s
  | step {n : Nat} {s t u : List Char} (hedit : Edit s t) (h : Edits n t u) : Edits (n + 1) s u

theorem Edit.behind (c : Char) {s t : List Char} (h : Edit s t) : Edit (c :: s) (c :: t) := by
  cases h with
  | insert x d y => exact .insert (c :: x) d y
  | delete x d y => exact .delete (c :: x) d y
  | replace x d e y => exact .replace (c :: x) d e y

theorem Edit.reverse {s t : List Char} (h : Edit s t) : Edit s.reverse t.reverse := by
  cases h with
  | insert x c y => simpa using Edit.insert y.reverse c x.reverse
  | delete x c y => simpa using Edit.delete y.reverse c x.reverse
  | replace x c d y => simpa using Edit.replace y.reverse c d x.reverse

namespace Edits

variable {n : Nat} {s t u : List Char}

theorem behind (c : Char) (h : Edits n s t) : Edits n (c :: s) (c :: t) := by
  induction h with
  | done s => exact .done (c :: s)
  | step hedit _ ih => exact .step (hedit.behind c) ih

theorem concat (h : Edits n s t) (hedit : Edit t u) : Edits (n + 1) s u := by
  induction h with
  | done s => exact .step hedit (.done u)
  | step hfirst _ ih => exact .step hfirst (ih hedit)

theorem reverse (h : Edits n s t) : Edits n s.reverse t.reverse := by
  induction h with
  | done s => exact .done s.reverse
  | step hedit _ ih => exact .step hedit.reverse ih

end Edits

/-- As many edits as the distance are enough. -/
theorem edits_distance (s t : List Char) : Edits (distance s t) s t := by
  induction s generalizing t with
  | nil =>
      rw [distance_nil_left]
      induction t with
      | nil => exact .done []
      | cons d t ih => exact ih.concat (.insert [] d t)
  | cons c s ih =>
      induction t with
      | nil =>
          have hrest := ih []
          rw [distance_nil_right] at hrest ⊢
          exact .step (.delete [] c s) hrest
      | cons d t iht =>
          by_cases hcd : c = d
          · rw [hcd, distance_cons_self]
            exact (ih t).behind d
          · rw [distance_cons_of_ne hcd]
            rcases min_choice (min (distance (c :: s) t) (distance s (d :: t))) (distance s t) with
              hmin | hmin
            · rw [hmin]
              rcases min_choice (distance (c :: s) t) (distance s (d :: t)) with hmin | hmin
              · rw [hmin]
                exact iht.concat (.insert [] d t)
              · rw [hmin]
                exact .step (.delete [] c s) (ih (d :: t))
            · rw [hmin]
              exact .step (.replace [] c d s) ((ih t).behind d)

/-! ## No fewer edits are enough -/

/-- One more character at the front of either word changes the distance by one at most. -/
structure Near (s t : List Char) : Prop where
  left (c : Char) : distance (c :: s) t ≤ distance s t + 1 ∧ distance s t ≤ distance (c :: s) t + 1
  right (d : Char) : distance s (d :: t) ≤ distance s t + 1 ∧ distance s t ≤ distance s (d :: t) + 1

namespace Near

variable {s t : List Char}

theorem left_cons (h : Near s t) (c d : Char) :
    distance (c :: s) (d :: t) ≤ distance s (d :: t) + 1 ∧
      distance s (d :: t) ≤ distance (c :: s) (d :: t) + 1 := by
  obtain ⟨hleft, hleft'⟩ := h.left c
  obtain ⟨hright, hright'⟩ := h.right d
  by_cases hcd : c = d
  · subst hcd
    rw [distance_cons_self]
    exact ⟨hright', hright⟩
  · rw [distance_cons_of_ne hcd]
    omega

theorem right_cons (h : Near s t) (c d : Char) :
    distance (c :: s) (d :: t) ≤ distance (c :: s) t + 1 ∧
      distance (c :: s) t ≤ distance (c :: s) (d :: t) + 1 := by
  obtain ⟨hleft, hleft'⟩ := h.left c
  obtain ⟨hright, hright'⟩ := h.right d
  by_cases hcd : c = d
  · subst hcd
    rw [distance_cons_self]
    exact ⟨hleft', hleft⟩
  · rw [distance_cons_of_ne hcd]
    omega

theorem left_nil (s : List Char) (c : Char) :
    distance (c :: s) [] ≤ distance s [] + 1 ∧ distance s [] ≤ distance (c :: s) [] + 1 := by
  rw [distance_nil_right, distance_nil_right, List.length_cons]
  omega

theorem right_nil (t : List Char) (d : Char) :
    distance [] (d :: t) ≤ distance [] t + 1 ∧ distance [] t ≤ distance [] (d :: t) + 1 := by
  rw [distance_nil_left, distance_nil_left, List.length_cons]
  omega

theorem all (s t : List Char) : Near s t := by
  induction s generalizing t with
  | nil =>
      induction t with
      | nil => exact ⟨left_nil [], right_nil []⟩
      | cons d t ih => exact ⟨fun c => ih.left_cons c d, right_nil (d :: t)⟩
  | cons c s ih =>
      induction t with
      | nil => exact ⟨left_nil (c :: s), (ih []).right_cons c⟩
      | cons d t iht => exact ⟨fun c' => iht.left_cons c' d, (ih (d :: t)).right_cons c⟩

end Near

theorem distance_replace_le (c d : Char) (s t : List Char) :
    distance (c :: s) t ≤ distance (d :: s) t + 1 := by
  induction t with
  | nil =>
      rw [distance_nil_right, distance_nil_right]
      exact Nat.le_succ _
  | cons e t ih =>
      have hleft := ((Near.all s t).left_cons c e).1
      have hright := ((Near.all s t).right_cons c e).1
      have hdiagonal : distance (c :: s) (e :: t) ≤ distance s t + 1 := by
        by_cases hce : c = e
        · subst hce
          rw [distance_cons_self]
          exact Nat.le_succ _
        · rw [distance_cons_of_ne hce]
          omega
      by_cases hde : d = e
      · subst hde
        rw [distance_cons_self]
        exact hdiagonal
      · rw [distance_cons_of_ne hde]
        omega

theorem distance_behind_le {y y' : List Char} (h : ∀ t, distance y t ≤ distance y' t + 1)
    (x t : List Char) : distance (x ++ y) t ≤ distance (x ++ y') t + 1 := by
  induction x generalizing t with
  | nil => exact h t
  | cons a x ih =>
      rw [List.cons_append, List.cons_append]
      induction t with
      | nil =>
          have hrest := ih []
          rw [distance_nil_right, distance_nil_right] at hrest ⊢
          exact Nat.succ_le_succ hrest
      | cons d t iht =>
          have habove := ih (d :: t)
          have hdiagonal := ih t
          by_cases had : a = d
          · subst had
            rw [distance_cons_self, distance_cons_self]
            exact hdiagonal
          · rw [distance_cons_of_ne had, distance_cons_of_ne had]
            omega

/-- One edit changes the distance by one at most. -/
theorem distance_le_of_edit {s s' : List Char} (h : Edit s s') (t : List Char) :
    distance s t ≤ distance s' t + 1 := by
  cases h with
  | insert x c y => exact distance_behind_le (fun t => ((Near.all y t).left c).2) x t
  | delete x c y => exact distance_behind_le (fun t => ((Near.all y t).left c).1) x t
  | replace x c d y => exact distance_behind_le (distance_replace_le c d y) x t

theorem distance_self (s : List Char) : distance s s = 0 := by
  induction s with
  | nil => exact distance_nil_left []
  | cons c s ih => rw [distance_cons_self, ih]

theorem distance_le_of_edits {n : Nat} {s t : List Char} (h : Edits n s t) : distance s t ≤ n := by
  induction h with
  | done s => rw [distance_self]
  | step hedit _ ih => exact (distance_le_of_edit hedit _).trans (Nat.succ_le_succ ih)

/-- The distance of two words is the least number of edits that turn one into the other. -/
theorem isLeast_editDistance (s t : List Char) : IsLeast {n | Edits n s t} (editDistance s t) := by
  rw [editDistance_eq]
  constructor
  · have hedits := (edits_distance s.reverse t.reverse).reverse
    rwa [List.reverse_reverse, List.reverse_reverse] at hedits
  · intro n hn
    exact distance_le_of_edits (Edits.reverse hn)

theorem editDistance_eq_zero_iff {s t : List Char} : editDistance s t = 0 ↔ s = t := by
  constructor
  · intro h
    have hedits := (isLeast_editDistance s t).1
    rw [h] at hedits
    cases hedits
    rfl
  · rintro rfl
    exact Nat.le_zero.mp ((isLeast_editDistance s s).2 (Edits.done s))

end Packwright.Macro
