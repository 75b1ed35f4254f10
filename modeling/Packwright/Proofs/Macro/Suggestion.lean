import Packwright.Proofs.Macro.Distance

/-! # What is suggested for a misspelt macro

The suggestion is the first of the nearest candidates (`FirstNearest`). The names that hold the
letters of the called one are the candidates if there are any, and only otherwise those at a small
distance. So a name that merely holds the letters is suggested in place of one that is much nearer
(`suggestion_passes_nearer`), and this is the one way in which the suggestion is not a nearest name,
apart from names that read the same as the called one.
-/

namespace Packwright.Macro

open Text (ascii)

/-- The first of the nearest candidates among the defined names: no candidate is nearer, and none
before it is as near. -/
def FirstNearest (called : Text) (candidate : Text → Bool) (defined : List Text) (d : Text) :
    Prop :=
  ∃ before after, defined = before ++ d :: after ∧ candidate d = true ∧
    (∀ r ∈ before, candidate r = true → nameDistance called d < nameDistance called r) ∧
    ∀ r ∈ after, candidate r = true → nameDistance called d ≤ nameDistance called r

section

variable {score : Text → Nat} {ts : List Text} {d : Text}

theorem firstLeast_eq_none_iff : firstLeast score ts = none ↔ ts = [] := by
  cases ts with
  | nil => exact ⟨fun _ => rfl, fun _ => rfl⟩
  | cons t ts =>
      simp only [firstLeast, reduceCtorEq, iff_false]
      split
      next => exact Option.some_ne_none _
      next => split <;> exact Option.some_ne_none _

theorem exists_of_firstLeast (h : firstLeast score ts = some d) :
    ∃ before after, ts = before ++ d :: after ∧ (∀ r ∈ before, score d < score r) ∧
      ∀ r ∈ after, score d ≤ score r := by
  induction ts generalizing d with
  | nil => cases h
  | cons t ts ih =>
      rw [firstLeast] at h
      cases hrest : firstLeast score ts with
      | none =>
          rw [hrest] at h
          cases h
          rw [firstLeast_eq_none_iff.mp hrest]
          exact ⟨[], [], rfl, by simp, by simp⟩
      | some best =>
          obtain ⟨before, after, rfl, hbefore, hafter⟩ := ih hrest
          simp only [hrest] at h
          split at h
          next hless =>
            cases h
            exact ⟨t :: before, after, rfl, List.forall_mem_cons.mpr ⟨hless, hbefore⟩, hafter⟩
          next hless =>
            cases h
            have hbest := Nat.le_of_not_lt hless
            refine ⟨[], before ++ best :: after, rfl, by simp, ?_⟩
            rw [List.forall_mem_append, List.forall_mem_cons]
            exact ⟨fun r hr => hbest.trans (hbefore r hr).le, hbest,
              fun r hr => hbest.trans (hafter r hr)⟩

theorem firstLeast_eq_some_iff :
    firstLeast score ts = some d ↔
      ∃ before after, ts = before ++ d :: after ∧ (∀ r ∈ before, score d < score r) ∧
        ∀ r ∈ after, score d ≤ score r := by
  refine ⟨exists_of_firstLeast, ?_⟩
  rintro ⟨before, after, rfl, hbefore, hafter⟩
  induction before with
  | nil =>
      rw [List.nil_append, firstLeast]
      cases hrest : firstLeast score after with
      | none => rfl
      | some best =>
          obtain ⟨front, back, hafter', -, -⟩ := exists_of_firstLeast hrest
          exact if_neg (Nat.not_lt.mpr (hafter best (by simp [hafter'])))
  | cons t before ih =>
      obtain ⟨hless, hbefore⟩ := List.forall_mem_cons.mp hbefore
      rw [List.cons_append, firstLeast, ih hbefore]
      exact if_pos hless

end

variable {called : Text} {candidate : Text → Bool} {defined : List Text} {d : Text}

theorem firstLeast_filter_eq_some_iff :
    firstLeast (nameDistance called) (defined.filter candidate) = some d ↔
      FirstNearest called candidate defined d := by
  rw [firstLeast_eq_some_iff]
  constructor
  · rintro ⟨front, back, hfilter, hfront, hback⟩
    obtain ⟨before, rest, rfl, rfl, hrest⟩ := List.filter_eq_append_iff.mp hfilter
    obtain ⟨skipped, after, rfl, hskipped, hd, rfl⟩ := List.filter_eq_cons_iff.mp hrest
    refine ⟨before ++ skipped, after, by simp, hd, ?_, ?_⟩
    · intro r hr hcandidate
      rcases List.mem_append.mp hr with hr | hr
      · exact hfront r (List.mem_filter.mpr ⟨hr, hcandidate⟩)
      · exact absurd hcandidate (hskipped r hr)
    · intro r hr hcandidate
      exact hback r (List.mem_filter.mpr ⟨hr, hcandidate⟩)
  · rintro ⟨before, after, rfl, hd, hbefore, hafter⟩
    refine ⟨before.filter candidate, after.filter candidate, ?_, ?_, ?_⟩
    · rw [List.filter_append, List.filter_cons_of_pos hd]
    · intro r hr
      obtain ⟨hr, hcandidate⟩ := List.mem_filter.mp hr
      exact hbefore r hr hcandidate
    · intro r hr
      obtain ⟨hr, hcandidate⟩ := List.mem_filter.mp hr
      exact hafter r hr hcandidate

theorem firstLeast_filter_eq_none_iff (called : Text) :
    firstLeast (nameDistance called) (defined.filter candidate) = none ↔
      ∀ r ∈ defined, candidate r = false := by
  rw [firstLeast_eq_none_iff, List.filter_eq_nil_iff]
  simp only [Bool.not_eq_true]

namespace FirstNearest

theorem mem (h : FirstNearest called candidate defined d) : d ∈ defined := by
  obtain ⟨before, after, rfl, -⟩ := h
  exact List.mem_append_right _ List.mem_cons_self

theorem candidate_eq (h : FirstNearest called candidate defined d) : candidate d = true := by
  obtain ⟨before, after, -, hd, -⟩ := h
  exact hd

/-- No candidate is nearer. -/
theorem not_candidate (h : FirstNearest called candidate defined d) {r : Text} (hr : r ∈ defined)
    (hless : nameDistance called r < nameDistance called d) : candidate r = false := by
  obtain ⟨before, after, rfl, -, hbefore, hafter⟩ := h
  rw [← Bool.not_eq_true]
  intro hcandidate
  rcases List.mem_append.mp hr with hr | hr
  · have := hbefore r hr hcandidate
    omega
  · rcases List.mem_cons.mp hr with rfl | hr
    · exact Nat.lt_irrefl _ hless
    · have := hafter r hr hcandidate
      omega

end FirstNearest

/-- The suggestion is the first of the nearest names that hold the called letters, if there are any,
and else the first of the nearest names at a small distance. -/
theorem suggestion_eq_some_iff :
    suggestion called defined = some d ↔
      FirstNearest called (resembles called) defined d ∨
        (∀ r ∈ defined, resembles called r = false) ∧
          FirstNearest called (isNear called) defined d := by
  rw [← firstLeast_filter_eq_some_iff, ← firstLeast_filter_eq_some_iff,
    ← firstLeast_filter_eq_none_iff called, suggestion]
  cases firstLeast (nameDistance called) (defined.filter (resembles called)) with
  | none => simp
  | some best => simp

theorem suggestion_eq_none_iff :
    suggestion called defined = none ↔
      ∀ r ∈ defined, resembles called r = false ∧ isNear called r = false := by
  have hboth : (∀ r ∈ defined, resembles called r = false ∧ isNear called r = false) ↔
      (∀ r ∈ defined, resembles called r = false) ∧ ∀ r ∈ defined, isNear called r = false :=
    forall₂_and
  rw [hboth, ← firstLeast_filter_eq_none_iff called, ← firstLeast_filter_eq_none_iff called,
    suggestion]
  cases firstLeast (nameDistance called) (defined.filter (resembles called)) with
  | none => simp
  | some best => simp

theorem tolerance_bounds (called r : Text) : 1 ≤ tolerance called r ∧ tolerance called r ≤ 2 := by
  unfold tolerance
  split <;> decide

/-- The allowed distances leave no gap: a name that is nearer than an allowed one is allowed as
well, unless it reads the same as the called one. -/
theorem isNear_of_lt {r : Text} (hd : isNear called d = true)
    (hless : nameDistance called r < nameDistance called d) :
    isNear called r = true ∨ Text.chars r = Text.chars called := by
  have hzero : nameDistance called r = 0 ↔ Text.chars called = Text.chars r :=
    editDistance_eq_zero_iff
  have hboundsOfD := tolerance_bounds called d
  have hboundsOfR := tolerance_bounds called r
  simp only [isNear, Bool.and_eq_true, decide_eq_true_eq] at hd ⊢
  by_cases hsame : nameDistance called r = 0
  · exact .inr (hzero.mp hsame).symm
  · left
    omega

/-- The distance of names is the least number of edits, and there is a suggestion unless no defined
name holds the called letters or is near. The suggestion is a defined name. A defined name that is
nearer does not hold the called letters, and then the suggestion does or the name reads the same as
the called one. -/
theorem suggestion_nearest_unless_resembling (called : Text) (defined : List Text) :
    (∀ r : Text, IsLeast {n | Edits n (Text.chars called) (Text.chars r)} (nameDistance called r)) ∧
    (suggestion called defined = none ↔
      ∀ r ∈ defined, resembles called r = false ∧ isNear called r = false) ∧
    ∀ d, suggestion called defined = some d →
      d ∈ defined ∧
      (resembles called d = true ∨ ∀ r ∈ defined, resembles called r = false) ∧
      ∀ r ∈ defined, nameDistance called r < nameDistance called d →
        resembles called r = false ∧
          (resembles called d = true ∨ Text.chars r = Text.chars called) := by
  refine ⟨fun r => isLeast_editDistance _ _, suggestion_eq_none_iff, ?_⟩
  intro d h
  rcases suggestion_eq_some_iff.mp h with hd | ⟨hnone, hd⟩
  · refine ⟨hd.mem, .inl hd.candidate_eq, ?_⟩
    intro r hr hless
    exact ⟨hd.not_candidate hr hless, .inl hd.candidate_eq⟩
  · refine ⟨hd.mem, .inr hnone, ?_⟩
    intro r hr hless
    refine ⟨hnone r hr, .inr ?_⟩
    rcases isNear_of_lt hd.candidate_eq hless with hnear | hsame
    · rw [hd.not_candidate hr hless] at hnear
      cases hnear
    · exact hsame

/-- A name that holds the called letters far apart is suggested in place of one at distance one. -/
theorem suggestion_passes_nearer :
    suggestion (ascii "gret") [ascii "get_reward_total", ascii "grit"] =
      some (ascii "get_reward_total") ∧
    nameDistance (ascii "gret") (ascii "get_reward_total") = 12 ∧
    nameDistance (ascii "gret") (ascii "grit") = 1 := by
  decide +kernel

/-- No defined name is nearer than the one with two letters in the right order. -/
theorem suggestion_nearest_unless_resembling_swapped :
    suggestion (ascii "grete") [ascii "teleport", ascii "greet"] = some (ascii "greet") ∧
    ∀ r ∈ [ascii "teleport", ascii "greet"],
      nameDistance (ascii "grete") (ascii "greet") ≤ nameDistance (ascii "grete") r := by
  have hgreet : suggestion (ascii "grete") [ascii "teleport", ascii "greet"] =
      some (ascii "greet") := by decide +kernel
  have hunlike : resembles (ascii "grete") (ascii "greet") = false := by decide +kernel
  have hdiffers : ∀ r ∈ [ascii "teleport", ascii "greet"],
      Text.chars r ≠ Text.chars (ascii "grete") := by decide +kernel
  obtain ⟨-, -, hnearest⟩ :=
    (suggestion_nearest_unless_resembling (ascii "grete") _).2.2 _ hgreet
  refine ⟨hgreet, ?_⟩
  intro r hr
  by_contra hless
  rcases (hnearest r hr (Nat.lt_of_not_le hless)).2 with hlike | hsame
  · rw [hunlike] at hlike
    cases hlike
  · exact hdiffers r hr hsame

end Packwright.Macro
