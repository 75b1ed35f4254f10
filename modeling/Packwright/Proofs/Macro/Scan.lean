import Packwright.Proofs.Macro.Argument
import Packwright.Proofs.Macro.Body

/-! # The scan for parameters

Passing arguments goes along a line in strides: a stride copies one byte, or it passes a parameter
and writes the argument for it. Whatever bytes the parameters are made of, a line is scanned in one
way (`Scans.unique`). The strides pass each of its bytes once and in order
(`Scans.flatMap_passed`), none of them stands still (`Scans.passed_ne_nil`), and what they write is
the line with the arguments in it (`Scans.flatMap_written`). So parameters that are passed to
themselves leave every line as it is (`passArguments_self`).
-/

namespace Packwright.Macro

open Text (ascii)

/-- A stride along a line. -/
inductive Stride where
  /-- A byte is copied. -/
  | copy (b : UInt8)
  /-- A parameter is passed, and an argument is written for it. -/
  | replace (param arg : Text)
  deriving DecidableEq, Repr

namespace Stride

/-- The part of the line that a stride passes. -/
def passed : Stride → Text
  | copy b => [b]
  | replace param _ => param

/-- What a stride writes. -/
def written : Stride → Text
  | copy b => [b]
  | replace _ arg => arg

end Stride

/-- The strides along a line, with a word byte before it or not. Where no word byte stands before
and a parameter is found, the parameter is passed; any other byte is copied. -/
inductive Scans (pairs : List (Text × Text)) : Bool → Text → List Stride → Prop
  | done {afterWord : Bool} : Scans pairs afterWord [] []
  | copy {afterWord : Bool} {b : UInt8} {rest : Text} {strides : List Stride}
      (hnone : afterWord = true ∨ matchParam (b :: rest) pairs = none)
      (hrest : Scans pairs (Text.isWord b) rest strides) :
      Scans pairs afterWord (b :: rest) (.copy b :: strides)
  | replace {afterWord : Bool} {line param arg rest : Text} {strides : List Stride}
      (hapart : afterWord = false) (hfound : matchParam line pairs = some (param, arg))
      (hline : line = param ++ rest) (hrest : Scans pairs (Text.endsInWord param) rest strides) :
      Scans pairs afterWord line (.replace param arg :: strides)

variable {pairs : List (Text × Text)} {afterWord : Bool} {line : Text} {strides : List Stride}

/-- A parameter that is found is not empty, and the line starts with it. -/
theorem matchParam_starts {param arg : Text} (h : matchParam line pairs = some (param, arg)) :
    param ≠ [] ∧ param <+: line := by
  have hstarts := List.of_mem_filter (matchParam_mem_filter h)
  simp only [startsWithToken, Bool.and_eq_true, Bool.not_eq_true', List.isEmpty_eq_false_iff,
    List.isPrefixOf_iff_prefix] at hstarts
  exact hstarts.1

theorem matchParam_nil (pairs : List (Text × Text)) : matchParam [] pairs = none := by
  cases hmatch : matchParam [] pairs with
  | none => rfl
  | some pair =>
      obtain ⟨hparam, hstarts⟩ := matchParam_starts hmatch
      exact absurd (List.prefix_nil.mp hstarts) hparam

/-! ## A line has one scan -/

theorem exists_scans (pairs : List (Text × Text)) (afterWord : Bool) (line : Text) :
    ∃ strides, Scans pairs afterWord line strides := by
  -- a stride may pass many bytes, so the induction is on what is left of the line
  induction hlength : line.length using Nat.strongRecOn generalizing afterWord line with
  | ind n ih =>
      cases line with
      | nil => exact ⟨[], .done⟩
      | cons b rest =>
          have hcopy (hnone : afterWord = true ∨ matchParam (b :: rest) pairs = none) :
              ∃ strides, Scans pairs afterWord (b :: rest) strides := by
            obtain ⟨strides, hrest⟩ := ih rest.length (by simp [← hlength]) _ rest rfl
            exact ⟨_, .copy hnone hrest⟩
          cases hword : afterWord with
          | true => exact hword ▸ hcopy (.inl hword)
          | false =>
              cases hmatch : matchParam (b :: rest) pairs with
              | none => exact hword ▸ hcopy (.inr hmatch)
              | some pair =>
                  obtain ⟨param, arg⟩ := pair
                  obtain ⟨hparam, later, hline⟩ := matchParam_starts hmatch
                  have hshort : later.length < n := by
                    have := List.length_pos_iff.mpr hparam
                    rw [← hlength, ← hline, List.length_append]
                    omega
                  obtain ⟨strides, hrest⟩ := ih _ hshort (Text.endsInWord param) later rfl
                  exact ⟨_, .replace rfl hmatch hline.symm hrest⟩

namespace Scans

theorem unique {strides' : List Stride} (h : Scans pairs afterWord line strides)
    (h' : Scans pairs afterWord line strides') : strides = strides' := by
  induction h generalizing strides' with
  | done =>
      cases h' with
      | done => rfl
      | replace _ hfound => cases (matchParam_nil pairs).symm.trans hfound
  | copy hnone hrest ih =>
      cases h' with
      | copy _ hrest' => rw [ih hrest']
      | replace hapart hfound => simp [hapart, hfound] at hnone
  | replace hapart hfound hline hrest ih =>
      cases h' with
      | done => cases (matchParam_nil pairs).symm.trans hfound
      | copy hnone => simp [hapart, hfound] at hnone
      | replace _ hfound' hline' hrest' =>
          obtain ⟨rfl, rfl⟩ := Prod.mk.inj (Option.some.inj (hfound.symm.trans hfound'))
          obtain rfl := List.append_cancel_left (hline.symm.trans hline')
          rw [ih hrest']

/-! ## What the strides pass and write -/

/-- Every byte of the line is passed once, in its place. -/
theorem flatMap_passed (h : Scans pairs afterWord line strides) :
    strides.flatMap Stride.passed = line := by
  induction h with
  | done => rfl
  | copy hnone hrest ih => rw [List.flatMap_cons, ih]; rfl
  | replace hapart hfound hline hrest ih => rw [List.flatMap_cons, ih, hline]; rfl

theorem passed_ne_nil (h : Scans pairs afterWord line strides) :
    ∀ stride ∈ strides, stride.passed ≠ [] := by
  induction h with
  | done => exact fun _ hmem => absurd hmem List.not_mem_nil
  | copy hnone hrest ih => exact List.forall_mem_cons.mpr ⟨List.cons_ne_nil _ _, ih⟩
  | replace hapart hfound hline hrest ih =>
      exact List.forall_mem_cons.mpr ⟨(matchParam_starts hfound).1, ih⟩

/-- The strides write the line with its arguments. -/
theorem flatMap_written (h : Scans pairs afterWord line strides) :
    strides.flatMap Stride.written = passFrom pairs afterWord 0 line := by
  induction h with
  | done => rfl
  | @copy afterWord b rest strides hnone hrest ih =>
      have hmatch : (if afterWord then none else matchParam (b :: rest) pairs) = none := by
        rcases hnone with hword | hmatch
        · rw [if_pos hword]
        · rw [hmatch, ite_self]
      rw [List.flatMap_cons, ih, passFrom, hmatch]
      rfl
  | @replace afterWord line param arg rest strides hapart hfound hline hrest ih =>
      -- the argument is written at the first byte, and the others are passed behind it
      obtain ⟨b, w, rfl⟩ := List.exists_cons_of_ne_nil (matchParam_starts hfound).1
      obtain rfl := hline
      rw [List.cons_append] at hfound ⊢
      rw [List.flatMap_cons, ih, passFrom, hapart, if_neg Bool.false_ne_true, hfound]
      exact congrArg (arg ++ ·) (passFrom_passed b w rest).symm

/-- What is written for a parameter is its argument. -/
theorem mem_pairs (h : Scans pairs afterWord line strides) {param arg : Text}
    (hmem : .replace param arg ∈ strides) : (param, arg) ∈ pairs := by
  induction h with
  | done => exact absurd hmem List.not_mem_nil
  | copy hnone hrest ih =>
      rcases List.mem_cons.mp hmem with heq | htail
      · cases heq
      · exact ih htail
  | replace hapart hfound hline hrest ih =>
      rcases List.mem_cons.mp hmem with heq | htail
      · obtain ⟨rfl, rfl⟩ := Stride.replace.inj heq
        exact matchParam_mem hfound
      · exact ih htail

/-- There are no more strides than bytes. -/
theorem length_le (h : Scans pairs afterWord line strides) : strides.length ≤ line.length := by
  induction h with
  | done => exact Nat.le_refl _
  | copy hnone hrest ih => exact Nat.succ_le_succ ih
  | replace hapart hfound hline hrest ih =>
      have := List.length_pos_iff.mpr (matchParam_starts hfound).1
      rw [hline, List.length_append, List.length_cons]
      omega

end Scans

/-- Parameters that are passed to themselves leave every line as it is, whatever bytes they are made
of. The scan comes to its end in no more strides than the line has bytes: each stride passes at
least one byte, and together they pass the line, byte by byte. -/
theorem passArguments_self (params : List Text) (line : Text) :
    passArguments params params line = line ∧
      ∃ strides : List Stride,
        (∀ strides', Scans (params.zip params) false line strides' ↔ strides' = strides) ∧
        strides.flatMap Stride.passed = line ∧
        strides.flatMap Stride.written = passArguments params params line ∧
        (∀ stride ∈ strides, stride.passed ≠ []) ∧ strides.length ≤ line.length := by
  obtain ⟨strides, hscans⟩ := exists_scans (params.zip params) false line
  have hwritten : strides.flatMap Stride.written = passArguments params params line :=
    hscans.flatMap_written
  have hsame : strides.flatMap Stride.written = strides.flatMap Stride.passed := by
    refine List.flatMap_congr fun stride hstride => ?_
    cases stride with
    | copy b => rfl
    | replace param arg =>
        have hpair := hscans.mem_pairs hstride
        rw [List.zip_eq_zipWith, List.zipWith_self] at hpair
        obtain ⟨_, -, heq⟩ := List.mem_map.mp hpair
        cases heq
        rfl
  have honly : ∀ strides', Scans (params.zip params) false line strides' ↔ strides' = strides :=
    fun strides' => ⟨fun h => h.unique hscans, fun h => h ▸ hscans⟩
  refine ⟨?_, strides, honly, hscans.flatMap_passed, hwritten, hscans.passed_ne_nil,
    hscans.length_le⟩
  rw [← hwritten, hsame, hscans.flatMap_passed]

/-- Where the strides go is seen with other arguments: an empty parameter, one that begins another,
one that overlaps and one that comes twice. -/
example :
    let params := [[], ascii "a", ascii "a-", ascii "-a", ascii "a"]
    let args := [ascii "0", ascii "1", ascii "2", ascii "3", ascii "4"]
    passArguments params args (ascii "a-a--aa a") = ascii "22-aa 1" := by
  decide +kernel

end Packwright.Macro
