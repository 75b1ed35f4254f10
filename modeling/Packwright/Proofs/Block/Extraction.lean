import Packwright.Proofs.Block.Lowering

/-! # The blocks of a run

A block is a longest run of indented lines, in a text or in another block. Lowering extracts blocks
one by one, each after those inside it and before those behind it. `extractionsOf` lists them as
they are extracted in a run, with what was known before and after, and the reference that was found
for them.
-/

namespace Packwright.Block

/-- A block of a namespace that was extracted: its lines without their tab, the states before it was
entered and after it was left, and the reference that is called in its place. -/
structure Extraction where
  ns : Namespace
  block : List Text
  before : Lowering
  after : Lowering
  reference : Text
  deriving DecidableEq, Repr

/-- Where a block is, and what it holds. -/
def Extraction.site (x : Extraction) : Namespace × List Text := (x.ns, x.block)

/-- The blocks that are extracted while groups are lowered. -/
def extractions (ns : Namespace) (parent : Text) (l : Lowering) (gs : List Group) :
    List Extraction :=
  match gs with
  | [] => []
  | g :: gs =>
    if g.block.isEmpty then extractions ns parent l gs
    else
      match l.enter parent with
      | (_, .error _) => []
      | (l₁, .ok name) =>
        let inside := extractions ns (ns.reference name) l₁ (groups (Text.lines g.text))
        match lowerGroups ns (ns.reference name) l₁ (groups (Text.lines g.text)) with
        | (_, .error _) => inside
        | (l₂, .ok body) =>
          match l₂.leave ns parent name (Text.unlines body) with
          | (_, .error _) => inside
          | (l₃, .ok reference) =>
            inside ++ ⟨ns, g.block, l, l₃, reference⟩ :: extractions ns parent l₃ gs
termination_by weight gs
decreasing_by
  · exact weight_lt_cons g gs
  · exact weight_block_lt gs (by assumption)
  · exact weight_lt_cons g gs

/-- The blocks that are extracted while scopes are lowered one after the other. -/
def extractionsOf (m : Memory) : List Scope → List Extraction
  | [] => []
  | s :: rest =>
    extractions s.ns s.reference ⟨m, [], []⟩ (groups s.lines) ++
      match lower m s with
      | (l, .ok _) => extractionsOf l.memory rest
      | (_, .error _) => []

section

variable {ns : Namespace} {parent name reference : Text} {l l₁ l₂ l₃ l' : Lowering} {g : Group}
  {gs : List Group} {body lines : List Text}

theorem Lowers.lowerGroups_eq (h : Lowers ns parent l gs l' lines) :
    lowerGroups ns parent l gs = (l', .ok lines) := by
  induction h with
  | nil => rw [lowerGroups]
  | line hblock _ ih =>
      rw [lowerGroups, if_pos (List.isEmpty_iff.mpr hblock), ih]
      rfl
  | block hblock henter _ hleave _ ihbody ihrest =>
      rw [lowerGroups, if_neg (fun hempty => hblock (List.isEmpty_iff.mp hempty)), henter]
      simp only [ihbody, hleave, ihrest]
      rfl

theorem extractions_nil : extractions ns parent l [] = [] := by rw [extractions]

theorem extractions_line (hblock : g.block = []) :
    extractions ns parent l (g :: gs) = extractions ns parent l gs := by
  rw [extractions, if_pos (List.isEmpty_iff.mpr hblock)]

theorem extractions_block (hblock : g.block ≠ []) (henter : l.enter parent = (l₁, .ok name))
    (hbody : Lowers ns (ns.reference name) l₁ (groups (Text.lines g.text)) l₂ body)
    (hleave : l₂.leave ns parent name (Text.unlines body) = (l₃, .ok reference)) :
    extractions ns parent l (g :: gs) =
      extractions ns (ns.reference name) l₁ (groups (Text.lines g.text)) ++
        ⟨ns, g.block, l, l₃, reference⟩ :: extractions ns parent l₃ gs := by
  rw [extractions, if_neg (fun hempty => hblock (List.isEmpty_iff.mp hempty)), henter]
  simp only [hbody.lowerGroups_eq, hleave]

end

/-! ## Longest runs of indented lines -/

open Text (extent extent_cons)

theorem extent_map_drop_le (ls : List Text) : extent (ls.map (·.drop 1)) ≤ extent ls := by
  induction ls with
  | nil => exact Nat.le_refl _
  | cons line rest ih =>
      rw [List.map_cons, extent_cons, extent_cons, List.length_drop]
      omega

theorem extent_takeWhile_add_dropWhile (p : Text → Bool) (ls : List Text) :
    extent (ls.takeWhile p) + extent (ls.dropWhile p) = extent ls := by
  induction ls with
  | nil => rfl
  | cons line rest ih =>
      by_cases h : p line = true
      · rw [List.takeWhile_cons_of_pos h, List.dropWhile_cons_of_pos h, extent_cons, extent_cons]
        omega
      · rw [List.takeWhile_cons_of_neg h, List.dropWhile_cons_of_neg h]
        exact Nat.zero_add _

/-- The blocks in lines, each after those inside it: the longest runs of indented lines, without
their tab, and the blocks in them. -/
def blocksIn (lines : List Text) : List (List Text) :=
  match lines with
  | [] => []
  | line :: rest =>
    if isIndented line then
      let block := line.drop 1 :: (rest.takeWhile isIndented).map (·.drop 1)
      blocksIn block ++ block :: blocksIn (rest.dropWhile isIndented)
    else blocksIn rest
termination_by extent lines
decreasing_by
  · have hline : 0 < line.length := by
      cases line with
      | nil => contradiction
      | cons b tail => exact Nat.succ_pos _
    have hrun := extent_map_drop_le (rest.takeWhile isIndented)
    have hrest := extent_takeWhile_add_dropWhile isIndented rest
    rw [extent_cons, extent_cons, List.length_drop]
    omega
  · have hrest := extent_takeWhile_add_dropWhile isIndented rest
    rw [extent_cons]
    omega
  · rw [extent_cons]
    omega

/-- A longest run of indented lines makes a group. -/
theorem groups_indented {line : Text} (h : isIndented line = true) (rest : List Text) :
    groups (line :: rest) =
      ⟨none, line.drop 1 :: (rest.takeWhile isIndented).map (·.drop 1)⟩ ::
        groups (rest.dropWhile isIndented) := by
  induction rest generalizing line with
  | nil => simp [groups, h]
  | cons next rest ih =>
      by_cases hnext : isIndented next = true
      · rw [groups, if_pos h, ih hnext, List.takeWhile_cons_of_pos hnext,
          List.dropWhile_cons_of_pos hnext, List.map_cons]
      · rw [List.takeWhile_cons_of_neg hnext, List.dropWhile_cons_of_neg hnext]
        have hhead : ∀ block gs, groups (next :: rest) ≠ ⟨none, block⟩ :: gs := by
          intro block gs
          rw [groups, if_neg hnext]
          split
          next => simp
          next => simp
        rw [groups, if_pos h]
        split
        next block gs hgs => exact absurd hgs (hhead block gs)
        next => rfl

/-- The blocks in lines are those of their groups and the blocks in them. -/
theorem blocksIn_eq_flatMap_groups (ls : List Text) :
    blocksIn ls = (groups ls).flatMap fun g =>
      if g.block = [] then [] else blocksIn g.block ++ [g.block] := by
  fun_induction blocksIn ls with
  | case1 => simp [groups]
  | case2 line rest hindented block _ ih =>
      rw [groups_indented hindented, List.flatMap_cons, if_neg (List.cons_ne_nil _ _), ih,
        List.append_assoc]
      rfl
  | case3 line rest hindented ih =>
      rw [ih, groups, if_neg hindented]
      split
      next block gs hgs => rw [hgs]; rfl
      next => rfl

end Packwright.Block
