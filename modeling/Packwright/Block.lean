import Packwright.Anonymous
import Packwright.Fault
import Packwright.Macro.Header
import Packwright.Note
import Packwright.Scope

/-! # Indented blocks

The lines indented under a line are cut out, lose one tab and become a function of their own, which
the line then calls:

```text
execute as @a run
	say hi
```

becomes `execute as @a run function ns:_/00/00/00/00` and a function that holds `say hi`. Blocks
inside blocks are treated alike, so no compiled function is indented. Functions made for blocks come
before the function that calls them.

Blocks may share: then equal blocks of a namespace have one function.
-/

namespace Packwright.Block

open Text (ascii)

/-- A line and the block under it, without the block's tab. Only a block that opens a text has no
line above it. -/
structure Group where
  head : Option Text
  block : List Text
  deriving DecidableEq, Repr

/-- Whether a line belongs to a block. -/
def isIndented (line : Text) : Bool := line.head? == some Text.tab

/-- Divides lines into groups. -/
def groups : List Text → List Group
  | [] => []
  | line :: rest =>
    if isIndented line then
      match groups rest with
      | ⟨none, block⟩ :: gs => ⟨none, line.drop 1 :: block⟩ :: gs
      | gs => ⟨none, [line.drop 1]⟩ :: gs
    else
      match groups rest with
      | ⟨none, block⟩ :: gs => ⟨some line, block⟩ :: gs
      | gs => ⟨some line, []⟩ :: gs

/-- The text of the block of a group. -/
def Group.text (g : Group) : Text := Text.unlines g.block

/-- The line of a group with the call of its block's function. -/
def Group.calling (g : Group) (reference : Text) : Text :=
  match g.head with
  | some line => line ++ ascii " " ++ Macro.functionWord ++ ascii " " ++ reference
  | none => Macro.functionWord ++ ascii " " ++ reference

/-- What is known about blocks at a point of a run: where names come from and, if blocks share, the
functions made so far by namespace and content. The name of a namespace holds no NUL byte, so the
two tell blocks apart as one text does that joins them by a NUL byte. -/
structure Memory where
  ids : Allocator := .ascending
  shared : Option (List ((Text × Text) × Text)) := none
  deriving DecidableEq, Repr

/-- The state while a scope is lowered: the memory, the functions made for its blocks and the notes
taken, both in order. -/
structure Lowering where
  memory : Memory
  made : List Scope := []
  journal : List Note := []
  deriving DecidableEq, Repr

namespace Lowering

/-- Draws a name for a block of the scope `parent`. -/
def draw (l : Lowering) (parent : Text) : Lowering × Except Fault Text :=
  match l.memory.ids.draw with
  | none => (l, .error (.blocksExhausted parent))
  | some (name, ids) => ({ l with memory := { l.memory with ids } }, .ok name)

/-- Starts a block. A block of its own has its name from the start; one that may be shared has none
until its content is known. -/
def enter (l : Lowering) (parent : Text) : Lowering × Except Fault Text :=
  match l.memory.shared with
  | none => l.draw parent
  | some _ => (l, .ok [])

/-- Adds the function made for a block of `parent`. -/
def add (l : Lowering) (s : Scope) (parent : Text) : Lowering :=
  { l with
    made := l.made ++ [s]
    journal := l.journal ++ [.blockExtracted s.reference parent] }

/-- Ends a block of `parent` whose lowered content is known, and answers with the reference of its
function. A shared function is looked up by the name of the namespace, which holds no NUL byte, and
the content. -/
def leave (l : Lowering) (ns : Namespace) (parent name content : Text) :
    Lowering × Except Fault Text :=
  match l.memory.shared with
  | none => (l.add ⟨ns, name, content⟩ parent, .ok (ns.reference name))
  | some shared =>
    match shared.lookup (ns.name, content) with
    | some name =>
      ({ l with journal := l.journal ++ [.blockReused (ns.reference name) parent] },
        .ok (ns.reference name))
    | none =>
      match l.draw parent with
      | (l, .error fault) => (l, .error fault)
      | (l, .ok name) =>
        let shared := shared ++ [((ns.name, content), name)]
        let l := { l with memory := { l.memory with shared := some shared } }
        (l.add ⟨ns, name, content⟩ parent, .ok (ns.reference name))

end Lowering

/-- A bound on the work left in groups: one for each group and the size of each block's text. -/
def weight : List Group → Nat
  | [] => 0
  | g :: gs => (if g.block.isEmpty then 1 else g.text.length + 2) + weight gs

theorem weight_cons (g : Group) (gs : List Group) :
    weight (g :: gs) = (if g.block.isEmpty then 1 else g.text.length + 2) + weight gs := rfl

theorem length_unlines_cons (line : Text) (rest : List Text) (h : rest ≠ []) :
    (Text.unlines (line :: rest)).length = line.length + 1 + (Text.unlines rest).length := by
  cases rest with
  | nil => exact absurd rfl h
  | cons next rest => simp [Text.unlines, Text.join, List.intercalate_cons_cons]; omega

/-- Grouping lines makes no work that the lines did not hold. -/
theorem weight_groups_le (ls : List Text) : weight (groups ls) ≤ Text.extent ls := by
  induction ls with
  | nil => simp [groups, weight]
  | cons line rest ih =>
    rw [Text.extent_cons]
    generalize Text.extent rest = total at ih ⊢
    rw [groups]
    split
    next hind =>
      obtain ⟨tail, rfl⟩ : ∃ tail, line = Text.tab :: tail := by
        cases line with
        | nil => simp [isIndented] at hind
        | cons b tail => exact ⟨tail, by simpa [isIndented] using hind⟩
      split
      next block gs hgs =>
        rw [hgs, weight_cons] at ih
        rw [weight_cons]
        cases block with
        | nil => simp [Group.text, Text.unlines, Text.join] at ih ⊢; omega
        | cons b bs =>
          have := length_unlines_cons tail (b :: bs) (by simp)
          simp [Group.text] at ih ⊢
          omega
      next =>
        rw [weight_cons]
        simp [Group.text, Text.unlines, Text.join]
        omega
    next =>
      split
      next block gs hgs =>
        rw [hgs, weight_cons] at ih
        rw [weight_cons]
        simp only [Group.text] at ih ⊢
        omega
      next =>
        rw [weight_cons]
        simp
        omega

/-- Every group is some work. -/
theorem weight_lt_cons (g : Group) (gs : List Group) : weight gs < weight (g :: gs) := by
  rw [weight_cons]
  split <;> omega

/-- The groups in a block are less work than the group that the block belongs to. -/
theorem weight_block_lt {g : Group} (gs : List Group) (h : ¬ g.block.isEmpty = true) :
    weight (groups (Text.lines g.text)) < weight (g :: gs) := by
  rw [weight_cons, if_neg h]
  have hgroups := weight_groups_le (Text.lines g.text)
  have hlines := Text.extent_lines_le g.text
  omega

/-- Lowers groups of the scope `parent`: the lines it keeps, each with the call of its block. -/
def lowerGroups (ns : Namespace) (parent : Text) (l : Lowering) (gs : List Group) :
    Lowering × Except Fault (List Text) :=
  match gs with
  | [] => (l, .ok [])
  | g :: gs =>
    if g.block.isEmpty then
      match lowerGroups ns parent l gs with
      | (l, result) => (l, result.map (g.head.toList ++ ·))
    else
      match l.enter parent with
      | (l, .error fault) => (l, .error fault)
      | (l, .ok name) =>
        match lowerGroups ns (ns.reference name) l (groups (Text.lines g.text)) with
        | (l, .error fault) => (l, .error fault)
        | (l, .ok body) =>
          match l.leave ns parent name (Text.unlines body) with
          | (l, .error fault) => (l, .error fault)
          | (l, .ok reference) =>
            match lowerGroups ns parent l gs with
            | (l, result) => (l, result.map (g.calling reference :: ·))
termination_by weight gs
decreasing_by
  · exact weight_lt_cons g gs
  · exact weight_block_lt gs (by assumption)
  · exact weight_lt_cons g gs

/-- Lowers a scope. -/
def lower (m : Memory) (s : Scope) : Lowering × Except Fault Scope :=
  match lowerGroups s.ns s.reference ⟨m, [], []⟩ (groups s.lines) with
  | (l, result) => (l, result.map fun lines => s.withContent (Text.unlines lines))

end Packwright.Block
