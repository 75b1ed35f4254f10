import Mathlib.Data.List.Basic
import Mathlib.Logic.Function.Basic

/-! # Where blocks lie

A block is a longest stretch of lines that are indented to a level (`Span.IsBlock`). So where the
blocks of lines lie depends only on how deep each line is indented. A run of indented lines is a
block, and the others lie in it or in the lines below (`Run.isBlock_iff`). From this, the blocks of
lines are listed as they open and as they close (`Numbering`).
-/

namespace Packwright.Block

/-- A stretch of lines at a level, from a first line up to but not including another. -/
structure Span where
  first : Nat
  stop : Nat
  level : Nat
  deriving DecidableEq, Repr

namespace Span

/-- A block of lines, of which it is known how deep they are indented: a longest stretch of lines
that are all indented to the level. -/
structure IsBlock (depth : Nat → Nat) (b : Span) : Prop where
  level_pos : 0 < b.level
  nonempty : b.first < b.stop
  deep : ∀ i, b.first ≤ i → i < b.stop → b.level ≤ depth i
  opens : ∀ i, i + 1 = b.first → depth i < b.level
  closes : depth b.stop < b.level

/-- Blocks open from left to right, and an outer one before those inside it. -/
def OpensBefore (a b : Span) : Prop := a.first < b.first ∨ a.first = b.first ∧ a.level < b.level

/-- Blocks close from left to right, and an outer one after those inside it. -/
def ClosesBefore (a b : Span) : Prop := a.stop < b.stop ∨ a.stop = b.stop ∧ b.level < a.level

/-- A block inside a block, seen from outside. -/
def deeper (b : Span) : Span := { b with level := b.level + 1 }

/-- A block of lines, seen with other lines above. -/
def shift (n : Nat) (b : Span) : Span := { b with first := b.first + n, stop := b.stop + n }

theorem deeper_injective : Function.Injective deeper := by
  intro a b h
  cases a
  cases b
  simpa [deeper] using h

theorem shift_injective (n : Nat) : Function.Injective (shift n) := by
  intro a b h
  cases a
  cases b
  simpa [shift] using h

@[simp] theorem opensBefore_deeper {a b : Span} :
    a.deeper.OpensBefore b.deeper ↔ a.OpensBefore b := by
  simp only [OpensBefore, deeper]
  omega

@[simp] theorem closesBefore_deeper {a b : Span} :
    a.deeper.ClosesBefore b.deeper ↔ a.ClosesBefore b := by
  simp only [ClosesBefore, deeper]
  omega

@[simp] theorem opensBefore_shift {n : Nat} {a b : Span} :
    (a.shift n).OpensBefore (b.shift n) ↔ a.OpensBefore b := by
  simp only [OpensBefore, shift]
  omega

@[simp] theorem closesBefore_shift {n : Nat} {a b : Span} :
    (a.shift n).ClosesBefore (b.shift n) ↔ a.ClosesBefore b := by
  simp only [ClosesBefore, shift]
  omega

theorem idxOf_map {f : Span → Span} (hf : Function.Injective f) (b : Span) (bs : List Span) :
    (bs.map f).idxOf (f b) = bs.idxOf b := by
  have hsame : (fun a => f a == f b) = (· == b) := by
    funext a
    simp [hf.eq_iff]
  rw [List.idxOf, List.idxOf, List.findIdx_map, ← hsame]
  rfl

/-- Below a flush line, or from one on, lines have their blocks to themselves. -/
theorem exists_shift_iff {depth rest : Nat → Nat} {n : Nat} {b : Span}
    (hbelow : ∀ i, rest i = depth (i + n)) (hedge : rest 0 = 0 ∨ ∀ i, i + 1 = n → depth i = 0) :
    (∃ a : Span, a.IsBlock rest ∧ a.shift n = b) ↔ n ≤ b.first ∧ b.IsBlock depth := by
  constructor
  · rintro ⟨a, ha, rfl⟩
    have hpos := ha.level_pos
    refine ⟨Nat.le_add_left _ _, hpos, Nat.add_lt_add_right ha.nonempty n, ?_, ?_, ?_⟩
    · intro i hi hstop
      simp only [shift] at hi hstop ⊢
      have hdeep := ha.deep (i - n) (by omega) (by omega)
      rwa [hbelow, Nat.sub_add_cancel (by omega)] at hdeep
    · intro i hi
      simp only [shift] at hi ⊢
      rcases Nat.eq_zero_or_pos a.first with hfirst | hfirst
      · have hzero := ha.deep 0 (Nat.le_of_eq hfirst) (hfirst ▸ ha.nonempty)
        rcases hedge with hedge | hedge
        · omega
        · rw [hedge i (by omega)]
          exact hpos
      · have hopens := ha.opens (i - n) (by omega)
        rwa [hbelow, Nat.sub_add_cancel (by omega)] at hopens
    · have hcloses := ha.closes
      rwa [hbelow] at hcloses
  · rintro ⟨hfirst, hb⟩
    have hnonempty := hb.nonempty
    have hsub : ∀ k, n ≤ k → k - n + n = k := fun k hk => Nat.sub_add_cancel hk
    refine ⟨⟨b.first - n, b.stop - n, b.level⟩, ⟨hb.level_pos, ?_, ?_, ?_, ?_⟩, ?_⟩
    · dsimp only
      omega
    · intro i hi hstop
      dsimp only at hi hstop ⊢
      rw [hbelow]
      exact hb.deep (i + n) (by omega) (by omega)
    · intro i hi
      dsimp only at hi ⊢
      rw [hbelow]
      exact hb.opens (i + n) (by omega)
    · dsimp only
      rw [hbelow, hsub _ (by omega)]
      exact hb.closes
    · simp only [shift, hsub _ hfirst, hsub b.stop (by omega)]

end Span

/-! ## Finding blocks -/

/-- A run on top of lines: `n` lines, each one tab deeper than those of `inner`, then the lines
`rest`, which do not go on with it. -/
structure Run (depth inner rest : Nat → Nat) (n : Nat) : Prop where
  pos : 0 < n
  indented : ∀ i < n, depth i = inner i + 1
  ends : ∀ i, n ≤ i → inner i = 0
  flush : rest 0 = 0
  below : ∀ i, rest i = depth (i + n)

namespace Run

variable {depth inner rest : Nat → Nat} {n : Nat} {b : Span}

theorem depth_end (h : Run depth inner rest n) : depth n = 0 := by
  rw [← h.flush, h.below, Nat.zero_add]

theorem stop_le (h : Run depth inner rest n) (hb : b.IsBlock inner) : b.stop ≤ n := by
  by_contra hstop
  have hnonempty := hb.nonempty
  have hpos := hb.level_pos
  have hlast := hb.deep (b.stop - 1) (by omega) (by omega)
  rw [h.ends (b.stop - 1) (by omega)] at hlast
  omega

/-- A block that opens in a run closes in it or with it. -/
theorem stop_le_of_first_lt (h : Run depth inner rest n) (hb : b.IsBlock depth)
    (hfirst : b.first < n) : b.stop ≤ n := by
  by_contra hstop
  have hpos := hb.level_pos
  have hlast := hb.deep n (by omega) (by omega)
  rw [h.depth_end] at hlast
  omega

theorem eq_whole_iff (h : Run depth inner rest n) :
    b = ⟨0, n, 1⟩ ↔ b.IsBlock depth ∧ b.first < n ∧ b.level = 1 := by
  constructor
  · rintro rfl
    refine ⟨⟨Nat.one_pos, h.pos, fun i _ hi => ?_, fun i hi => ?_, ?_⟩, h.pos, rfl⟩
    · rw [h.indented i hi]
      exact Nat.le_add_left _ _
    · exact absurd hi (Nat.succ_ne_zero i)
    · rw [h.depth_end]
      exact Nat.one_pos
  · rintro ⟨hb, hfirst, hlevel⟩
    obtain ⟨first, stop, level⟩ := b
    have hstop := h.stop_le_of_first_lt hb hfirst
    have hopens := hb.opens
    have hcloses := hb.closes
    dsimp only at hfirst hlevel hstop hopens hcloses
    have hzero : first = 0 := by
      by_contra hne
      have habove := hopens (first - 1) (by omega)
      rw [h.indented (first - 1) (by omega)] at habove
      omega
    have hn : stop = n := by
      by_contra hne
      rw [h.indented stop (by omega)] at hcloses
      omega
    rw [hzero, hn, hlevel]

theorem exists_deeper_iff (h : Run depth inner rest n) :
    (∃ a : Span, a.IsBlock inner ∧ a.deeper = b) ↔
      b.IsBlock depth ∧ b.first < n ∧ 1 < b.level := by
  constructor
  · rintro ⟨a, ha, rfl⟩
    have hstop := h.stop_le ha
    have hnonempty := ha.nonempty
    refine ⟨⟨Nat.succ_pos _, hnonempty, ?_, ?_, ?_⟩, ?_, Nat.succ_lt_succ ha.level_pos⟩
    · intro i hfirst hi
      rw [h.indented i (Nat.lt_of_lt_of_le hi hstop)]
      exact Nat.succ_le_succ (ha.deep i hfirst hi)
    · intro i hi
      simp only [Span.deeper] at hi ⊢
      rw [h.indented i (by omega)]
      exact Nat.succ_lt_succ (ha.opens i hi)
    · rcases Nat.lt_or_eq_of_le hstop with hlt | heq
      · simp only [Span.deeper]
        rw [h.indented _ hlt]
        exact Nat.succ_lt_succ ha.closes
      · simp only [Span.deeper]
        rw [heq, h.depth_end]
        exact Nat.succ_pos _
    · exact Nat.lt_of_lt_of_le hnonempty hstop
  · rintro ⟨hb, hfirst, hlevel⟩
    have hstop := h.stop_le_of_first_lt hb hfirst
    refine ⟨⟨b.first, b.stop, b.level - 1⟩, ⟨Nat.sub_pos_of_lt hlevel, hb.nonempty, ?_, ?_, ?_⟩, ?_⟩
    · intro i hi histop
      dsimp only at hi histop ⊢
      have hdeep := hb.deep i hi histop
      rw [h.indented i (by omega)] at hdeep
      omega
    · intro i hi
      dsimp only at hi ⊢
      have hopens := hb.opens i hi
      rw [h.indented i (by omega)] at hopens
      omega
    · dsimp only
      rcases Nat.lt_or_eq_of_le hstop with hlt | heq
      · have hcloses := hb.closes
        rw [h.indented _ hlt] at hcloses
        omega
      · rw [h.ends b.stop (Nat.le_of_eq heq.symm)]
        omega
    · simp only [Span.deeper, Nat.sub_add_cancel (Nat.le_of_lt hlevel)]

/-- A block is the run itself, lies in it, or lies in the lines below. -/
theorem isBlock_iff (h : Run depth inner rest n) :
    b.IsBlock depth ↔ b = ⟨0, n, 1⟩ ∨ (∃ a : Span, a.IsBlock inner ∧ a.deeper = b) ∨
      ∃ a : Span, a.IsBlock rest ∧ a.shift n = b := by
  rw [h.eq_whole_iff, h.exists_deeper_iff, Span.exists_shift_iff h.below (.inl h.flush)]
  constructor
  · intro hb
    have hpos := hb.level_pos
    rcases Nat.lt_or_ge b.first n with hfirst | hfirst
    · rcases Nat.lt_or_ge 1 b.level with hlevel | hlevel
      · exact .inr (.inl ⟨hb, hfirst, hlevel⟩)
      · exact .inl ⟨hb, hfirst, Nat.le_antisymm hlevel hpos⟩
    · exact .inr (.inr ⟨hfirst, hb⟩)
  · rintro (⟨hb, -⟩ | ⟨hb, -⟩ | ⟨-, hb⟩) <;> exact hb

end Run

/-- The blocks of lines, in the order in which they open and in the order in which they close. -/
structure Numbering (depth : Nat → Nat) (opened closed : List Span) : Prop where
  mem_opened : ∀ b, b ∈ opened ↔ b.IsBlock depth
  opens : opened.Pairwise Span.OpensBefore
  perm : closed.Perm opened
  closes : closed.Pairwise Span.ClosesBefore

namespace Numbering

variable {depth inner rest : Nat → Nat} {opened closed opened₁ closed₁ opened₂ closed₂ : List Span}
  {n : Nat}

theorem mem_closed (h : Numbering depth opened closed) (b : Span) :
    b ∈ closed ↔ b.IsBlock depth := by
  rw [h.perm.mem_iff, h.mem_opened]

/-- Lines that are not indented have no blocks. -/
theorem nil (h : ∀ i, depth i = 0) : Numbering depth [] [] := by
  refine ⟨fun b => ?_, .nil, .nil, .nil⟩
  simp only [List.not_mem_nil, false_iff]
  intro hb
  have hfirst := hb.deep b.first (Nat.le_refl _) hb.nonempty
  have hpos := hb.level_pos
  rw [h] at hfirst
  omega

/-- A flush line on top moves the blocks. -/
theorem flush (h : Numbering rest opened closed) (hflush : depth 0 = 0)
    (hbelow : ∀ i, rest i = depth (i + 1)) :
    Numbering depth (opened.map (.shift 1)) (closed.map (.shift 1)) := by
  have hedge : ∀ i, i + 1 = 1 → depth i = 0 := by
    intro i hi
    rw [Nat.succ.inj hi, hflush]
  refine ⟨fun b => ?_, ?_, h.perm.map _, ?_⟩
  · simp only [List.mem_map, h.mem_opened]
    rw [Span.exists_shift_iff hbelow (.inr hedge), and_iff_right_iff_imp]
    intro hb
    by_contra hfirst
    have hzero := hb.deep 0 (by omega) (by have := hb.nonempty; omega)
    have hpos := hb.level_pos
    omega
  · simpa [List.pairwise_map] using h.opens
  · simpa [List.pairwise_map] using h.closes

/-- The blocks in a run open after it and close before it. -/
theorem run (hrun : Run depth inner rest n) (h₁ : Numbering inner opened₁ closed₁)
    (h₂ : Numbering rest opened₂ closed₂) :
    Numbering depth (⟨0, n, 1⟩ :: (opened₁.map .deeper ++ opened₂.map (.shift n)))
      (closed₁.map .deeper ++ ⟨0, n, 1⟩ :: closed₂.map (.shift n)) := by
  have hshifted : ∀ a : Span, a.IsBlock rest → n ≤ (a.shift n).first ∧ n < (a.shift n).stop := by
    intro a ha
    have := ha.nonempty
    simp only [Span.shift]
    omega
  have hpos := hrun.pos
  refine ⟨fun b => ?_, ?_, ?_, ?_⟩
  · simp only [List.mem_cons, List.mem_append, List.mem_map, h₁.mem_opened, h₂.mem_opened]
    exact hrun.isBlock_iff.symm
  · refine .cons ?_ (List.pairwise_append.mpr ⟨?_, ?_, ?_⟩)
    · intro b hb
      simp only [List.mem_append, List.mem_map, h₁.mem_opened, h₂.mem_opened] at hb
      rcases hb with ⟨a, ha, rfl⟩ | ⟨a, ha, rfl⟩
      · have := ha.level_pos
        simp only [Span.OpensBefore, Span.deeper]
        omega
      · have := hshifted a ha
        simp only [Span.OpensBefore]
        omega
    · simpa [List.pairwise_map] using h₁.opens
    · simpa [List.pairwise_map] using h₂.opens
    · simp only [List.mem_map, h₁.mem_opened, h₂.mem_opened]
      rintro _ ⟨a, ha, rfl⟩ _ ⟨b, hb, rfl⟩
      have := hrun.stop_le ha
      have := ha.nonempty
      have := hshifted b hb
      simp only [Span.OpensBefore, Span.deeper]
      omega
  · refine List.perm_middle.trans (.cons _ ?_)
    exact (h₁.perm.map _).append (h₂.perm.map _)
  · refine List.pairwise_append.mpr ⟨?_, .cons ?_ ?_, ?_⟩
    · simpa [List.pairwise_map] using h₁.closes
    · simp only [List.mem_map, h₂.mem_closed]
      rintro _ ⟨b, hb, rfl⟩
      exact .inl (hshifted b hb).2
    · simpa [List.pairwise_map] using h₂.closes
    · simp only [List.mem_cons, List.mem_map, h₁.mem_closed, h₂.mem_closed]
      rintro _ ⟨a, ha, rfl⟩ b hb
      have hstop := hrun.stop_le ha
      have hlevel := ha.level_pos
      rcases hb with rfl | ⟨b, hb, rfl⟩
      · simp only [Span.ClosesBefore, Span.deeper]
        omega
      · exact .inl (Nat.lt_of_le_of_lt hstop (hshifted b hb).2)

/-- Blocks in a run are counted after it. -/
theorem idxOf_deeper (h₁ : Numbering inner opened₁ closed₁) {b : Span} (hb : b.IsBlock inner)
    (others : List Span) :
    (⟨0, n, 1⟩ :: (opened₁.map .deeper ++ others)).idxOf b.deeper = 1 + opened₁.idxOf b := by
  have hne : (⟨0, n, 1⟩ : Span) ≠ b.deeper := by
    intro heq
    have hlevel : 1 = b.level + 1 := congrArg Span.level heq
    have hpos := hb.level_pos
    omega
  have hmem : b.deeper ∈ opened₁.map .deeper := List.mem_map_of_mem ((h₁.mem_opened b).mpr hb)
  rw [List.idxOf_cons_ne _ hne, List.idxOf_append_of_mem hmem, Span.idxOf_map Span.deeper_injective,
    Nat.add_comm]

/-- Blocks below a run are counted after it and those in it. -/
theorem idxOf_shift (hrun : Run depth inner rest n) (h₁ : Numbering inner opened₁ closed₁)
    (b : Span) :
    (⟨0, n, 1⟩ :: (opened₁.map .deeper ++ opened₂.map (.shift n))).idxOf (b.shift n) =
      1 + opened₁.length + opened₂.idxOf b := by
  have hfirst : n ≤ (b.shift n).first := Nat.le_add_left _ _
  have hpos := hrun.pos
  have hne : (⟨0, n, 1⟩ : Span) ≠ b.shift n := by
    intro heq
    rw [← heq] at hfirst
    dsimp only at hfirst
    omega
  have hnotMem : b.shift n ∉ opened₁.map .deeper := by
    intro hmem
    obtain ⟨a, ha, heq⟩ := List.mem_map.mp hmem
    have hblock := (h₁.mem_opened a).mp ha
    have hstop := hrun.stop_le hblock
    have hnonempty := hblock.nonempty
    rw [← heq] at hfirst
    simp only [Span.deeper] at hfirst
    omega
  rw [List.idxOf_cons_ne _ hne, List.idxOf_append_of_notMem hnotMem, List.length_map,
    Span.idxOf_map (Span.shift_injective n)]
  omega

end Numbering

end Packwright.Block
