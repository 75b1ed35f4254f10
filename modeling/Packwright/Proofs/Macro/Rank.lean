import Packwright.Proofs.Macro.Inlining
import Packwright.Proofs.Macro.Refinement
import Packwright.Proofs.Macro.Termination

/-! # Macros that do not call themselves

A run may give macros ranks, such that no body that it puts in place of a call calls a macro of the
same rank or a higher one. Then every pass that puts bodies into a scope leaves calls of lower ranks
only (`Pass.Falls.height_lt`), and a scope sees no more of these passes than the ranks of the macros
that it calls at first allow. So no scope uses up its passes as long as the limit is above the ranks
(`run_within_rank`).
-/

namespace Packwright.Macro

open Text (ascii)

/-! ## Ranks -/

/-- One more than the largest rank of a macro that lines call outside definitions; zero if they call
none. -/
def height (rank : Text → Nat) (lines : List Text) : Nat :=
  ((commandsIn lines).filterMap callee?).foldr (fun callee n => max (rank callee + 1) n) 0

section

variable {rank : Text → Nat} {lines : List Text}

theorem foldr_max_le_iff {names : List Text} {n : Nat} :
    names.foldr (fun name n => max (rank name + 1) n) 0 ≤ n ↔ ∀ name ∈ names, rank name < n := by
  induction names with
  | nil => simp
  | cons name rest ih =>
      rw [List.foldr_cons, Nat.max_le, ih, List.forall_mem_cons]
      exact Iff.rfl

/-- The height of lines is the least number above the ranks of the macros that they call. -/
theorem height_le_iff {n : Nat} :
    height rank lines ≤ n ↔
      ∀ line ∈ commandsIn lines, ∀ callee, callee? line = some callee → rank callee < n := by
  rw [height, foldr_max_le_iff]
  simp only [List.mem_filterMap]
  exact ⟨fun h line hline callee hcallee => h callee ⟨line, hline, hcallee⟩,
    fun h callee ⟨line, hline, hcallee⟩ => h line hline callee hcallee⟩

/-- The macro whose body a pass puts in has a rank below the height of the lines. -/
theorem Pass.rank_lt_height (rank : Text → Nat) {p : Pass} {x : Inlining} (hx : x ∈ p.inlinings) :
    rank x.definition.name < height rank p.work.scope.lines := by
  obtain ⟨line, hline, hcallee⟩ := Table.called_of_mem_inlinings hx
  exact height_le_iff.mp (Nat.le_refl _) line hline _ hcallee

theorem Pass.height_pos (rank : Text → Nat) {p : Pass} (h : p.inlines = true) :
    0 < height rank p.work.scope.lines := by
  rw [inlines, Bool.not_eq_true', List.isEmpty_eq_false_iff] at h
  obtain ⟨x, hx⟩ := List.exists_mem_of_ne_nil _ h
  exact Nat.zero_lt_of_lt (Pass.rank_lt_height rank hx)

/-- The lines that a pass leaves call macros of lower rank than the bodies put in. -/
def Pass.Falls (rank : Text → Nat) (p : Pass) : Prop :=
  ∀ t e, p.expansion = (t, .ok e) → ∀ line ∈ (p.work.next e).scope.lines, ∀ callee,
    callee? line = some callee → ∃ x ∈ p.inlinings, rank callee < rank x.definition.name

theorem Pass.Falls.height_lt {p : Pass} (h : p.Falls rank) {t : Table} {e : Expanded}
    (hexp : p.expansion = (t, .ok e)) (hin : e.inlined = true) :
    height rank (p.work.next e).scope.lines < height rank p.work.scope.lines := by
  have hpos := Pass.height_pos rank (Pass.inlines_of_inlined hexp hin)
  have hle : height rank (p.work.next e).scope.lines ≤ height rank p.work.scope.lines - 1 := by
    rw [height_le_iff]
    intro line hline callee hcallee
    obtain ⟨x, hx, hlt⟩ := h t e hexp line (commandsIn_subset _ hline) callee hcallee
    have hrank := Pass.rank_lt_height rank hx
    omega
  omega

namespace Begun

variable {w : Pending} {ps : List Pass}

/-- As each pass that puts a body in lowers the height of its scope, there are no more of them in a
course than the height at first. -/
theorem countP_inlines_le (h : Begun w ps) (hfalls : ∀ p ∈ ps, p.Falls rank) :
    ps.countP Pass.inlines ≤ height rank w.scope.lines := by
  induction h with
  | waiting w => exact Nat.zero_le _
  | last p =>
      by_cases hp : p.inlines = true
      · rw [List.countP_cons_of_pos hp]
        exact Pass.height_pos rank hp
      · rw [List.countP_cons_of_neg hp]
        exact Nat.zero_le _
  | again p hexp hin _ ih =>
      rw [List.forall_mem_cons] at hfalls
      have hlt := hfalls.1.height_lt hexp hin
      have hrest := ih hfalls.2
      rw [List.countP_cons_of_pos (Pass.inlines_of_inlined hexp hin)]
      omega

/-- A pass of a course comes after as many passes that put a body in as its scope has used up. -/
theorem passes_lt_countP (h : Begun w ps) {p : Pass} (hp : p ∈ ps) (hinlines : p.inlines = true) :
    p.work.passes < w.passes + ps.countP Pass.inlines := by
  induction h with
  | waiting w => cases hp
  | last q =>
      rw [List.mem_singleton.mp hp] at hinlines ⊢
      rw [List.countP_cons_of_pos hinlines]
      omega
  | again q hexp hin _ ih =>
      rw [List.countP_cons_of_pos (Pass.inlines_of_inlined hexp hin)]
      rcases List.mem_cons.mp hp with rfl | hp
      · omega
      · have hrest := ih hp
        simp only [Pending.next] at hrest
        omega

end Begun

end

/-- A pass that uses up the passes of its scope puts a body in, after as many others as the limit
allows. -/
theorem Pass.of_expansionLimit {p : Pass} {scope : Text} {passes : Nat}
    (h : p.fault? = some (.expansionLimit scope passes)) :
    p.inlines = true ∧ p.table.limit ≤ p.work.passes := by
  have hends := p.ends
  have hlimit := p.expansion_moves.extends.limit
  unfold fault? at h
  split at h
  next => cases h
  next fault' hresult =>
    obtain rfl := Option.some.inj h
    rw [hresult] at hends
    generalize p.result.1 = t at hends
    cases hends with
    | failed hexp => cases Table.isLineFault_expandLines hexp
    | limited hexp hin hlt =>
        have htable : t.limit = p.table.limit := by
          rw [hexp] at hlimit
          exact hlimit
        exact ⟨Pass.inlines_of_inlined hexp hin, by omega⟩

theorem limit_of_mem_passes {settings : Settings} {sources : List Scope} {p : Pass}
    (hp : p ∈ (traceOf settings sources).passes) : p.table.limit = settings.limit := by
  obtain ⟨t, hto, hstep, -⟩ := (traceOf_follows settings sources).step p hp
  have hlimit : t.limit = settings.limit := hto.extends.limit
  cases hstep with
  | source => exact hlimit
  | pending => exact hlimit

/-- Where no body that a run puts in calls a macro of the same rank or a higher one, and the ranks
are below the pass limit, no scope uses up its passes. The passes that put bodies into a scope are
at most one more than the largest rank of a macro that the scope calls at first, and there is none
if it calls no macro. -/
theorem run_within_rank (maxPasses : Nat) (sources : List Scope)
    (hns : ∀ s ∈ sources, s.ns.Checked) (rank : Text → Nat) (hbelow : ∀ name, rank name < maxPasses)
    (hrank : ∀ p ∈ (traceOf { maxPasses } sources).passes, ∀ x ∈ p.inlinings, ∀ line ∈ x.lines,
      ∀ callee ∈ callee? line, rank callee < rank x.definition.name) :
    let settings : Settings := { maxPasses }
    let o := Stage.macros.run settings sources
    let r := traceOf settings sources
    (o.state.2.scopes = r.yields ∧ o.verdict = Verdict.more.orFault r.fault) ∧
    (∀ scope passes, o.verdict ≠ .fail (.expansionLimit scope passes)) ∧
    ∃ ofSources ofCalls : List Course,
      ofSources.map Course.start = sources.map (⟨·, 0⟩) ∧
      ofCalls.map Course.start = r.table.started ∧
      ((ofSources ++ ofCalls).flatMap Course.passes).Perm r.passes ∧
      ∀ course ∈ ofSources ++ ofCalls,
        course.passes.countP Pass.inlines ≤ height rank course.start.scope.lines := by
  intro settings o r
  obtain ⟨hscopes, hverdict, -⟩ := run_macros settings sources
  obtain ⟨ofSources, ofCalls, hsources, hcalls, hpasses⟩ := traceOf_courses settings sources
  have hmem : ∀ course ∈ ofSources ++ ofCalls, ∀ p ∈ course.passes, p ∈ r.passes := by
    intro course hcourse p hp
    exact hpasses.mem_iff.mp (List.mem_flatMap.mpr ⟨course, hcourse, hp⟩)
  have hfalls : ∀ p ∈ r.passes, p.Falls rank := by
    intro p hp t e hexp line hline callee hcallee
    obtain ⟨hlined, hproper⟩ := traceOf_lined hns hp
    obtain ⟨x, hx, l, hl, hcalled⟩ := p.next_calls hlined hproper hexp hline hcallee
    exact ⟨x, hx, hrank p hp x hx l hl callee hcalled⟩
  have hcourse : ∀ course ∈ ofSources ++ ofCalls,
      course.passes.countP Pass.inlines ≤ height rank course.start.scope.lines := fun course hc =>
    course.begun.countP_inlines_le fun p hp => hfalls p (hmem course hc p hp)
  refine ⟨⟨hscopes, hverdict⟩, ?_, ofSources, ofCalls, hsources, hcalls, hpasses, hcourse⟩
  intro scope passes hfail
  have hfault : r.fault = some (.expansionLimit scope passes) :=
    (Verdict.of_orFault_eq_fail (hverdict.symm.trans hfail)).resolve_left nofun
  obtain ⟨p, hp, hpfault⟩ := Table.exists_fault_of_trace _ sources hfault rfl
  obtain ⟨course, hc, hpc⟩ := List.mem_flatMap.mp (hpasses.mem_iff.mpr hp)
  obtain ⟨hinlines, hlimit⟩ := Pass.of_expansionLimit hpfault
  -- all passes before that one put bodies in, so there are more of them than the ranks allow
  have hlt := course.begun.passes_lt_countP hpc hinlines
  have hheight : height rank course.start.scope.lines ≤ maxPasses :=
    height_le_iff.mpr fun _ _ callee _ => hbelow callee
  have hbound := Nat.le_trans (hcourse course hc) hheight
  have hsettings : settings.limit = maxPasses :=
    limit_of_pos (Int.natCast_pos.mpr (Nat.zero_lt_of_lt (hbelow [])))
  rw [limit_of_mem_passes hp, hsettings] at hlimit
  rw [passes_start_of_courses hsources hcalls hc] at hlt
  omega

/-- Macros of three ranks, where the highest calls both others, and a scope that calls it. -/
def tiers : List Scope :=
  let ns : Namespace := ⟨{ path := ascii "packs/p", name := ascii "p" }, ascii "ns"⟩
  [⟨ns, ascii "macros", Text.unlines [ascii "generate function a", ascii "\tcall b x",
      ascii "\t\tcall c", ascii "generate function b p", ascii "\tsay p", ascii "\tcall c",
      ascii "generate function c", ascii "\tsay hi"]⟩,
    ⟨ns, ascii "main", ascii "call a"⟩]

/-- The ranks of these macros. -/
def tierRank (name : Text) : Nat :=
  if name = ascii "a" then 2 else if name = ascii "b" then 1 else 0

/-- The bound on the passes that put bodies into a scope is reached, and so is the limit. -/
theorem run_within_rank_tiers :
    let r := traceOf { maxPasses := (3 : Nat) } tiers
    (∀ s ∈ tiers, s.ns.Checked) ∧ (∀ name, tierRank name < 3) ∧
    (∀ p ∈ r.passes, ∀ x ∈ p.inlinings, ∀ line ∈ x.lines, ∀ callee ∈ callee? line,
      tierRank callee < tierRank x.definition.name) ∧
    (Stage.macros.run { maxPasses := (3 : Nat) } tiers).verdict = .more ∧
    ∃ course : Course, course.start.scope.reference = ascii "ns:main" ∧
      course.passes.countP Pass.inlines = 3 ∧
      height tierRank course.start.scope.lines = 3 := by
  intro r
  have hns : ∀ s ∈ tiers, s.ns.Checked := by
    unfold Namespace.Checked
    decide +kernel
  have hbelow : ∀ name, tierRank name < 3 := by
    intro name
    unfold tierRank
    split
    next => decide
    next => split <;> decide
  have hrank : ∀ p ∈ r.passes, ∀ x ∈ p.inlinings, ∀ line ∈ x.lines, ∀ callee ∈ callee? line,
      tierRank callee < tierRank x.definition.name := by
    decide +kernel
  have hstarted : r.table.started = [] := by decide +kernel
  have hcount : r.passes.countP Pass.inlines = 3 := by decide +kernel
  obtain ⟨-, -, ofSources, ofCalls, hsources, hcalls, hpasses, hcourses⟩ :=
    run_within_rank 3 tiers hns tierRank hbelow hrank
  obtain rfl : ofCalls = [] := List.map_eq_nil_iff.mp (hcalls.trans hstarted)
  obtain ⟨macros, rest, rfl, hmacros, hrest⟩ := List.map_eq_cons_iff.mp hsources
  obtain ⟨main, rfl, hmain⟩ := List.map_eq_singleton_iff.mp hrest
  -- the scope that defines the macros has no such pass, so all three are passes over the other
  have hnone : macros.passes.countP Pass.inlines ≤ 0 := by
    refine Nat.le_trans (hcourses macros List.mem_cons_self) ?_
    rw [hmacros]
    decide +kernel
  have hsum := hpasses.countP_eq Pass.inlines
  rw [hcount] at hsum
  simp only [List.append_nil, List.flatMap_cons, List.flatMap_nil, List.countP_append] at hsum
  refine ⟨hns, hbelow, hrank, by decide +kernel, main, ?_, by omega, ?_⟩
  · rw [hmain]
    decide
  · rw [hmain]
    decide +kernel

end Packwright.Macro
