import Packwright.Proofs.Macro.Delivery
import Packwright.Proofs.Macro.Records

/-! # Expansion ends

Every pass of a run belongs to the course of one scope, which starts with a source scope or with the
function of a call (`traceOf_courses`). A scope goes back to the pending scopes only while it has
passes left, so no course is longer than the pass limit and one pass more. Each function takes an
id, so there are no more courses than source scopes and ids, and the length of a run is bounded by
these numbers whatever the macros do (`run_ends_within`).
-/

namespace Packwright.Macro

open Text (ascii)

/-! ## The courses of a run -/

/-- The passes of a run are those of the courses of its source scopes and of the functions made for
calls. -/
theorem traceOf_courses (settings : Settings) (sources : List Scope) :
    ∃ ofSources ofCalls : List Course,
      ofSources.map Course.start = sources.map (⟨·, 0⟩) ∧
      ofCalls.map Course.start = (traceOf settings sources).table.started ∧
      ((ofSources ++ ofCalls).flatMap Course.passes).Perm (traceOf settings sources).passes := by
  obtain ⟨courses, new, hstarts, hstarted, hpasses, -⟩ :=
    Table.trace_divides _ none sources (settled_start settings)
  have hnew : new.Perm (traceOf settings sources).table.started := hstarted.symm
  obtain ⟨ofSources, ofCalls, hperm, hsources, hcalls⟩ :=
    exists_perm_map_eq (hstarts.trans (hnew.append_left _))
  refine ⟨ofSources, ofCalls, ?_, hcalls, (hperm.flatMap_right _).trans hpasses⟩
  exact hsources.trans (List.append_nil _)

/-! ## Passes over one scope -/

/-- No pending scope has used up more passes than the limit. -/
def Table.Bounded (t : Table) : Prop := ∀ w ∈ t.pending, w.passes ≤ t.limit

/-- The functions that are pending for calls have seen no pass. -/
theorem Table.passes_of_mem_started {t : Table} {w : Pending} (h : w ∈ t.started) :
    w.passes = 0 := by
  obtain ⟨c, -, hstart⟩ := List.mem_filterMap.mp h
  obtain ⟨d, -, rfl⟩ := Option.map_eq_some_iff.mp hstart
  rfl

/-- The courses of a run start with scopes that have seen no pass. -/
theorem passes_start_of_courses {sources : List Scope} {t : Table} {ofSources ofCalls : List Course}
    (hsources : ofSources.map Course.start = sources.map (⟨·, 0⟩))
    (hcalls : ofCalls.map Course.start = t.started) {course : Course}
    (hcourse : course ∈ ofSources ++ ofCalls) : course.start.passes = 0 := by
  rcases List.mem_append.mp hcourse with hmem | hmem
  · have hstart := hsources ▸ List.mem_map_of_mem (f := Course.start) hmem
    obtain ⟨s, -, hs⟩ := List.mem_map.mp hstart
    rw [← hs]
  · exact Table.passes_of_mem_started (hcalls ▸ List.mem_map_of_mem hmem)

theorem Table.Moves.bounded {t t' : Table} {s : Scope} (hmoves : Moves s t t')
    (hsettled : t.Settled) (h : t.Bounded) : t'.Bounded := by
  obtain ⟨new, hpending, hstarted⟩ := hmoves.spawns hsettled
  intro w hw
  rw [hmoves.extends.limit]
  rw [hpending] at hw
  rcases List.mem_append.mp hw with hnew | hold
  · rw [passes_of_mem_started (hstarted.mem_iff.mpr (List.mem_append_left _ hnew))]
    exact Nat.zero_le _
  · exact h w hold

/-- A pass puts its scope back only while passes are left. -/
theorem Pass.bounded_after (p : Pass) (hsettled : p.table.Settled) (h : p.table.Bounded) :
    p.after.Bounded := by
  have hbounded := p.expansion_moves.bounded hsettled h
  have hends := p.ends
  unfold after
  generalize p.result = result at hends
  obtain ⟨t, answer⟩ := result
  cases hends with
  | failed hexp | finished hexp | limited hexp =>
      rw [hexp] at hbounded
      exact hbounded
  | again hexp _ hlimit =>
      rw [hexp] at hbounded
      exact List.forall_mem_cons.mpr ⟨hlimit, hbounded⟩

theorem Step.bounded {sources : List Scope} {t : Table} {p : Pass} (hstep : Step sources t p)
    (h : t.Bounded) : p.work.passes ≤ t.limit ∧ p.table.Bounded := by
  cases hstep with
  | source => exact ⟨Nat.zero_le _, h⟩
  | pending hpending =>
      rw [Table.Bounded, hpending, List.forall_mem_cons] at h
      exact h

theorem Reaches.bounded {sources : List Scope} {t t' : Table} (hreaches : Reaches sources t t')
    (hsettled : t.Settled) (h : t.Bounded) : t'.Settled ∧ t'.Bounded := by
  have hkeep : ∀ {u : Table} {p : Pass}, Step sources u p → u.Settled ∧ u.Bounded →
      p.after.Settled ∧ p.after.Bounded := by
    intro u p hstep hu
    have htable : p.table.Settled := by
      cases hstep with
      | source => exact hu.1
      | pending => exact hu.1
    exact ⟨p.settled_after htable, p.bounded_after htable (hstep.bounded hu.2).2⟩
  exact hreaches.invariant hkeep ⟨hsettled, h⟩

/-- A scope that a run comes to has passes left. -/
theorem passes_le_limit {settings : Settings} {sources : List Scope} {p : Pass}
    (hp : p ∈ (traceOf settings sources).passes) : p.work.passes ≤ settings.limit := by
  obtain ⟨t, hto, hstep, -⟩ := (traceOf_follows settings sources).step p hp
  have hbounded := (hto.bounded (settled_start settings) fun _ hw => (nomatch hw)).2
  have hlimit : t.limit = settings.limit := hto.extends.limit
  exact hlimit ▸ (hstep.bounded hbounded).1

/-- As each pass of a course counts, a course is no longer than the passes that its scope had left,
and one more. -/
theorem Begun.length_le {w : Pending} {ps : List Pass} (h : Begun w ps) (limit : Nat)
    (hw : w.passes ≤ limit + 1) (hps : ∀ p ∈ ps, p.work.passes ≤ limit) :
    w.passes + ps.length ≤ limit + 1 := by
  induction h with
  | waiting w => exact hw
  | last p => exact Nat.succ_le_succ (hps p List.mem_cons_self)
  | again p _ _ _ ih =>
      rw [List.forall_mem_cons] at hps
      have hrest := ih (Nat.succ_le_succ hps.1) hps.2
      simp only [Pending.next] at hrest
      rw [List.length_cons]
      omega

/-! ## The length of a run -/

/-- A run makes no more functions than its allocator had ids. -/
theorem length_started_le (settings : Settings) (sources : List Scope) :
    (traceOf settings sources).table.started.length ≤ settings.callIds.remaining := by
  have hnumbered := (traceOf_follows settings sources).finish.numbered (numbered_start settings)
  calc (traceOf settings sources).table.started.length
      ≤ (traceOf settings sources).table.calls.length := List.length_filterMap_le _ _
    _ ≤ settings.callIds.remaining := hnumbered.remaining ▸ Nat.le_add_right _ _

/-- Courses that are each no longer than a bound have no more passes than the bound allows them. -/
theorem length_passes_le {courses : List Course} {bound : Nat}
    (h : ∀ course ∈ courses, course.passes.length ≤ bound) :
    (courses.flatMap Course.passes).length ≤ courses.length * bound := by
  induction courses with
  | nil => simp
  | cons course rest ih =>
      rw [List.forall_mem_cons] at h
      have hrest := ih h.2
      rw [List.flatMap_cons, List.length_append, List.length_cons, Nat.add_mul]
      have hfirst := h.1
      omega

/-- A run of the macro stage comes to its end, by success or by a fault of its own. No scope has
more passes than the limit and one more, and the run has no more passes than its source scopes and
the ids for calls allow. -/
theorem run_ends_within (maxPasses : Nat) (hpos : 1 ≤ maxPasses) (sources : List Scope) :
    let settings : Settings := { maxPasses }
    let o := Stage.macros.run settings sources
    let r := traceOf settings sources
    (o.verdict = .more ∨ ∃ fault, o.verdict = .fail fault ∧ fault.isMacroFault = true) ∧
    (o.state.2.scopes = r.yields ∧ o.verdict = Verdict.more.orFault r.fault ∧
      o.state.1.1 = r.table) ∧
    r.passes.length ≤ (sources.length + 2 ^ 31) * (maxPasses + 1) ∧
    ∃ ofSources ofCalls : List Course,
      ofSources.map Course.start = sources.map (⟨·, 0⟩) ∧
      ofCalls.map Course.start = r.table.started ∧
      ((ofSources ++ ofCalls).flatMap Course.passes).Perm r.passes ∧
      ∀ course ∈ ofSources ++ ofCalls, course.passes.length ≤ maxPasses + 1 := by
  intro settings o r
  have hlimit : settings.limit = maxPasses := by
    simp only [settings, Settings.limit]
    rw [if_neg (by omega)]
    rfl
  have hids : settings.callIds.remaining = 2 ^ 31 := Allocator.remaining_descending
  obtain ⟨hscopes, hverdict, -⟩ := run_macros settings sources
  obtain ⟨ofSources, ofCalls, hsources, hcalls, hpasses⟩ := traceOf_courses settings sources
  have hcourse : ∀ course ∈ ofSources ++ ofCalls, course.passes.length ≤ maxPasses + 1 := by
    intro course hcourse
    have hstart := passes_start_of_courses hsources hcalls hcourse
    have hle := course.begun.length_le maxPasses (hstart ▸ Nat.zero_le _) fun p hp =>
      hlimit ▸ passes_le_limit (hpasses.mem_iff.mp (List.mem_flatMap.mpr ⟨course, hcourse, hp⟩))
    omega
  refine ⟨?_, ⟨hscopes, hverdict, run_macros_table settings sources⟩, ?_, ofSources, ofCalls,
    hsources, hcalls, hpasses, hcourse⟩
  · rcases Table.trace_ends (Stage.macros.start settings) none sources with ⟨_, hnone, -⟩ | hends
    · cases hnone
    · cases hfault : r.fault with
      | none =>
          left
          rw [hverdict, hfault]
          rfl
      | some fault =>
          refine .inr ⟨fault, ?_, hends.isMacroFault hfault⟩
          rw [hverdict, hfault]
          rfl
  · have hnumber : (ofSources ++ ofCalls).length ≤ sources.length + 2 ^ 31 := by
      have hstarted := length_started_le settings sources
      rw [hids, ← hcalls, List.length_map] at hstarted
      have hlength := congrArg List.length hsources
      rw [List.length_map, List.length_map] at hlength
      rw [List.length_append, hlength]
      exact Nat.add_le_add_left hstarted _
    calc r.passes.length
        = ((ofSources ++ ofCalls).flatMap Course.passes).length := hpasses.length_eq.symm
      _ ≤ (ofSources ++ ofCalls).length * (maxPasses + 1) := length_passes_le hcourse
      _ ≤ (sources.length + 2 ^ 31) * (maxPasses + 1) := Nat.mul_le_mul_right _ hnumber

/-- A macro that puts a call of itself in place of each of its calls. -/
def selfCall : List Scope :=
  [⟨⟨{ path := ascii "packs/p", name := ascii "p" }, ascii "ns"⟩, ascii "main",
    Text.unlines [ascii "generate function loop", ascii "\tcall loop", ascii "call loop"]⟩]

/-- The bound on the passes over a scope is reached. -/
theorem run_ends_within_selfCall :
    1 ≤ 5 ∧ (Stage.macros.run { maxPasses := (5 : Nat) } selfCall).verdict =
        .fail (.expansionLimit (ascii "ns:main") 6) ∧
      ∃ course : Course, course.start = ⟨selfCall.head (by decide), 0⟩ ∧
        course.passes.Perm (traceOf { maxPasses := (5 : Nat) } selfCall).passes ∧
        course.passes.length = 5 + 1 := by
  have hverdict : (Stage.macros.run { maxPasses := (5 : Nat) } selfCall).verdict =
      .fail (.expansionLimit (ascii "ns:main") 6) := by
    decide +kernel
  have hstarted : (traceOf { maxPasses := (5 : Nat) } selfCall).table.started = [] := by
    decide +kernel
  have hlength : (traceOf { maxPasses := (5 : Nat) } selfCall).passes.length = 6 := by
    decide +kernel
  obtain ⟨-, -, -, ofSources, ofCalls, hsources, hcalls, hpasses, -⟩ :=
    run_ends_within 5 (by decide) selfCall
  obtain rfl : ofCalls = [] := List.map_eq_nil_iff.mp (hcalls.trans hstarted)
  obtain ⟨course, rfl, hstart⟩ := List.map_eq_singleton_iff.mp hsources
  have hperm : course.passes.Perm (traceOf { maxPasses := (5 : Nat) } selfCall).passes := by
    simpa using hpasses
  exact ⟨by decide, hverdict, course, hstart, hperm, hperm.length_eq.trans hlength⟩

end Packwright.Macro
