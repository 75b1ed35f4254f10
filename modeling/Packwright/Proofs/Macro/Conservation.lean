import Mathlib.Data.List.Perm.Basic
import Packwright.Proofs.Fault

/-! # No scope is lost

Scopes come into the macro stage from its source, and the stage makes more of them for calls. Every
pass of a run belongs to the course of one of them, whether or not a pass finishes it
(`trace_divides`). A course that ends with a pass that finishes its scope is the life of the scope
(`Begun.finished`): it starts, passes put bodies into it, and a last pass finishes it. A run that
ends without a fault consists of such lives and of nothing else, one for each source scope and one
for each call (`trace_accounts`). So every scope is handed on once, and every reference that a pass
writes is the one of a scope handed on in the same namespace.
-/

namespace Packwright.Macro

namespace Table

variable {t t' : Table} {s : Scope}

/-- The function of a call before any pass over it, if its macro is defined. -/
def start? (t : Table) (c : Call) : Option Pending :=
  (t.find? c.callee).map fun d => ⟨c.scope d, 0⟩

/-- The functions made so far, as they were before any pass over them. -/
def started (t : Table) : List Pending := t.calls.filterMap t.start?

/-- The functions made between two tables are pending in the second one. -/
def Spawns (t t' : Table) : Prop :=
  ∃ new, t'.pending = new ++ t.pending ∧ t'.started.Perm (new ++ t.started)

theorem Spawns.refl (t : Table) : Spawns t t := ⟨[], rfl, .refl _⟩

theorem Spawns.trans {t'' : Table} (h : Spawns t t') (h' : Spawns t' t'') : Spawns t t'' := by
  obtain ⟨new, hpending, hstarted⟩ := h
  obtain ⟨new', hpending', hstarted'⟩ := h'
  refine ⟨new' ++ new, by rw [hpending', hpending, List.append_assoc], ?_⟩
  rw [List.append_assoc]
  exact hstarted'.trans (hstarted.append_left new')

/-- Two partial selections that never meet select side by side what they select together. -/
theorem filterMap_or_perm {α β : Type} (f g : α → Option β) (as : List α)
    (h : ∀ a ∈ as, f a = none ∨ g a = none) :
    (as.filterMap fun a => (f a).or (g a)).Perm (as.filterMap g ++ as.filterMap f) := by
  induction as with
  | nil => exact .refl _
  | cons a rest ih =>
      have hrest := ih fun b hb => h b (List.mem_cons_of_mem _ hb)
      rcases h a List.mem_cons_self with hnone | hnone
      · cases hg : g a with
        | none => simpa [hnone, hg] using hrest
        | some b => simpa [hnone, hg] using hrest
      · cases hf : f a with
        | none => simpa [hnone, hf] using hrest
        | some b =>
            simp only [List.filterMap_cons, hnone, hf, Option.some_or]
            exact (hrest.cons b).trans List.perm_middle.symm

/-- A call whose macro was unknown starts once it is defined. -/
theorem start?_define (t : Table) (d : Definition) (c : Call) :
    (t.define d).start? c =
      (t.start? c).or (if d.name = c.callee then some ⟨c.scope d, 0⟩ else none) := by
  rw [start?, find?_define, start?]
  cases t.find? c.callee with
  | some first => rfl
  | none => split <;> rfl

theorem spawns_define (h : Settled t) (d : Definition) : Spawns t (t.define d) := by
  cases hfirst : t.find? d.name with
  | some first =>
      have hdefine : t.define d = t.note (.macroRedefined d.name first.definedIn d.definedIn) := by
        simp [define, hfirst]
      rw [hdefine]
      exact Spawns.refl t
  | none =>
      have hpending : (t.define d).pending =
          ((t.calls.filter (Call.waitsFor d.name)).map fun c => ⟨c.scope d, 0⟩).reverse
            ++ t.pending := by
        simp [define, hfirst, generate, note]
      have hcalls : (t.define d).calls =
          t.calls.map fun c => if c.waitsFor d.name then { c with generated := true } else c := by
        simp [define, hfirst, generate, note]
      -- the calls that wait for the macro are those that call it, since none of them has a function
      have hwaits : ∀ c ∈ t.calls, c.waitsFor d.name = decide (d.name = c.callee) := by
        intro c hc
        by_cases hname : d.name = c.callee
        · have hgenerated := h c hc
          rw [← hname, hfirst] at hgenerated
          simp [Call.waitsFor, hname, hgenerated]
        · simp [Call.waitsFor, hname, Ne.symm hname]
      have hnew : (t.calls.filter (Call.waitsFor d.name)).map (fun c => (⟨c.scope d, 0⟩ : Pending))
          = t.calls.filterMap fun c =>
            if d.name = c.callee then some ⟨c.scope d, 0⟩ else none := by
        rw [List.filter_congr hwaits, ← List.filterMap_eq_map, List.filterMap_filter]
        simp
      have hstarted : (t.define d).started =
          t.calls.filterMap fun c =>
            (t.start? c).or (if d.name = c.callee then some ⟨c.scope d, 0⟩ else none) := by
        rw [started, hcalls, List.filterMap_map]
        refine List.filterMap_congr fun c _ => ?_
        rw [Function.comp_apply, start?_define]
        split <;> rfl
      refine ⟨_, hpending, ?_⟩
      rw [hstarted, hnew]
      refine (filterMap_or_perm _ _ _ fun c _ => ?_).trans
        ((List.reverse_perm _).symm.append_right _)
      by_cases hname : d.name = c.callee
      · exact .inl (by simp [start?, ← hname, hfirst])
      · exact .inr (by simp [hname])

theorem spawns_record {callee : Text} {args : List Text} {c : Call}
    (hrecord : t.record s callee args = (t', .ok c)) : Spawns t t' := by
  obtain ⟨ids, -, hc, ⟨d, hfind, rfl⟩ | ⟨hfind, rfl⟩⟩ := record_eq hrecord
  · refine ⟨[⟨c.scope d, 0⟩], rfl, ?_⟩
    have hstart : t.start? { c with generated := true } = some ⟨c.scope d, 0⟩ := by
      rw [start?, hc]
      simp only [hfind]
      rfl
    change ((t.calls ++ [_]).filterMap t.start?).Perm _
    rw [List.filterMap_append, List.filterMap_cons, hstart]
    exact List.perm_append_comm
  · refine ⟨[], rfl, ?_⟩
    have hstart : t.start? c = none := by
      rw [start?, hc]
      simp only [hfind]
      rfl
    change ((t.calls ++ [c]).filterMap t.start?).Perm _
    rw [List.filterMap_append, List.filterMap_cons, hstart, List.filterMap_nil, List.append_nil]
    exact .refl _

theorem Moves.spawns (h : Moves s t t') (hsettled : Settled t) : Spawns t t' := by
  induction h with
  | refl => exact Spawns.refl t
  | tail hmoves hmove ih =>
      cases hmove with
      | define d => exact ih.trans (spawns_define (Moves.settled hmoves hsettled) d)
      | record _ hrecord => exact ih.trans (spawns_record hrecord)

end Table

namespace Pass

/-- What a pass puts on the pending scopes: the functions it made and, if it is not the last one
over its scope, the scope itself. -/
theorem account (p : Pass) (hsettled : p.table.Settled) :
    ∃ new, p.after.started.Perm (new ++ p.table.started) ∧
      ((∃ fault, p.fault? = some fault ∧ p.finished? = none) ∨
      (∃ t e, p.expansion = (t, .ok e) ∧ e.inlined = false ∧ p.fault? = none ∧
        p.finished? = some (p.work.next e).scope ∧ p.after.pending = new ++ p.table.pending) ∨
      (∃ t e, p.expansion = (t, .ok e) ∧ e.inlined = true ∧ p.fault? = none ∧
        p.finished? = none ∧ p.after.pending = p.work.next e :: new ++ p.table.pending)) := by
  have hends := p.ends
  have hmoves : Table.Moves p.work.scope p.table p.expansion.1 := Table.expandLines_moves _ _ _
  obtain ⟨new, hpending, hstarted⟩ := hmoves.spawns hsettled
  refine ⟨new, ?_⟩
  unfold after fault? finished?
  generalize p.result = result at hends
  obtain ⟨t, answer⟩ := result
  cases hends with
  | failed h =>
      rw [h] at hstarted
      exact ⟨hstarted, .inl ⟨_, rfl, rfl⟩⟩
  | limited h =>
      rw [h] at hstarted
      exact ⟨hstarted, .inl ⟨_, rfl, rfl⟩⟩
  | finished h hin =>
      rw [h] at hstarted hpending
      exact ⟨hstarted, .inr (.inl ⟨_, _, h, hin, rfl, rfl, hpending⟩)⟩
  | again h hin =>
      rw [h] at hstarted hpending
      refine ⟨hstarted, .inr (.inr ⟨_, _, h, hin, rfl, rfl, ?_⟩)⟩
      exact congrArg (List.cons _) hpending

end Pass

/-! ## Courses -/

/-- The passes that a run made over a scope, each of which goes on with what the one before left.
There is none as long as the scope waits. -/
inductive Begun : Pending → List Pass → Prop
  | waiting (w : Pending) : Begun w []
  | last (p : Pass) : Begun p.work [p]
  | again (p : Pass) {t : Table} {e : Expanded} {ps : List Pass} (h : p.expansion = (t, .ok e))
      (hin : e.inlined = true) (hrest : Begun (p.work.next e) ps) : Begun p.work (p :: ps)

/-- A scope of a run as it was at first, and the passes over it, whether or not they finished it. -/
structure Course where
  start : Pending
  passes : List Pass
  begun : Begun start passes

namespace Course

/-- The course of a scope that no pass came to. -/
def waiting (w : Pending) : Course := ⟨w, [], .waiting w⟩

/-- The scope as it was finished, if a pass finished it. -/
def finished (course : Course) : List Scope := course.passes.filterMap Pass.finished?

theorem map_start_waiting (ws : List Pending) : (ws.map waiting).map start = ws := by
  rw [List.map_map]
  exact List.map_id ws

theorem passes_waiting (ws : List Pending) : (ws.map waiting).flatMap passes = [] := by
  rw [List.flatMap_eq_nil_iff]
  intro course hcourse
  obtain ⟨w, -, rfl⟩ := List.mem_map.mp hcourse
  rfl

end Course

/-- The passes of a run are those of courses, one for each scope that it starts with and for each
function made on the way. Where no fault ends the run, they are all finished. -/
def Trace.Divides (r : Trace) (work started : List Pending) : Prop :=
  ∃ (courses : List Course) (new : List Pending),
    (courses.map Course.start).Perm (work ++ new) ∧ r.table.started.Perm (started ++ new) ∧
      (courses.flatMap Course.passes).Perm r.passes ∧
      (r.fault = none → ∀ course ∈ courses, course.finished ≠ [])

namespace Trace.Divides

variable {p : Pass} {r : Trace} {work started : List Pending}

/-- A run that ends at once leaves all its work waiting. -/
theorem of_stopped (work : List Pending) (t : Table) (fault : Fault) :
    Divides ⟨[], t, some fault⟩ work t.started := by
  refine ⟨work.map .waiting, [], ?_, ?_, ?_, by simp⟩
  · rw [Course.map_start_waiting, List.append_nil]
  · rw [List.append_nil]
  · rw [Course.passes_waiting]

/-- A run whose first pass fails leaves all its other work waiting. -/
theorem of_fault (hsettled : p.table.Settled) (fault : Fault) :
    Divides ⟨[p], p.after, some fault⟩ (p.work :: work) p.table.started := by
  obtain ⟨new, hstarted, -⟩ := p.account hsettled
  let course : Course := ⟨p.work, [p], .last p⟩
  refine ⟨course :: (work ++ new).map .waiting, new, ?_, hstarted.trans List.perm_append_comm, ?_,
    by simp⟩
  · rw [List.map_cons, Course.map_start_waiting]
    exact .refl _
  · rw [List.flatMap_cons, Course.passes_waiting]
    exact .refl _

/-- New work may be told apart from what was pending before it. -/
theorem perm_apart (work made pending new : List Pending) :
    (work ++ (made ++ pending) ++ new).Perm (work ++ pending ++ (made ++ new)) := by
  simp only [List.append_assoc]
  exact (List.perm_append_comm_assoc made pending new).append_left work

/-- Where one member of a list is exchanged, the other members stay. -/
theorem perm_exchange {α : Type} {as bs cs : List α} {a : α} (b : α)
    (h : (as ++ a :: bs).Perm (a :: cs)) : (as ++ b :: bs).Perm (b :: cs) :=
  List.perm_middle.trans ((List.perm_middle.symm.trans h).cons_inv.cons b)

/-- A pass that leaves its scope unfinished is put before the course that goes on with the scope. -/
theorem exists_continued (p : Pass) {t : Table} {e : Expanded} (hexp : p.expansion = (t, .ok e))
    (hin : e.inlined = true) {courses : List Course} {rest : List Pending}
    (hstarts : (courses.map Course.start).Perm (p.work.next e :: rest)) :
    ∃ courses' : List Course, (courses'.map Course.start).Perm (p.work :: rest) ∧
      (courses'.flatMap Course.passes).Perm (p :: courses.flatMap Course.passes) ∧
      ((∀ course ∈ courses, course.finished ≠ []) → ∀ course ∈ courses', course.finished ≠ []) := by
  obtain ⟨course, hcourse, hstart⟩ :=
    List.mem_map.mp (hstarts.mem_iff.mpr List.mem_cons_self)
  obtain ⟨before, after, rfl⟩ := List.append_of_mem hcourse
  let longer : Course :=
    ⟨p.work, p :: course.passes, .again p hexp hin (hstart ▸ course.begun)⟩
  have hfinished : longer.finished = course.finished :=
    List.filterMap_cons_none (Pass.finished?_eq_none_of_inlined hexp hin)
  refine ⟨before ++ longer :: after, ?_, ?_, fun h => ?_⟩
  · simp only [List.map_append, List.map_cons, hstart] at hstarts ⊢
    exact perm_exchange p.work hstarts
  · rw [List.flatMap_append, List.flatMap_append]
    exact List.perm_middle
  · rw [List.forall_mem_append, List.forall_mem_cons] at h ⊢
    rwa [hfinished]

/-- A pass starts the course of its scope or goes on with it. -/
theorem preceded (hsettled : p.table.Settled) (hfault : p.fault? = none)
    (h : Divides r (work ++ p.after.pending) p.after.started) :
    Divides (r.preceded p) (p.work :: (work ++ p.table.pending)) p.table.started := by
  obtain ⟨courses, new, hstarts, htable, hpasses, hend⟩ := h
  obtain ⟨made, hmade, hcases⟩ := p.account hsettled
  have htable' : r.table.started.Perm (p.table.started ++ (made ++ new)) := by
    refine (htable.trans (hmade.append_right new)).trans ?_
    rw [List.append_assoc]
    exact List.perm_append_comm_assoc made p.table.started new
  obtain ⟨_, hsome, -⟩ | ⟨t, e, hexp, hin, -, hfin, hpending⟩ |
    ⟨t, e, hexp, hin, -, -, hpending⟩ := hcases
  · rw [hsome] at hfault
    cases hfault
  · -- the pass finishes its scope: one more course, of this pass alone
    let course : Course := ⟨p.work, [p], .last p⟩
    have hfinished : course.finished = [(p.work.next e).scope] := List.filterMap_cons_some hfin
    rw [hpending] at hstarts
    refine ⟨course :: courses, made ++ new, ?_, htable', hpasses.cons p, fun hnone => ?_⟩
    · exact (hstarts.trans (perm_apart work made p.table.pending new)).cons p.work
    · refine List.forall_mem_cons.mpr ⟨?_, hend hnone⟩
      rw [hfinished]
      exact List.cons_ne_nil _ _
  · -- the scope is pending again, so one of the courses that follow goes on with it
    have hwork := perm_apart work (p.work.next e :: made) p.table.pending new
    have hnext : (work ++ p.table.pending ++ (p.work.next e :: made ++ new)).Perm
        (p.work.next e :: (work ++ p.table.pending ++ (made ++ new))) := List.perm_middle
    rw [hpending] at hstarts
    obtain ⟨courses', hstarts', hpasses', hend'⟩ :=
      exists_continued p hexp hin (hstarts.trans (hwork.trans hnext))
    exact ⟨courses', made ++ new, hstarts', htable', hpasses'.trans (hpasses.cons p),
      fun hnone => hend' (hend hnone)⟩

end Trace.Divides

namespace Table

theorem settle_divides (t : Table) (h : t.Settled) : t.settle.Divides t.pending t.started := by
  fun_induction settle t with
  | case1 t work rest hpending pass fault hfault =>
      rw [hpending]
      exact .of_fault (p := pass) h fault
  | case2 t work rest hpending pass hfault _ ih =>
      have hafter : pass.after.settle.Divides ([] ++ pass.after.pending) pass.after.started :=
        ih (pass.settled_after h)
      rw [hpending]
      exact hafter.preceded h hfault
  | case3 t hpending hclose =>
      rw [h.canClose_eq_false] at hclose
      cases hclose
  | case4 t hpending hclose =>
      rw [hpending]
      exact ⟨[], [], .nil, by simp, .nil, fun _ => List.forall_mem_nil _⟩

/-- The passes of a run are those of its source scopes, of what was pending before it, and of the
functions of calls. -/
theorem trace_divides (t : Table) (fault : Option Fault) (sources : List Scope) (h : t.Settled) :
    (t.trace fault sources).Divides (sources.map (⟨·, 0⟩) ++ t.pending) t.started := by
  induction sources generalizing t with
  | nil =>
      cases fault with
      | some fault => exact .of_stopped _ t fault
      | none => exact settle_divides t h
  | cons s rest ih =>
      rw [trace]
      let pass : Pass := ⟨t, ⟨s, 0⟩⟩
      cases hfault : pass.fault? with
      | some fault' => exact .of_fault (p := pass) h fault'
      | none => exact (ih pass.after (pass.settled_after h)).preceded h hfault

end Table

/-! ## Lives -/

/-- A scope becomes another one through passes, each of which continues where the one before left
it. All but the last leave it unfinished. -/
inductive Chain : Pending → List Pass → Scope → Prop
  | last (p : Pass) {t : Table} {e : Expanded} (h : p.expansion = (t, .ok e))
      (hin : e.inlined = false) : Chain p.work [p] (p.work.next e).scope
  | again (p : Pass) {t : Table} {e : Expanded} {ps : List Pass} {finish : Scope}
      (h : p.expansion = (t, .ok e)) (hin : e.inlined = true)
      (hrest : Chain (p.work.next e) ps finish) : Chain p.work (p :: ps) finish

/-- The life of a scope in a run: how it starts, the passes over it, and how it is handed on. -/
structure Life where
  start : Pending
  passes : List Pass
  finish : Scope
  chain : Chain start passes finish

theorem Chain.finish_ns {w : Pending} {ps : List Pass} {z : Scope} (h : Chain w ps z) :
    z.ns = w.scope.ns ∧ z.name = w.scope.name := by
  induction h with
  | last => exact ⟨rfl, rfl⟩
  | again p _ _ _ ih => exact ih

/-- The scopes that a pass works on keep their name and namespace. -/
theorem Chain.pass_ns {w : Pending} {ps : List Pass} {z : Scope} (h : Chain w ps z) :
    ∀ p ∈ ps, p.work.scope.ns = w.scope.ns ∧ p.work.scope.name = w.scope.name := by
  induction h with
  | last p => simp
  | again p _ _ _ ih =>
      intro q hq
      rcases List.mem_cons.mp hq with rfl | hq
      · exact ⟨rfl, rfl⟩
      · exact ih q hq

/-- A course whose scope is finished is the life of it. -/
theorem Begun.finished {w : Pending} {ps : List Pass} (h : Begun w ps) :
    ps.filterMap Pass.finished? = [] ∨
      ∃ z, ps.filterMap Pass.finished? = [z] ∧ Chain w ps z := by
  induction h with
  | waiting w => exact .inl rfl
  | last p =>
      cases hfinished : p.finished? with
      | none => exact .inl (List.filterMap_cons_none hfinished)
      | some z =>
          obtain ⟨t, e, hexp, hin, rfl⟩ := Pass.expansion_of_finished? hfinished
          exact .inr ⟨_, List.filterMap_cons_some hfinished, .last p hexp hin⟩
  | again p hexp hin _ ih =>
      rw [List.filterMap_cons_none (Pass.finished?_eq_none_of_inlined hexp hin)]
      rcases ih with hnone | ⟨z, hz, hchain⟩
      · exact .inl hnone
      · exact .inr ⟨z, hz, .again p hexp hin hchain⟩

/-- Courses are lives, apart from those whose scope is left unfinished. -/
theorem exists_lives (courses : List Course) :
    ∃ (lives : List Life) (left : List Pending),
      (lives.map Life.start ++ left).Perm (courses.map Course.start) ∧
      lives.map Life.finish = (courses.flatMap Course.passes).filterMap Pass.finished? ∧
      ((∀ course ∈ courses, course.finished ≠ []) →
        left = [] ∧ lives.flatMap Life.passes = courses.flatMap Course.passes) := by
  induction courses with
  | nil => exact ⟨[], [], .nil, rfl, fun _ => ⟨rfl, rfl⟩⟩
  | cons course rest ih =>
      obtain ⟨lives, left, hstarts, hfinish, hall⟩ := ih
      rw [List.map_cons, List.flatMap_cons, List.filterMap_append, ← hfinish]
      rcases course.begun.finished with hnone | ⟨z, hz, hchain⟩
      · refine ⟨lives, course.start :: left, ?_, ?_, fun h => ?_⟩
        · exact List.perm_middle.trans (hstarts.cons _)
        · rw [hnone, List.nil_append]
        · exact absurd hnone (h course List.mem_cons_self)
      · let life : Life := ⟨course.start, course.passes, z, hchain⟩
        refine ⟨life :: lives, left, hstarts.cons _, ?_, fun h => ?_⟩
        · rw [hz]
          rfl
        · obtain ⟨hleft, hpasses⟩ := hall (List.forall_mem_cons.mp h).2
          exact ⟨hleft, congrArg (course.passes ++ ·) hpasses⟩

/-- The lives of a run account for the work that it starts with and for the functions made on the
way. What a fault leaves undone is left. -/
def Trace.Accounts (r : Trace) (work started : List Pending) : Prop :=
  ∃ (lives : List Life) (left new : List Pending),
    (lives.map Life.start ++ left).Perm (work ++ new) ∧ r.table.started.Perm (started ++ new) ∧
      (lives.map Life.finish).Perm r.yields ∧
      (r.fault = none → left = [] ∧ (lives.flatMap Life.passes).Perm r.passes)

theorem Trace.Divides.accounts {r : Trace} {work started : List Pending}
    (h : r.Divides work started) : r.Accounts work started := by
  obtain ⟨courses, new, hstarts, htable, hpasses, hend⟩ := h
  obtain ⟨lives, left, hlives, hfinish, hall⟩ := exists_lives courses
  refine ⟨lives, left, new, hlives.trans hstarts, htable, ?_, fun hnone => ?_⟩
  · rw [hfinish]
    exact hpasses.filterMap _
  · obtain ⟨hleft, heq⟩ := hall (hend hnone)
    exact ⟨hleft, heq ▸ hpasses⟩

namespace Table

/-- The lives of a run account for its source scopes, for what was pending before it, and for the
functions of calls. -/
theorem trace_accounts (t : Table) (fault : Option Fault) (sources : List Scope) (h : t.Settled) :
    (t.trace fault sources).Accounts (sources.map (⟨·, 0⟩) ++ t.pending) t.started :=
  (trace_divides t fault sources h).accounts

/-- A run without a fault leaves nothing pending and no call without its function. -/
theorem trace_finished (t : Table) (sources : List Scope)
    (h : (t.trace none sources).fault = none) :
    (t.trace none sources).table.pending = [] ∧
      (t.trace none sources).table.unresolved = none := by
  rcases t.trace_ends none sources with ⟨_, hnone, -⟩ | ⟨_, hfault, -⟩ | ⟨hpending, hfault⟩
  · cases hnone
  · rw [h] at hfault
    cases hfault
  · exact ⟨hpending, hfault.symm.trans h⟩

end Table

end Packwright.Macro
