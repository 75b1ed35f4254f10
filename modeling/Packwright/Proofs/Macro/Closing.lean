import Packwright.Proofs.Macro.Settlement

/-! # Closing a table

Closing goes through the definitions and makes, for each of them, the functions of the calls that
wait for it. Calls are marked on the way, so where a macro is defined more than once its first
definition leaves nothing to the others (`due_cons`). The whole pass follows by induction over the
definitions (`foldl_generate`): it does the jobs of the table in order (`close_eq`). Whatever
definitions and calls a table holds, in a run or not, one pass settles it (`close_settles`).
-/

namespace Packwright.Macro

open Text (ascii)

/-- A function to be made: the definition it is made from and the call it is made for, with their
places in a table. -/
@[ext] structure Job where
  definition : Definition
  definitionAt : Nat
  call : Call
  callAt : Nat
  deriving DecidableEq, Repr

/-- Jobs are ordered by definitions, and those of one definition by calls. -/
def Job.Before (a b : Job) : Prop :=
  Prod.Lex (· < ·) (· < ·) (a.definitionAt, a.callAt) (b.definitionAt, b.callAt)

namespace Call

/-- Whether the function of a call is still to be made, and the first definition of its macro has
the place `i`. -/
def madeFrom (ds : List Definition) (i : Nat) (c : Call) : Bool :=
  !c.generated && ds.findIdx? (fun d => d.name == c.callee) == some i

/-- What becomes of a call when functions are made from some definitions. -/
def served (ds : List Definition) (c : Call) : Call :=
  { c with generated := c.generated || ds.any fun d => d.name == c.callee }

variable {d : Definition} {ds : List Definition} {c : Call} {i : Nat}

theorem served_singleton :
    c.served [d] = if c.waitsFor d.name then { c with generated := true } else c := by
  obtain ⟨callee, args, ns, scopeName, caller, generated⟩ := c
  by_cases hname : d.name = callee
  · cases generated <;> simp [served, waitsFor, hname]
  · simp [served, waitsFor, hname, Ne.symm hname]

theorem served_served_singleton : (c.served [d]).served ds = c.served (d :: ds) := by
  simp [served, Bool.or_assoc]

theorem madeFrom_zero : c.madeFrom (d :: ds) 0 = c.waitsFor d.name := by
  rw [madeFrom, waitsFor, List.findIdx?_cons, Bool.and_comm]
  by_cases hname : d.name = c.callee
  · simp [hname]
  · cases List.findIdx? (fun d => d.name == c.callee) ds <;> simp [hname, Ne.symm hname]

/-- The calls left to later definitions are those that still wait after the first one. -/
theorem madeFrom_succ : c.madeFrom (d :: ds) (i + 1) = (c.served [d]).madeFrom ds i := by
  simp only [madeFrom, served, List.findIdx?_cons]
  cases hname : d.name == c.callee with
  | true => simp [hname]
  | false => cases List.findIdx? (fun d => d.name == c.callee) ds <;> simp [hname]

theorem served_of_madeFrom (h : (c.served [d]).madeFrom ds i = true) : c.served [d] = c := by
  obtain ⟨callee, args, ns, scopeName, caller, generated⟩ := c
  simp only [madeFrom, served, Bool.and_eq_true, Bool.not_eq_true', Bool.or_eq_false_iff] at h
  simp [served, h.1.1, h.1.2]

/-- In terms of places: no definition of the macro comes before the one at place `i`. -/
theorem madeFrom_iff (hd : ds[i]? = some d) :
    c.madeFrom ds i = true ↔
      c.generated = false ∧ d.name = c.callee ∧
        ∀ k < i, ∀ e, ds[k]? = some e → e.name ≠ c.callee := by
  obtain ⟨hi, rfl⟩ := List.getElem?_eq_some_iff.mp hd
  rw [madeFrom, Bool.and_eq_true, Bool.not_eq_true', beq_iff_eq,
    List.findIdx?_eq_some_iff_getElem]
  simp only [beq_iff_eq]
  refine and_congr_right fun _ => ⟨?_, ?_⟩
  · rintro ⟨_, hname, hfirst⟩
    refine ⟨hname, fun k hk e he => ?_⟩
    obtain ⟨_, rfl⟩ := List.getElem?_eq_some_iff.mp he
    exact hfirst k hk
  · rintro ⟨hname, hfirst⟩
    exact ⟨hi, hname, fun k hk => hfirst k hk _ (List.getElem?_eq_getElem (hk.trans hi))⟩

end Call

/-- The calls whose functions are made from some definitions, each with its definition, in the order
in which this is done. -/
def due (ds : List Definition) (calls : List Call) : List (Definition × Call) :=
  ds.zipIdx.flatMap fun d => (calls.filter (Call.madeFrom ds d.2)).map fun c => (d.1, c)

/-- The first definition takes the calls that wait for it, and the others find them marked. -/
theorem due_cons (d : Definition) (ds : List Definition) (calls : List Call) :
    due (d :: ds) calls =
      (calls.filter (Call.waitsFor d.name)).map (fun c => (d, c)) ++
        due ds (calls.map (Call.served [d])) := by
  have hzero : Call.madeFrom (d :: ds) 0 = Call.waitsFor d.name :=
    funext fun _ => Call.madeFrom_zero
  have hlater : ∀ e : Definition × Nat,
      (calls.filter (Call.madeFrom (d :: ds) (e.2 + 1))).map (fun c => (e.1, c)) =
        ((calls.map (Call.served [d])).filter (Call.madeFrom ds e.2)).map fun c => (e.1, c) := by
    intro e
    have hsucc : Call.madeFrom (d :: ds) (e.2 + 1) = Call.madeFrom ds e.2 ∘ Call.served [d] :=
      funext fun _ => Call.madeFrom_succ
    rw [hsucc, List.filter_map, List.map_map]
    refine List.map_congr_left fun c hc => ?_
    have hsame := Call.served_of_madeFrom (List.mem_filter.mp hc).2
    exact congrArg (e.1, ·) hsame.symm
  simp only [due, List.zipIdx_cons, List.zipIdx_succ, List.flatMap_cons, List.flatMap_map, hzero,
    hlater]

namespace Table

variable {t : Table}

/-- A macro is defined. -/
def Defines (t : Table) (name : Text) : Prop := ∃ d ∈ t.definitions, d.name = name

instance (t : Table) (name : Text) : Decidable (t.Defines name) :=
  inferInstanceAs (Decidable (∃ d ∈ t.definitions, d.name = name))

theorem any_name_eq (t : Table) (name : Text) :
    (t.definitions.any fun d => d.name == name) = decide (t.Defines name) := by
  rw [Bool.eq_iff_iff, List.any_eq_true, decide_eq_true_iff]
  simp only [beq_iff_eq, Defines]

theorem isSome_find? (t : Table) (name : Text) :
    (t.find? name).isSome = decide (t.Defines name) := by
  rw [← any_name_eq, find?, List.isSome_find?]

/-- A table owes a function: a call waits for it, and no definition of the macro comes before the
one that it is to be made from. -/
structure Owes (t : Table) (job : Job) : Prop where
  definition : t.definitions[job.definitionAt]? = some job.definition
  call : t.calls[job.callAt]? = some job.call
  name : job.definition.name = job.call.callee
  waits : job.call.generated = false
  first : ∀ i < job.definitionAt, ∀ d, t.definitions[i]? = some d → d.name ≠ job.call.callee

/-- What a table owes, in the order in which it is made. -/
def jobs (t : Table) : List Job :=
  t.definitions.zipIdx.flatMap fun d =>
    (t.calls.zipIdx.filter fun c => c.1.madeFrom t.definitions d.2).map fun c =>
      ⟨d.1, d.2, c.1, c.2⟩

/-! ## One pass -/

/-- Making functions from one definition after the other. -/
theorem foldl_generate (ds : List Definition) (t : Table) :
    ds.foldl generate t =
      { t with
        calls := t.calls.map (Call.served ds)
        pending := ((due ds t.calls).map fun p => ⟨p.2.scope p.1, 0⟩).reverse ++ t.pending
        journal := t.journal ++
          (due ds t.calls).map fun p => .macroGenerated p.1.name p.2.reference } := by
  -- each definition finds the calls as those before it left them, so the table varies
  induction ds generalizing t with
  | nil =>
      have hserved : Call.served [] = id := funext fun c => by simp [Call.served]
      simp [due, hserved]
  | cons d ds ih =>
      have hcalls : (t.generate d).calls = t.calls.map (Call.served [d]) :=
        List.map_congr_left fun _ _ => Call.served_singleton.symm
      have hserved : Call.served ds ∘ Call.served [d] = Call.served (d :: ds) :=
        funext fun _ => Call.served_served_singleton
      rw [List.foldl_cons, ih, hcalls, List.map_map, hserved, due_cons]
      simp only [generate, List.map_append, List.map_map, List.reverse_append, List.append_assoc,
        Function.comp_def]

/-- Without their places, the jobs of a table are the calls that are due. -/
theorem map_jobs {α : Type} (f : Definition × Call → α) (t : Table) :
    t.jobs.map (fun job => f (job.definition, job.call)) =
      (due t.definitions t.calls).map f := by
  have hplaces : ∀ d : Definition × Nat,
      (t.calls.zipIdx.filter fun c => c.1.madeFrom t.definitions d.2).map (fun c => f (d.1, c.1)) =
        (t.calls.filter (Call.madeFrom t.definitions d.2)).map fun c => f (d.1, c) := by
    intro d
    conv_rhs => rw [← List.zipIdx_map_fst 0 t.calls, List.filter_map, List.map_map]
    rfl
  simp only [jobs, due, List.map_flatMap, List.map_map, Function.comp_def, hplaces]

/-- Closing a table does its jobs and marks the calls whose macro is defined. -/
theorem close_eq (t : Table) :
    t.close =
      { t with
        calls := t.calls.map fun c =>
          { c with generated := c.generated || decide (t.Defines c.callee) }
        pending := (t.jobs.map fun job => ⟨job.call.scope job.definition, 0⟩).reverse ++ t.pending
        journal := t.journal ++
          t.jobs.map fun job => .macroGenerated job.definition.name job.call.reference } := by
  have hserved : Call.served t.definitions = fun c =>
      { c with generated := c.generated || decide (t.Defines c.callee) } :=
    funext fun c => by rw [Call.served, any_name_eq]
  rw [close, foldl_generate, hserved, map_jobs fun p => (⟨p.2.scope p.1, 0⟩ : Pending),
    map_jobs fun p => Note.macroGenerated p.1.name p.2.reference]

/-! ## What a table owes -/

theorem mem_jobs {job : Job} : job ∈ t.jobs ↔ t.Owes job := by
  rw [jobs, List.mem_flatMap]
  constructor
  · rintro ⟨d, hd, hjob⟩
    obtain ⟨c, hc, rfl⟩ := List.mem_map.mp hjob
    obtain ⟨hcall, hmade⟩ := List.mem_filter.mp hc
    rw [List.mem_zipIdx_iff_getElem?] at hd hcall
    obtain ⟨hwaits, hname, hfirst⟩ := (Call.madeFrom_iff hd).mp hmade
    exact ⟨hd, hcall, hname, hwaits, hfirst⟩
  · intro h
    have hmade := (Call.madeFrom_iff h.definition).mpr ⟨h.waits, h.name, h.first⟩
    refine ⟨(job.definition, job.definitionAt), List.mem_zipIdx_iff_getElem?.mpr h.definition, ?_⟩
    refine List.mem_map.mpr ⟨(job.call, job.callAt), ?_, rfl⟩
    exact List.mem_filter.mpr ⟨List.mem_zipIdx_iff_getElem?.mpr h.call, hmade⟩

theorem pairwise_jobs (t : Table) : t.jobs.Pairwise Job.Before := by
  have hplaces : ∀ {α : Type} (xs : List α), xs.zipIdx.Pairwise fun x y => x.2 < y.2 := by
    intro α xs
    rw [← List.pairwise_map (f := Prod.snd), List.zipIdx_map_snd]
    exact List.pairwise_lt_range'
  rw [jobs, List.pairwise_flatMap]
  constructor
  · intro d _
    rw [List.pairwise_map]
    exact ((hplaces t.calls).filter _).imp fun hlt => .right _ hlt
  · refine (hplaces t.definitions).imp fun hlt a ha b hb => ?_
    obtain ⟨c, -, rfl⟩ := List.mem_map.mp ha
    obtain ⟨e, -, rfl⟩ := List.mem_map.mp hb
    exact .left _ _ hlt

/-- A call is owed one function: its macro has one first definition. -/
theorem Owes.eq_of_callAt {a b : Job} (ha : t.Owes a) (hb : t.Owes b)
    (h : a.callAt = b.callAt) : a = b := by
  have hcall : a.call = b.call := Option.some.inj (ha.call.symm.trans (h ▸ hb.call))
  have hplace : a.definitionAt = b.definitionAt := by
    -- the earlier one of two places would hold a definition before the first
    rcases Nat.lt_trichotomy a.definitionAt b.definitionAt with hlt | heq | hgt
    · exact absurd (ha.name.trans (congrArg _ hcall)) (hb.first _ hlt _ ha.definition)
    · exact heq
    · exact absurd (hb.name.trans (congrArg _ hcall.symm)) (ha.first _ hgt _ hb.definition)
  have hdefinition : a.definition = b.definition :=
    Option.some.inj (ha.definition.symm.trans (hplace ▸ hb.definition))
  exact Job.ext hdefinition hplace hcall h

theorem nodup_callAt_jobs (t : Table) : (t.jobs.map Job.callAt).Nodup := by
  have hnodup : t.jobs.Nodup := (pairwise_jobs t).imp fun {a b} hbefore heq => by
    subst heq
    rcases Prod.lex_def.mp hbefore with hlt | ⟨-, hlt⟩
    · exact Nat.lt_irrefl _ hlt
    · exact Nat.lt_irrefl _ hlt
  exact hnodup.map_on fun a ha b hb => (mem_jobs.mp ha).eq_of_callAt (mem_jobs.mp hb)

theorem exists_owes_iff {j : Nat} :
    (∃ job, t.Owes job ∧ job.callAt = j) ↔
      ∃ c, t.calls[j]? = some c ∧ c.generated = false ∧ t.Defines c.callee := by
  constructor
  · rintro ⟨job, h, rfl⟩
    exact ⟨job.call, h.call, h.waits, job.definition, List.mem_of_getElem? h.definition, h.name⟩
  · rintro ⟨c, hc, hwaits, d, hd, hname⟩
    have hfound : (t.definitions.findIdx? fun d => d.name == c.callee).isSome = true := by
      rw [List.findIdx?_isSome, List.any_eq_true]
      exact ⟨d, hd, beq_iff_eq.mpr hname⟩
    obtain ⟨i, hi⟩ := Option.isSome_iff_exists.mp hfound
    have hmade : c.madeFrom t.definitions i = true := by simp [Call.madeFrom, hwaits, hi]
    obtain ⟨hlt, -⟩ := List.findIdx?_eq_some_iff_getElem.mp hi
    have hfirst := List.getElem?_eq_getElem hlt
    obtain ⟨-, hname, hbefore⟩ := (Call.madeFrom_iff hfirst).mp hmade
    exact ⟨⟨t.definitions[i], i, c, j⟩, ⟨hfirst, hc, hname, hwaits, hbefore⟩, rfl⟩

theorem canClose_eq_true_iff : t.canClose = true ↔ t.jobs ≠ [] := by
  simp only [canClose, List.any_eq_true, Bool.and_eq_true, Bool.not_eq_true', isSome_find?,
    decide_eq_true_eq]
  constructor
  · rintro ⟨c, hc, hwaits⟩
    obtain ⟨j, hj⟩ := List.mem_iff_getElem?.mp hc
    obtain ⟨job, howes, -⟩ := exists_owes_iff.mpr ⟨c, hj, hwaits⟩
    exact List.ne_nil_of_mem (mem_jobs.mpr howes)
  · intro hjobs
    obtain ⟨job, hjob⟩ := List.exists_mem_of_ne_nil _ hjobs
    obtain ⟨c, hc, hwaits⟩ := exists_owes_iff.mp ⟨job, mem_jobs.mp hjob, rfl⟩
    exact ⟨c, List.mem_of_getElem? hc, hwaits⟩

/-! ## After the pass -/

theorem calls_close (t : Table) :
    t.close.calls = t.calls.map fun c =>
      { c with generated := c.generated || decide (t.Defines c.callee) } := by
  rw [close_eq]

theorem definitions_close (t : Table) : t.close.definitions = t.definitions := by
  rw [close_eq]

theorem find?_close (t : Table) (name : Text) : t.close.find? name = t.find? name := by
  rw [find?, find?, definitions_close]

/-- The calls that still wait have no definition. -/
theorem canClose_close (t : Table) : t.close.canClose = false := by
  rw [canClose, calls_close, List.any_map, List.any_eq_false]
  intro c _
  simp only [Function.comp_apply, find?_close, isSome_find?]
  cases decide (t.Defines c.callee) <;> simp

theorem unresolved_close (t : Table) :
    t.close.unresolved =
      (t.calls.find? fun c => !c.generated && !decide (t.Defines c.callee)).map fun c =>
        .unknownMacro c.callee c.caller (suggestion c.callee (t.definitions.map (·.name))) := by
  rw [unresolved, calls_close, definitions_close, List.find?_map, Option.map_map]
  simp only [Function.comp_def, Bool.not_or]

/-- One pass settles a table, whatever it holds. It adds the functions of the calls that wait for a
defined macro to the pending scopes, one for each such call, made from the first definition of the
macro, in the order of the definitions and then of the calls. It is made if and only if there is
such a call. A second pass is not made and would change nothing, and what is reported then is the
first call that was waiting and has no definition. -/
theorem close_settles (t : Table) :
    (∃ jobs : List Job,
      (∀ job, job ∈ jobs ↔ t.Owes job) ∧ jobs.Pairwise Job.Before ∧
      (jobs.map Job.callAt).Nodup ∧
      (∀ j, j ∈ jobs.map Job.callAt ↔
        ∃ c, t.calls[j]? = some c ∧ c.generated = false ∧ t.Defines c.callee) ∧
      (t.canClose = true ↔ jobs ≠ []) ∧
      t.close =
        { t with
          calls := t.calls.map fun c =>
            { c with generated := c.generated || decide (t.Defines c.callee) }
          pending :=
            (jobs.map fun job =>
              { scope :=
                  { ns := job.call.ns
                    name := job.call.scopeName
                    content := Text.unlines (job.definition.expand job.call.args) }
                passes := 0 }).reverse ++ t.pending
          journal := t.journal ++
            jobs.map fun job => .macroGenerated job.definition.name job.call.reference }) ∧
    t.close.canClose = false ∧ t.close.close = t.close ∧
    t.close.unresolved =
      (t.calls.find? fun c => !c.generated && !decide (t.Defines c.callee)).map fun c =>
        .unknownMacro c.callee c.caller (suggestion c.callee (t.definitions.map (·.name))) := by
  have hcalls : ∀ j, j ∈ t.jobs.map Job.callAt ↔
      ∃ c, t.calls[j]? = some c ∧ c.generated = false ∧ t.Defines c.callee := by
    intro j
    simp only [List.mem_map, mem_jobs, exists_owes_iff]
  have hagain := canClose_close t
  exact ⟨⟨t.jobs, fun _ => mem_jobs, pairwise_jobs t, nodup_callAt_jobs t, hcalls,
    canClose_eq_true_iff, close_eq t⟩, hagain, close_of_canClose_eq_false hagain,
    unresolved_close t⟩

/-- One macro is defined twice, one call was served before and one macro is not defined. -/
example :
    let ns : Namespace := ⟨{ path := ascii "packs/p", name := ascii "p" }, ascii "ns"⟩
    let definition (name line : String) : Definition :=
      ⟨ascii name, [ascii "v"], [ascii line], false, ascii "ns:macros"⟩
    let call (callee arg name : String) (generated : Bool) : Call :=
      ⟨ascii callee, [ascii arg], ns, ascii name, ascii "ns:main", generated⟩
    let t : Table :=
      { limit := 1
        definitions := [definition "b" "say v", definition "a" "tell v", definition "b" "kill v"]
        calls := [call "a" "1" "f1" false, call "b" "2" "f2" false, call "c" "3" "f3" false,
          call "b" "4" "f4" true, call "b" "5" "f5" false] }
    t.close.pending.reverse.map (fun p => (p.scope.name, p.scope.content)) =
        [(ascii "f2", ascii "say 2"), (ascii "f5", ascii "say 5"), (ascii "f1", ascii "tell 1")] ∧
      t.close.calls.map Call.generated = [true, true, false, true, true] := by
  decide +kernel

end Table

end Packwright.Macro
