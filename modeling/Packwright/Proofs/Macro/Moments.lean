import Packwright.Proofs.Macro.Trace

/-! # The moments of a run

A pass reads its lines one after another and comes to definitions of macros and to calls of them.
What is known when it comes to one of these, or to its end, is a moment of the run. Moments follow
each other by moves, so what moves keep holds at every moment (`Leads.at_moments`), and a relation
that moves respect holds between any two of them (`Leads.between_moments`).
-/

namespace Packwright.Macro

/-- What is known along a pass over lines, up to its end. -/
def Table.moments (t : Table) (s : Scope) (lines : List Text) : List Table :=
  (t.deeds s lines).map Prod.fst ++ [(t.expandLines s lines).1]

namespace Pass

/-- What a pass comes to, each with what is known then. -/
def deeds (p : Pass) : List (Table × Deed) := p.table.deeds p.work.scope p.work.scope.lines

/-- The definitions that a pass comes to, in order. -/
def definitions (p : Pass) : List Definition := p.deeds.filterMap fun q => q.2.definition?

/-- What is known along a pass, up to the end of its lines. -/
def moments (p : Pass) : List Table := p.table.moments p.work.scope p.work.scope.lines

theorem reads (p : Pass) : Table.Reads p.work.scope p.table p.deeds p.expansion.1 :=
  Table.expandLines_reads _ _ _

theorem mem_moments_of_mem_deeds {p : Pass} {q : Table × Deed} (h : q ∈ p.deeds) :
    q.1 ∈ p.moments :=
  List.mem_append_left _ (List.mem_map_of_mem h)

/-- Every moment of a pass leads to the end of its lines. -/
theorem moves_expansion {p : Pass} {t : Table} (h : t ∈ p.moments) :
    Table.Moves p.work.scope t p.expansion.1 := by
  have hmoves := (List.pairwise_append.mp (List.pairwise_cons.mp p.reads.pairwise).2).2.2
  rcases List.mem_append.mp h with hbefore | hend
  · exact hmoves t hbefore _ (List.mem_singleton_self _)
  · rw [List.mem_singleton.mp hend]
    exact .refl

end Pass

/-- What is known along a run, up to its end. -/
def Trace.moments (r : Trace) : List Table := r.passes.flatMap Pass.moments ++ [r.table]

namespace Leads

variable {sources : List Scope} {t t' : Table} {ps : List Pass}

/-- A relation that moves respect, and that does not depend on what is pending or noted, holds
between any two moments of a run. -/
theorem between_moments {R : Table → Table → Prop} (hleads : Leads sources t ps t')
    (htrans : ∀ {u v w : Table}, R u v → R v w → R u w)
    (hmoves : ∀ {s : Scope} {u v : Table}, Table.Moves s u v → R u v)
    (hrest : ∀ (u : Table) (pending : List Pending) (journal : List Note),
      R u { u with pending, journal }) :
    (t :: (ps.flatMap Pass.moments ++ [t'])).Pairwise R := by
  induction hleads with
  | stop t => simpa using hrest t t.pending t.journal
  | @step t t' p ps hstep hleads ih =>
      have htable : R t p.table := by
        cases hstep with
        | source => exact hrest t t.pending t.journal
        | pending => exact hrest t _ t.journal
      have hafter : ∀ u ∈ p.moments, R u p.after := by
        intro u hu
        obtain ⟨pending, hafter, -⟩ := p.after_eq
        rw [hafter]
        exact htrans (hmoves (p.moves_expansion hu)) (hrest _ pending [])
      -- every later moment is related to what the pass left, and so to each of its own moments
      obtain ⟨hstart, hpairs⟩ := List.pairwise_cons.mp (p.reads.pairwise.imp hmoves)
      obtain ⟨hlater, hrests⟩ := List.pairwise_cons.mp ih
      have hmoments : ∀ u ∈ p.moments, R t u := fun u hu => htrans htable (hstart u hu)
      have hacross : ∀ u ∈ p.moments, ∀ v ∈ ps.flatMap Pass.moments ++ [t'], R u v :=
        fun u hu v hv => htrans (hafter u hu) (hlater v hv)
      have hfirst : R t p.after := by
        have hend : p.expansion.1 ∈ p.moments :=
          List.mem_append_right _ (List.mem_singleton_self _)
        exact htrans (hmoments _ hend) (hafter _ hend)
      rw [List.flatMap_cons, List.append_assoc, List.pairwise_cons, List.pairwise_append]
      refine ⟨fun v hv => ?_, hpairs, hrests, hacross⟩
      rcases List.mem_append.mp hv with hv | hv
      · exact hmoments v hv
      · exact htrans hfirst (hlater v hv)

/-- What moves keep, and what does not depend on what is pending or noted, holds at every moment of
a run. -/
theorem at_moments {holds : Table → Prop} (hleads : Leads sources t ps t')
    (hmoves : ∀ {s : Scope} {u v : Table}, Table.Moves s u v → holds u → holds v)
    (hrest : ∀ (u : Table) (pending : List Pending) (journal : List Note), holds u →
      holds { u with pending, journal })
    (h : holds t) : ∀ u ∈ ps.flatMap Pass.moments ++ [t'], holds u := by
  -- a property is kept from moment to moment if "holds here, so holds there" relates them
  have hpairs := hleads.between_moments (R := fun u v => holds u → holds v)
    (fun huv hvw hu => hvw (huv hu)) hmoves hrest
  exact fun u hu => (List.pairwise_cons.mp hpairs).1 u hu h

end Leads

end Packwright.Macro
