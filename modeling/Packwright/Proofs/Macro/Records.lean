import Mathlib.Data.List.Nodup
import Packwright.Proofs.Anonymous
import Packwright.Proofs.Macro.Trace

/-! # The records of calls

A call that has a function is recorded once, under the next id (`Moves.numbered`), and no two
records have the same key (`Moves.keyed`). A record stays as it is, but for the mark that its
function was made (`Moves.evolves`).
-/

namespace Packwright.Macro

/-- What may become of the record of a call: it stays, or its function is made. -/
def Call.Becomes (c c' : Call) : Prop :=
  c' = c ∨ c.generated = false ∧ c' = { c with generated := true }

theorem Call.Becomes.trans {c c' c'' : Call} (h : c.Becomes c') (h' : c'.Becomes c'') :
    c.Becomes c'' := by
  rcases h with rfl | ⟨hwaits, rfl⟩
  · exact h'
  · rcases h' with rfl | ⟨hgenerated, -⟩
    · exact .inr ⟨hwaits, rfl⟩
    · cases hgenerated

/-- Where no two members of a list have the same key, a look-up finds the one that has it. -/
theorem find?_eq_some_iff_of_nodup {α : Type} {key : α → Text} {xs : List α}
    (h : (xs.map key).Nodup) {k : Text} {x : α} :
    xs.find? (fun y => key y == k) = some x ↔ x ∈ xs ∧ key x = k := by
  constructor
  · intro hfound
    exact ⟨List.mem_of_find?_eq_some hfound, eq_of_beq (List.find?_some hfound :)⟩
  · rintro ⟨hx, rfl⟩
    cases hfound : xs.find? (fun y => key y == key x) with
    | none => exact absurd (beq_self_eq_true _) (List.find?_eq_none.mp hfound x hx)
    | some y =>
        have hkey : key y = key x := eq_of_beq (List.find?_some hfound :)
        rw [List.inj_on_of_nodup_map h (List.mem_of_find?_eq_some hfound) hx hkey]

namespace Table

variable {start : Allocator} {t t' : Table} {s : Scope}

/-! ## What becomes of a record -/

/-- A later table has the records of an earlier one in their places. -/
def Evolves (t t' : Table) : Prop :=
  ∀ (k : Nat) (c : Call), t.calls[k]? = some c → ∃ c', t'.calls[k]? = some c' ∧ c.Becomes c'

theorem Evolves.of_calls_eq (h : t'.calls = t.calls) : Evolves t t' :=
  fun _ c hc => ⟨c, h ▸ hc, .inl rfl⟩

theorem Evolves.trans {t'' : Table} (h : Evolves t t') (h' : Evolves t' t'') : Evolves t t'' := by
  intro k c hc
  obtain ⟨c', hc', hbecomes⟩ := h k c hc
  obtain ⟨c'', hc'', hbecomes'⟩ := h' k c' hc'
  exact ⟨c'', hc'', hbecomes.trans hbecomes'⟩

theorem evolves_define (t : Table) (d : Definition) : Evolves t (t.define d) := by
  unfold define
  split
  next => exact .of_calls_eq rfl
  next =>
    intro k c hc
    refine ⟨if c.waitsFor d.name then { c with generated := true } else c, ?_, ?_⟩
    · have hcalls : t.calls[k]? = some c := hc
      simp only [generate, note, List.getElem?_map, hcalls, Option.map_some]
    · split
      next hwaits =>
        simp only [Call.waitsFor, Bool.and_eq_true, Bool.not_eq_true'] at hwaits
        exact .inr ⟨hwaits.2, rfl⟩
      next => exact .inl rfl

/-- Recording a call adds a record behind the others. -/
theorem calls_record {callee : Text} {args : List Text} {c : Call}
    (h : t.record s callee args = (t', .ok c)) :
    ∃ c', t'.calls = t.calls ++ [c'] ∧ c'.bare = c ∧
      c = { callee, args, ns := s.ns, scopeName := c.scopeName, caller := s.reference } := by
  obtain ⟨ids, -, hc, ⟨d, -, rfl⟩ | ⟨-, rfl⟩⟩ := record_eq h
  · refine ⟨_, rfl, ?_, hc⟩
    rw [hc]
    rfl
  · refine ⟨_, rfl, ?_, hc⟩
    rw [hc]
    rfl

theorem evolves_record {callee : Text} {args : List Text} {c : Call}
    (h : t.record s callee args = (t', .ok c)) : Evolves t t' := by
  obtain ⟨c', hcalls, -⟩ := calls_record h
  intro k c₀ hc₀
  have hlt := (List.getElem?_eq_some_iff.mp hc₀).1
  exact ⟨c₀, by rw [hcalls, List.getElem?_append_left hlt, hc₀], .inl rfl⟩

theorem Moves.evolves (h : Moves s t t') : Evolves t t' :=
  h.invariant (fun u d hu => hu.trans (evolves_define u d))
    (fun hrecord hu => hu.trans (evolves_record hrecord)) (.of_calls_eq rfl)

/-! ## Keys -/

/-- No two records have the same key. -/
def Keyed (t : Table) : Prop := (t.calls.map Call.key).Nodup

/-- What no mark changes is kept by a definition. -/
theorem map_calls_define {α : Type} {f : Call → α} (hf : ∀ c, f c.bare = f c) (t : Table)
    (d : Definition) : (t.define d).calls.map f = t.calls.map f := by
  have hbare : (t.define d).calls.map Call.bare = t.calls.map Call.bare := by
    unfold define
    split
    next => rfl
    next => exact map_bare_generate _ d
  have hcomp : f ∘ Call.bare = f := funext hf
  rw [← hcomp, ← List.map_map, hbare, List.map_map]

theorem keyed_define (h : Keyed t) (d : Definition) : Keyed (t.define d) := by
  rw [Keyed, map_calls_define (fun _ => rfl)]
  exact h

theorem keyed_record {callee : Text} {args : List Text} {c : Call} (h : Keyed t)
    (hnew : t.call? (Call.keyOf s.ns callee args) = none)
    (hrecord : t.record s callee args = (t', .ok c)) : Keyed t' := by
  obtain ⟨c', hcalls, hbare, hc⟩ := calls_record hrecord
  have hkey : c'.key = Call.keyOf s.ns callee args := by
    rw [show c'.key = c'.bare.key from rfl, hbare, hc]
    rfl
  rw [Keyed, hcalls, List.map_append, List.map_singleton, hkey, List.nodup_append]
  refine ⟨h, List.nodup_singleton _, ?_⟩
  intro key hold key' hkey' heq
  obtain ⟨c₀, hc₀, rfl⟩ := List.mem_map.mp hold
  rw [List.mem_singleton.mp hkey'] at heq
  exact List.find?_eq_none.mp hnew c₀ hc₀ (beq_iff_eq.mpr heq)

theorem Moves.keyed (h : Moves s t t') (hkeyed : Keyed t) : Keyed t' := by
  induction h with
  | refl => exact hkeyed
  | tail _ hmove ih =>
      cases hmove with
      | define d => exact keyed_define ih d
      | record hnew hrecord => exact keyed_record ih hnew hrecord

/-- With one record for each key, a record is found under its own key. -/
theorem Keyed.call?_eq_some_iff (h : Keyed t) {key : Text} {c : Call} :
    t.call? key = some c ↔ c ∈ t.calls ∧ c.key = key :=
  find?_eq_some_iff_of_nodup h

/-! ## Ids -/

/-- The records have their names from the allocator of a run in order, and the allocator has one id
less for each of them. -/
structure Numbered (start : Allocator) (t : Table) : Prop where
  direction : t.ids.direction = start.direction
  last : t.ids.last = start.last
  remaining : t.calls.length + t.ids.remaining = start.remaining
  name : ∀ (k : Nat) (name : Text), (t.calls.map Call.scopeName)[k]? = some name →
    ∃ id, name = Anonymous.name id ∧
      k + (start.direction.distance id start.last + 1) = start.remaining

theorem numbered_define (h : Numbered start t) (d : Definition) : Numbered start (t.define d) := by
  have hids : (t.define d).ids = t.ids := by
    unfold define
    split <;> rfl
  have hnames : (t.define d).calls.map Call.scopeName = t.calls.map Call.scopeName :=
    map_calls_define (fun _ => rfl) t d
  have hlength : (t.define d).calls.length = t.calls.length := by
    simpa using congrArg List.length hnames
  refine ⟨?_, ?_, ?_, ?_⟩
  · rw [hids, h.direction]
  · rw [hids, h.last]
  · rw [hids, hlength, h.remaining]
  · rw [hnames]
    exact h.name

theorem numbered_record {callee : Text} {args : List Text} {c : Call} (h : Numbered start t)
    (hrecord : t.record s callee args = (t', .ok c)) : Numbered start t' := by
  obtain ⟨ids, hdraw, -, hcases⟩ := record_eq hrecord
  have hids : t'.ids = ids := by
    obtain ⟨d, -, rfl⟩ | ⟨-, rfl⟩ := hcases <;> rfl
  obtain ⟨c', hcalls, hbare, -⟩ := calls_record hrecord
  have hname : c'.scopeName = c.scopeName := hbare ▸ rfl
  obtain ⟨hdirection, hlast, hid, hdistance⟩ := Allocator.draw_next hdraw
  have hone := Allocator.remaining_draw hdraw
  have hremaining := h.remaining
  refine ⟨?_, ?_, ?_, ?_⟩
  · rw [hids, hdirection, h.direction]
  · rw [hids, hlast, h.last]
  · rw [hids, hcalls, List.length_append, List.length_singleton]
    omega
  · intro k name hk
    rw [hcalls, List.map_append, List.map_singleton] at hk
    by_cases hold : k < (t.calls.map Call.scopeName).length
    · rw [List.getElem?_append_left hold] at hk
      exact h.name k name hk
    · -- the new record is the last one, and its id the one that was next
      rw [List.getElem?_append_right (Nat.le_of_not_lt hold), List.getElem?_singleton] at hk
      obtain ⟨hlength, hk⟩ := Option.ite_none_right_eq_some.mp hk
      rw [List.length_map] at hold hlength
      refine ⟨t.ids.next, ?_, ?_⟩
      · rw [← Option.some.inj hk, hname, hid]
      · rw [← h.direction, ← h.last]
        omega

/-- The names of the records of a fresh allocator count down from the last id. -/
theorem Numbered.scopeName (h : t.Numbered .descending) {k : Nat} {c : Call}
    (hc : t.calls[k]? = some c) : c.scopeName = Anonymous.name (UInt32.ofNat (2 ^ 32 - 1 - k)) := by
  have hname : (t.calls.map Call.scopeName)[k]? = some c.scopeName := by
    rw [List.getElem?_map, hc]
    rfl
  obtain ⟨id, hid, hdistance⟩ := h.name k c.scopeName hname
  have hlt := id.toNat_lt
  have hnat : id = UInt32.ofNat (2 ^ 32 - 1 - k) := by
    apply UInt32.toNat_inj.mp
    rw [Allocator.remaining_descending] at hdistance
    simp only [Allocator.descending, Direction.distance, UInt32.toNat_sub, UInt32.reduceToNat,
      UInt32.toNat_ofNat'] at hdistance ⊢
    omega
  rw [hid, hnat]

theorem Moves.numbered (h : Moves s t t') (hnumbered : Numbered start t) : Numbered start t' :=
  h.invariant (fun _ d hu => numbered_define hu d) (fun hrecord hu => numbered_record hu hrecord)
    hnumbered

end Table

/-! ## Runs -/

variable {sources : List Scope} {t t' : Table}

theorem Reaches.numbered {start : Allocator} (h : Reaches sources t t')
    (hnumbered : t.Numbered start) : t'.Numbered start :=
  h.of_moves (fun hmoves hu => hmoves.numbered hu)
    (fun _ _ _ hu => ⟨hu.direction, hu.last, hu.remaining, hu.name⟩) hnumbered

theorem keyed_start (settings : Settings) : Table.Keyed (Stage.macros.start settings) :=
  List.nodup_nil

theorem numbered_start (settings : Settings) :
    Table.Numbered settings.callIds (Stage.macros.start settings) :=
  ⟨rfl, rfl, Nat.zero_add _, fun _ _ hk => by cases hk⟩

end Packwright.Macro
