import Packwright.Proofs.Macro.Records

/-! # Names of the functions of calls

Every call has its name from the allocator of the table, and the allocator never hands out a name
twice. So the functions of calls have names of their own, at every point of a run
(`Reaches.named`).
-/

namespace Packwright.Macro

namespace Table

variable {start : Allocator} {t t' : Table} {s : Scope}

/-- The calls of a table have different names, all of them handed out since a run started with some
allocator. -/
structure Named (start : Allocator) (t : Table) : Prop where
  since : ∀ id, start.Used id → t.ids.Used id
  used : ∀ c ∈ t.calls, ∃ id, c.scopeName = Anonymous.name id ∧ ¬ start.Used id ∧ t.ids.Used id
  nodup : (t.calls.map Call.scopeName).Nodup

theorem named_define (h : Named start t) (d : Definition) : Named start (t.define d) := by
  have hids : (t.define d).ids = t.ids := by
    unfold define
    split <;> rfl
  have hnames : (t.define d).calls.map Call.scopeName = t.calls.map Call.scopeName :=
    map_calls_define (fun _ => rfl) t d
  refine ⟨hids ▸ h.since, fun c hc => ?_, hnames ▸ h.nodup⟩
  have hmem : c.scopeName ∈ t.calls.map Call.scopeName := hnames ▸ List.mem_map_of_mem hc
  obtain ⟨c', hc', hname⟩ := List.mem_map.mp hmem
  rw [← hname, hids]
  exact h.used c' hc'

theorem named_record {callee : Text} {args : List Text} {c : Call} (h : Named start t)
    (hrecord : t.record s callee args = (t', .ok c)) : Named start t' := by
  obtain ⟨ids, hdraw, -, hcases⟩ := record_eq hrecord
  obtain ⟨id, hname, hunused, hused, hkeep⟩ := Allocator.draw_fresh hdraw
  have hids : t'.ids = ids := by
    obtain ⟨d, -, rfl⟩ | ⟨-, rfl⟩ := hcases <;> rfl
  obtain ⟨c', hcalls, hbare, -⟩ := calls_record hrecord
  have hc' : c'.scopeName = c.scopeName := hbare ▸ rfl
  refine ⟨fun id' hid' => hids ▸ hkeep id' (h.since id' hid'), fun x hx => ?_, ?_⟩
  · rw [hids]
    rw [hcalls] at hx
    rcases List.mem_append.mp hx with hold | hnew
    · obtain ⟨id', hname', hsince', hused'⟩ := h.used x hold
      exact ⟨id', hname', hsince', hkeep id' hused'⟩
    · rw [List.mem_singleton.mp hnew]
      exact ⟨id, hc'.trans hname, fun hid => hunused (h.since id hid), hused⟩
  · rw [hcalls, List.map_append, List.map_singleton, List.nodup_append]
    refine ⟨h.nodup, List.nodup_singleton _, ?_⟩
    intro x hx y hy heq
    obtain ⟨c₀, hc₀, rfl⟩ := List.mem_map.mp hx
    obtain ⟨id', hname', -, hused'⟩ := h.used c₀ hc₀
    -- a call with the new name would have used its id before it was drawn
    rw [List.mem_singleton.mp hy, hc', hname, hname'] at heq
    exact hunused (Anonymous.name_injective heq ▸ hused')

theorem Moves.named (hmoves : Moves s t t') (h : Named start t) : Named start t' :=
  hmoves.invariant (fun _ d hu => named_define hu d) (fun hrecord hu => named_record hu hrecord) h

end Table

variable {start : Allocator}

theorem Reaches.named {sources : List Scope} {t t' : Table} (hreaches : Reaches sources t t')
    (h : t.Named start) : t'.Named start :=
  hreaches.of_moves (fun hmoves hu => hmoves.named hu)
    (fun _ _ _ hu => ⟨hu.since, hu.used, hu.nodup⟩) h

theorem named_start (settings : Settings) :
    Table.Named settings.callIds (Stage.macros.start settings) :=
  ⟨fun _ hid => hid, fun _ hc => (nomatch hc), List.nodup_nil⟩

end Packwright.Macro
