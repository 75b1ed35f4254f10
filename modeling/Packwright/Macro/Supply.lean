import Packwright.Macro.Expansion

/-! # The supply of a macro table

Expansion ends because it uses up a finite supply. A pending scope holds the passes left to it, and
a call that waits, or an id not drawn yet, stands for one pending scope more. Nothing a pass does
adds to the supply, and each step after the last source scope takes something away.
-/

namespace Packwright.Macro

/-- The passes left to a pending scope, and the step that ends it. -/
def Pending.load (limit : Nat) (p : Pending) : Nat := limit - p.passes + 1

/-- The load of all pending scopes. -/
def Pending.loads (limit : Nat) : List Pending → Nat
  | [] => 0
  | p :: ps => p.load limit + loads limit ps

@[simp] theorem Pending.loads_cons (limit : Nat) (p : Pending) (ps : List Pending) :
    loads limit (p :: ps) = p.load limit + loads limit ps := rfl

/-- Scopes that no pass has expanded have all their passes left. -/
theorem Pending.loads_append_of_new {limit : Nat} {ps : List Pending} (h : ∀ p ∈ ps, p.passes = 0)
    (rest : List Pending) :
    loads limit (ps ++ rest) = ps.length * (limit + 1) + loads limit rest := by
  induction ps with
  | nil => simp
  | cons p ps ih =>
    have hp : p.load limit = limit + 1 := by simp [load, h p List.mem_cons_self]
    rw [List.cons_append, loads_cons, ih fun q hq => h q (List.mem_cons_of_mem _ hq), hp,
      List.length_cons, Nat.succ_mul]
    omega

namespace Table

/-- The number of calls whose function is still to be made. -/
def waiting (t : Table) : Nat := t.calls.countP fun c => !c.generated

/-- The supply left in a table. -/
def load (t : Table) : Nat :=
  Pending.loads t.limit t.pending + (t.limit + 2) * (t.waiting + t.ids.remaining)

@[simp] theorem limit_note (t : Table) (n : Note) : (t.note n).limit = t.limit := rfl

@[simp] theorem load_note (t : Table) (n : Note) : (t.note n).load = t.load := rfl

@[simp] theorem limit_generate (t : Table) (d : Definition) : (t.generate d).limit = t.limit := rfl

theorem waiting_generate (t : Table) (d : Definition) :
    (t.generate d).waiting + (t.calls.filter (Call.waitsFor d.name)).length = t.waiting := by
  simp only [waiting, generate, List.countP_map]
  induction t.calls with
  | nil => rfl
  | cons c cs ih =>
    cases hwait : c.waitsFor d.name with
    | true =>
      have hgen : c.generated = false := by
        simp only [Call.waitsFor, Bool.and_eq_true, Bool.not_eq_true'] at hwait
        exact hwait.2
      simp [hwait, hgen]
      omega
    | false =>
      cases hgen : c.generated <;> simp [hwait, hgen] <;> omega

theorem load_generate (t : Table) (d : Definition) :
    (t.generate d).load + (t.calls.filter (Call.waitsFor d.name)).length = t.load := by
  have hwait := waiting_generate t d
  have hpending : Pending.loads t.limit (t.generate d).pending
      = (t.calls.filter (Call.waitsFor d.name)).length * (t.limit + 1)
        + Pending.loads t.limit t.pending := by
    rw [generate, Pending.loads_append_of_new ?_, List.length_reverse, List.length_map]
    simp only [List.mem_reverse, List.mem_map]
    rintro _ ⟨c, _, rfl⟩
    rfl
  have hids : (t.generate d).ids = t.ids := rfl
  simp only [load, limit_generate, hpending, hids]
  generalize (t.calls.filter (Call.waitsFor d.name)).length = w at *
  rw [← hwait]
  have : (t.limit + 2) * ((t.generate d).waiting + w + t.ids.remaining)
      = (t.limit + 2) * ((t.generate d).waiting + t.ids.remaining) + w * (t.limit + 1) + w := by
    rw [Nat.add_right_comm, Nat.mul_add, Nat.mul_comm (t.limit + 2) w, Nat.mul_succ w (t.limit + 1),
      Nat.add_assoc]
  omega

theorem load_define_le (t : Table) (d : Definition) :
    (t.define d).limit = t.limit ∧ (t.define d).load ≤ t.load := by
  unfold define
  split
  next => exact ⟨rfl, Nat.le_refl _⟩
  next =>
    refine ⟨rfl, ?_⟩
    have := load_generate ({ t with definitions := t.definitions ++ [d] }.note
      (.macroDefined d.name d.params.length d.separate d.definedIn)) d
    have hload : ({ t with definitions := t.definitions ++ [d] }.note
      (.macroDefined d.name d.params.length d.separate d.definedIn)).load = t.load := rfl
    omega

theorem load_record_le (t : Table) (s : Scope) (callee : Text) (args : List Text) :
    (t.record s callee args).1.limit = t.limit ∧ (t.record s callee args).1.load ≤ t.load := by
  unfold record
  split
  next => exact ⟨rfl, Nat.le_refl _⟩
  next name ids hdraw =>
    have hids := Allocator.remaining_draw hdraw
    have hmul : (t.limit + 2) * (t.waiting + t.ids.remaining)
        = (t.limit + 2) * (t.waiting + ids.remaining) + (t.limit + 2) := by
      rw [← hids, ← Nat.add_assoc, Nat.mul_succ]
    dsimp only
    split
    next d hfind =>
      refine ⟨rfl, ?_⟩
      simp only [load, note, waiting, List.countP_append, Pending.loads_cons,
        Pending.load] at hmul ⊢
      simp at hmul ⊢
      omega
    next hfind =>
      refine ⟨rfl, Nat.le_of_eq ?_⟩
      simp only [load, note, waiting, List.countP_append] at hmul ⊢
      rw [show ∀ c : Call, c.generated = false → [c].countP (fun c => !c.generated) = 1 from
        fun c h => by simp [h], Nat.add_right_comm, Nat.mul_succ]
      · omega
      · rfl

theorem load_resolve_le (t : Table) (s : Scope) (site : CallSite) :
    (t.resolve s site).1.limit = t.limit ∧ (t.resolve s site).1.load ≤ t.load := by
  unfold resolve
  split
  next => exact ⟨rfl, Nat.le_refl _⟩
  next callee args _ =>
    split
    next => exact ⟨rfl, Nat.le_refl _⟩
    next =>
      split
      next => exact ⟨rfl, Nat.le_refl _⟩
      next =>
        have hrecord := load_record_le t s callee args
        split
        next h => rw [h] at hrecord; exact hrecord
        next h => rw [h] at hrecord; exact hrecord

theorem load_expandLines_le (t : Table) (s : Scope) (lines : List Text) :
    (t.expandLines s lines).1.limit = t.limit ∧ (t.expandLines s lines).1.load ≤ t.load := by
  fun_induction expandLines t s lines with
  | case1 => exact ⟨rfl, Nat.le_refl _⟩
  | case2 => exact ⟨rfl, Nat.le_refl _⟩
  | case3 t line rest name params _ depth isBody ih =>
    have hdefine := load_define_le t (.read s.reference name params depth (rest.takeWhile isBody))
    exact ⟨ih.1.trans hdefine.1, Nat.le_trans ih.2 hdefine.2⟩
  | case4 t line rest _ _ t' result h ih => rw [h] at ih; exact ih
  | case5 t line rest _ site _ t' fault h =>
    have hresolve := load_resolve_le t s site
    rw [h] at hresolve
    exact hresolve
  | case6 t line rest _ site _ t' expanded h t'' result h' ih =>
    have hresolve := load_resolve_le t s site
    rw [h] at hresolve
    rw [h'] at ih
    exact ⟨ih.1.trans hresolve.1, Nat.le_trans ih.2 hresolve.2⟩

theorem load_process_le (t : Table) (p : Pending) :
    (t.process p).1.limit = t.limit ∧ (t.process p).1.load ≤ t.load + (t.limit - p.passes) := by
  have hlines := load_expandLines_le t p.scope p.scope.lines
  unfold process
  split
  next t' _ h => rw [h] at hlines; exact ⟨hlines.1, Nat.le_trans hlines.2 (Nat.le_add_right _ _)⟩
  next t' expanded h =>
    rw [h] at hlines
    obtain ⟨hlimit, hload⟩ := hlines
    dsimp only at hlimit hload ⊢
    split
    next => exact ⟨hlimit, Nat.le_trans hload (Nat.le_add_right _ _)⟩
    next =>
      split
      next => exact ⟨hlimit, Nat.le_trans hload (Nat.le_add_right _ _)⟩
      next hle =>
        refine ⟨hlimit, ?_⟩
        simp only [load, waiting, Pending.loads_cons, Pending.load] at hload ⊢
        omega

theorem load_foldl_generate (ds : List Definition) (t : Table) :
    (ds.foldl generate t).limit = t.limit ∧
      (ds.foldl generate t).load + t.waiting = t.load + (ds.foldl generate t).waiting := by
  induction ds generalizing t with
  | nil => exact ⟨rfl, rfl⟩
  | cons d ds ih =>
    have hload := load_generate t d
    have hwait := waiting_generate t d
    have hrest := ih (t.generate d)
    refine ⟨hrest.1, ?_⟩
    have := hrest.2
    simp only [List.foldl_cons]
    omega

theorem waiting_foldl_generate_lt {ds : List Definition} {t : Table} {d : Definition} {c : Call}
    (hd : d ∈ ds) (hc : c ∈ t.calls) (hwait : c.waitsFor d.name = true) :
    (ds.foldl generate t).waiting < t.waiting := by
  induction ds generalizing t with
  | nil => cases hd
  | cons e es ih =>
    have hle : (es.foldl generate (t.generate e)).waiting ≤ (t.generate e).waiting := by
      clear ih hd
      generalize t.generate e = u
      induction es generalizing u with
      | nil => exact Nat.le_refl _
      | cons f fs ih =>
        have := waiting_generate u f
        exact Nat.le_trans (ih (u.generate f)) (by omega)
    have hstep := waiting_generate t e
    simp only [List.foldl_cons]
    by_cases hnone : t.calls.filter (Call.waitsFor e.name) = []
    · have hcalls : (t.generate e).calls = t.calls := by
        simp only [generate]
        rw [List.filter_eq_nil_iff] at hnone
        exact (List.map_congr_left fun c hc => if_neg (hnone c hc)).trans (List.map_id _)
      have hde : d ∈ es := by
        rcases List.mem_cons.mp hd with rfl | h
        · rw [List.filter_eq_nil_iff] at hnone
          exact absurd hwait (hnone c hc)
        · exact h
      have := ih hde (hcalls ▸ hc)
      simp only [hnone, List.length_nil] at hstep
      omega
    · have := List.length_pos_iff.mpr hnone
      omega

/-- Closing a table that can be closed uses up supply. -/
theorem load_close_lt {t : Table} (h : t.canClose = true) : t.close.load < t.load := by
  simp only [canClose, List.any_eq_true, Bool.and_eq_true, Bool.not_eq_true'] at h
  obtain ⟨c, hc, hgen, hfind⟩ := h
  obtain ⟨d, hd⟩ := Option.isSome_iff_exists.mp hfind
  have hname : d.name = c.callee := by simpa [find?] using List.find?_some hd
  have hlt := waiting_foldl_generate_lt (List.mem_of_find?_eq_some hd) hc
    (show c.waitsFor d.name = true by simp [Call.waitsFor, hname, hgen])
  have := (load_foldl_generate t.definitions t).2
  unfold close
  omega

/-- Expanding the next pending scope uses up supply. -/
theorem load_process_lt {t : Table} {p : Pending} {rest : List Pending}
    (h : t.pending = p :: rest) : ({ t with pending := rest }.process p).1.load < t.load := by
  have hprocess := (load_process_le { t with pending := rest } p).2
  have hload : t.load = ({ t with pending := rest } : Table).load + (t.limit - p.passes + 1) := by
    simp only [load, waiting, h, Pending.loads_cons, Pending.load]
    omega
  dsimp only at hprocess
  omega

end Table

end Packwright.Macro
