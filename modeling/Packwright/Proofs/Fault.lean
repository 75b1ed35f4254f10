import Packwright.Proofs.Macro.Trace

/-! # Faults of stages

A compilation fails with a fault of its source, of its receiver or of a stage. The stages report six
kinds of faults, all about macros and ids, and hand on the fault of the source
(`fault_of_flow`). Four of them end a pass over a scope. An unknown macro is reported only once no
scope is pending any more (`trace_ends`), and blocks fail for want of ids only.
-/

namespace Packwright

/-- Whether a fault is one that the stages of the compiler report. -/
def Fault.isStageFault : Fault → Bool
  | .unknownMacro .. | .emptyCall _ | .emptyDefinition _ | .expansionLimit .. | .callsExhausted ..
  | .blocksExhausted _ => true
  | _ => false

/-- Whether a fault is one that a line of a scope leads to. -/
def Fault.isLineFault : Fault → Bool
  | .emptyCall _ | .emptyDefinition _ | .callsExhausted .. => true
  | _ => false

/-- Whether a fault is one that ends a pass over a scope. -/
def Fault.isPassFault : Fault → Bool
  | .emptyCall _ | .emptyDefinition _ | .expansionLimit .. | .callsExhausted .. => true
  | _ => false

/-- Whether a fault is one that the macro stage reports. -/
def Fault.isMacroFault : Fault → Bool
  | .unknownMacro .. => true
  | fault => fault.isPassFault

theorem Fault.isPassFault_of_isLineFault {fault : Fault} (h : fault.isLineFault = true) :
    fault.isPassFault = true := by
  cases fault with
  | emptyCall | emptyDefinition | callsExhausted => rfl
  | _ => cases h

theorem Fault.isStageFault_of_isMacroFault {fault : Fault} (h : fault.isMacroFault = true) :
    fault.isStageFault = true := by
  cases fault with
  | unknownMacro | emptyCall | emptyDefinition | expansionLimit | callsExhausted => rfl
  | _ => cases h

namespace Macro

namespace Table

theorem isLineFault_resolve {t t' : Table} {s : Scope} {site : CallSite} {fault : Fault}
    (h : t.resolve s site = (t', .error fault)) : fault.isLineFault = true := by
  cases resolves_of_resolve h with
  | empty => rfl
  | exhausted _ hrecord =>
      unfold record at hrecord
      split at hrecord
      next => cases hrecord; rfl
      next =>
        dsimp only at hrecord
        split at hrecord <;> cases hrecord

theorem isLineFault_expandLines {t t' : Table} {s : Scope} {lines : List Text} {fault : Fault}
    (h : t.expandLines s lines = (t', .error fault)) : fault.isLineFault = true := by
  fun_induction expandLines t s lines generalizing t' with
  | case1 => cases h
  | case2 => cases h; rfl
  | case3 t line rest macroName params hheader depth =>
      rename_i isBody ih
      exact ih h
  | case4 t line rest hheader hsite t₁ result hrest ih =>
      obtain ⟨rfl, hresult⟩ := Prod.mk.inj h
      cases result with
      | error fault' => cases hresult; exact ih hrest
      | ok y => cases hresult
  | case5 t line rest hheader site hsite t₁ fault' hresolve =>
      cases h
      exact isLineFault_resolve hresolve
  | case6 t line rest hheader site hsite t₁ y hresolve t₂ result hrest ih =>
      obtain ⟨rfl, hresult⟩ := Prod.mk.inj h
      cases result with
      | error fault' => cases hresult; exact ih hrest
      | ok z => cases hresult

end Table

theorem Pass.isPassFault {p : Pass} {fault : Fault} (h : p.fault? = some fault) :
    fault.isPassFault = true := by
  have hends := p.ends
  unfold Pass.fault? at h
  split at h
  next => cases h
  next fault' hresult =>
    obtain rfl := Option.some.inj h
    rw [hresult] at hends
    generalize p.result.1 = t at hends
    cases hends with
    | failed hexpansion =>
        exact Fault.isPassFault_of_isLineFault (Table.isLineFault_expandLines hexpansion)
    | limited => rfl

/-- How a run ends on its own: with the fault of a pass, or with nothing pending and the report of a
call that is left over, if there is one. -/
def Trace.Ends (r : Trace) : Prop :=
  (∃ fault, r.fault = some fault ∧ fault.isPassFault = true) ∨
    (r.table.pending = [] ∧ r.fault = r.table.unresolved)

theorem Trace.Ends.isMacroFault {r : Trace} (h : r.Ends) {fault : Fault}
    (hfault : r.fault = some fault) : fault.isMacroFault = true := by
  rcases h with ⟨fault', hpass, hkind⟩ | ⟨-, hunresolved⟩
  · obtain rfl := Option.some.inj (hpass.symm.trans hfault)
    cases fault' with
    | unknownMacro => rfl
    | _ => exact hkind
  · obtain ⟨c, -, rfl⟩ := Option.map_eq_some_iff.mp (hunresolved.symm.trans hfault)
    rfl

namespace Table

theorem settle_ends (t : Table) : t.settle.Ends := by
  fun_induction settle t with
  | case1 t work rest hpending pass fault hfault => exact .inl ⟨fault, rfl, pass.isPassFault hfault⟩
  | case2 t work rest hpending pass hfault _ ih => exact ih
  | case3 t hpending hclose _ ih => exact ih
  | case4 t hpending hclose => exact .inr ⟨hpending, rfl⟩

/-- A run of the macro stage ends with the fault that comes in, or on its own. -/
theorem trace_ends (t : Table) (fault : Option Fault) (sources : List Scope) :
    (∃ f, fault = some f ∧ (t.trace fault sources).fault = some f) ∨
      (t.trace fault sources).Ends := by
  induction sources generalizing t with
  | nil =>
      cases fault with
      | some fault => exact .inl ⟨fault, rfl, rfl⟩
      | none => exact .inr t.settle_ends
  | cons s rest ih =>
      rw [trace]
      cases hfault : (Pass.mk t ⟨s, 0⟩).fault? with
      | some fault' => exact .inr (.inl ⟨fault', rfl, Pass.isPassFault hfault⟩)
      | none => exact ih _

/-- The fault of a pass that ends the rest of a run is that of one of its passes. -/
theorem exists_fault_of_settle (t : Table) {fault : Fault} (h : t.settle.fault = some fault)
    (hkind : fault.isPassFault = true) : ∃ p ∈ t.settle.passes, p.fault? = some fault := by
  fun_induction settle t with
  | case1 t work rest hpending pass fault' hfault =>
      exact ⟨pass, List.mem_cons_self, hfault.trans h⟩
  | case2 t work rest hpending pass hfault _ ih =>
      obtain ⟨p, hp, hpfault⟩ := ih h
      exact ⟨p, List.mem_cons_of_mem _ hp, hpfault⟩
  | case3 t hpending hclose _ ih => exact ih h
  | case4 t hpending hclose =>
      obtain ⟨c, -, rfl⟩ := Option.map_eq_some_iff.mp h
      cases hkind

/-- The fault of a pass that ends a run is that of one of its passes. -/
theorem exists_fault_of_trace (t : Table) (sources : List Scope) {fault : Fault}
    (h : (t.trace none sources).fault = some fault) (hkind : fault.isPassFault = true) :
    ∃ p ∈ (t.trace none sources).passes, p.fault? = some fault := by
  induction sources generalizing t with
  | nil => exact t.exists_fault_of_settle h hkind
  | cons s rest ih =>
      rw [trace] at h ⊢
      cases hfault : (Pass.mk t ⟨s, 0⟩).fault? with
      | some fault' =>
          simp only [hfault] at h ⊢
          exact ⟨_, List.mem_cons_self, hfault.trans h⟩
      | none =>
          simp only [hfault] at h ⊢
          obtain ⟨p, hp, hpfault⟩ := ih _ h
          exact ⟨p, List.mem_cons_of_mem _ hp, hpfault⟩

/-- A run of the macro stage fails with the fault that comes in or with one of its own. -/
theorem fault_of_trace (t : Table) (fault : Option Fault) (sources : List Scope) {f : Fault}
    (h : (t.trace fault sources).fault = some f) : fault = some f ∨ f.isStageFault = true := by
  rcases t.trace_ends fault sources with ⟨f', hf', hfault⟩ | hends
  · exact .inl (hf'.trans (hfault.symm.trans h))
  · exact .inr (Fault.isStageFault_of_isMacroFault (hends.isMacroFault h))

end Table

end Macro

namespace Block

theorem exhausted_of_draw {l l' : Lowering} {parent : Text} {fault : Fault}
    (h : l.draw parent = (l', .error fault)) : ∃ scope, fault = .blocksExhausted scope := by
  unfold Lowering.draw at h
  split at h
  next =>
    cases h
    exact ⟨parent, rfl⟩
  next => cases h

theorem exhausted_of_enter {l l' : Lowering} {parent : Text} {fault : Fault}
    (h : l.enter parent = (l', .error fault)) : ∃ scope, fault = .blocksExhausted scope := by
  unfold Lowering.enter at h
  split at h
  next => exact exhausted_of_draw h
  next => cases h

theorem exhausted_of_leave {l l' : Lowering} {ns : Namespace} {parent name content : Text}
    {fault : Fault} (h : l.leave ns parent name content = (l', .error fault)) :
    ∃ scope, fault = .blocksExhausted scope := by
  unfold Lowering.leave at h
  split at h
  next => cases h
  next =>
    split at h
    next => cases h
    next =>
      split at h
      next hdraw =>
        cases h
        exact exhausted_of_draw hdraw
      next => cases h

theorem exhausted_of_lowerGroups {ns : Namespace} {parent : Text} {l l' : Lowering}
    {gs : List Group} {fault : Fault} (h : lowerGroups ns parent l gs = (l', .error fault)) :
    ∃ scope, fault = .blocksExhausted scope := by
  fun_induction lowerGroups ns parent l gs generalizing l' with
  | case1 => cases h
  | case2 parent l g gs hempty l₁ result hresult ih =>
      obtain ⟨rfl, hfault⟩ := Prod.mk.inj h
      cases result with
      | error fault' => cases hfault; exact ih hresult
      | ok lines => cases hfault
  | case3 parent l g gs hempty l₁ fault' henter =>
      cases h
      exact exhausted_of_enter henter
  | case4 parent l g gs hempty l₁ name henter l₂ fault' hbody ih =>
      cases h
      exact ih hbody
  | case5 parent l g gs hempty l₁ name henter l₂ body hbody l₃ fault' hleave ih =>
      cases h
      exact exhausted_of_leave hleave
  | case6 parent l g gs hempty l₁ name henter l₂ body hbody l₃ reference hleave l₄ result hresult
      ihbody ihrest =>
      obtain ⟨rfl, hfault⟩ := Prod.mk.inj h
      cases result with
      | error fault' => cases hfault; exact ihrest hresult
      | ok lines => cases hfault

theorem exhausted_of_accept {m : Memory} {s : Scope} {fault : Fault}
    (h : (accept m s).fault = some fault) : ∃ scope, fault = .blocksExhausted scope := by
  unfold accept lower at h
  cases hresult : lowerGroups s.ns s.reference ⟨m, [], []⟩ (groups s.lines) with
  | mk l result =>
      rw [hresult] at h
      cases result with
      | error fault' =>
          obtain rfl : fault' = fault := Option.some.inj h
          exact exhausted_of_lowerGroups hresult
      | ok lines => cases h

/-- A run of the block stage fails with the fault that comes in or for want of ids. -/
theorem fault_of_transform (m : Memory) (fault : Option Fault) (es : List Event) {f : Fault}
    (h : (Stage.transform .blocks m fault es).2.fault = some f) :
    fault = some f ∨ ∃ scope, f = .blocksExhausted scope := by
  induction es generalizing m with
  | nil =>
      cases fault with
      | some fault => exact .inl h
      | none =>
          rw [Stage.transform, Stage.drain_of_none rfl] at h
          cases h
  | cons event es ih =>
      cases event with
      | note n => exact ih m h
      | scope s =>
          cases hfault : (Stage.blocks.accept m s).fault with
          | some fault' =>
              rw [Stage.transform_scope_of_fault hfault] at h
              obtain rfl := Option.some.inj h
              exact .inr (exhausted_of_accept hfault)
          | none =>
              rw [Stage.transform_scope_of_none hfault] at h
              exact ih _ h

end Block

/-- A compilation without its receiver fails with the fault of its source or with one of a stage. -/
theorem fault_of_flow (m : Pipeline.Memory Stage.standard) (f : Flow) {fault : Fault}
    (h : (Pipeline.flow Stage.standard m f).2.fault = some fault) :
    f.fault = some fault ∨ fault.isStageFault = true := by
  obtain ⟨_, -, hcomments⟩ := Stage.comments.exists_change nofun nofun
  obtain ⟨_, -, hsubstitutions⟩ := Stage.substitutions.exists_change nofun nofun
  obtain ⟨_, -, hback⟩ := Stage.back.exists_change nofun nofun
  rw [Pipeline.flow_standard, (hback _ _ _).2, (hsubstitutions _ _ _).2] at h
  rcases Block.fault_of_transform _ _ _ h with h | ⟨scope, rfl⟩
  · rw [(Macro.Table.trace_describes _ _).fault] at h
    rcases Macro.Table.fault_of_trace _ _ _ h with h | h
    · exact .inl ((hcomments _ _ _).2.symm.trans h)
    · exact .inr h
  · exact .inr rfl

end Packwright
