import Mathlib.Data.List.Nodup
import Packwright.Proofs.Anonymous
import Packwright.Proofs.Flow

/-! # Functions made for blocks

Lowering groups of lines without a fault goes from group to group, and into each block before the
rest (`Lowers`). A block has a name drawn for it when it is entered or left, or shares the function
of an equal block. So the functions made on the way have names that were not used before, and no two
have the same (`Lowers.grows`), and every shared function is one that was made (`Known`).
-/

namespace Packwright.Block

/-- Lowering groups without a fault: where it starts, what it lowers, where it ends and the lines
it keeps. -/
inductive Lowers (ns : Namespace) :
    Text → Lowering → List Group → Lowering → List Text → Prop where
  | nil (parent : Text) (l : Lowering) : Lowers ns parent l [] l []
  | line {parent : Text} {l l' : Lowering} {g : Group} {gs : List Group} {lines : List Text}
      (hblock : g.block = []) (hrest : Lowers ns parent l gs l' lines) :
      Lowers ns parent l (g :: gs) l' (g.head.toList ++ lines)
  | block {parent name reference : Text} {l l₁ l₂ l₃ l' : Lowering} {g : Group} {gs : List Group}
      {body lines : List Text} (hblock : g.block ≠ [])
      (henter : l.enter parent = (l₁, .ok name))
      (hbody : Lowers ns (ns.reference name) l₁ (groups (Text.lines g.text)) l₂ body)
      (hleave : l₂.leave ns parent name (Text.unlines body) = (l₃, .ok reference))
      (hrest : Lowers ns parent l₃ gs l' lines) :
      Lowers ns parent l (g :: gs) l' (g.calling reference :: lines)

theorem lowers_of_lowerGroups {ns : Namespace} {parent : Text} {l l' : Lowering} {gs : List Group}
    {lines : List Text} (h : lowerGroups ns parent l gs = (l', .ok lines)) :
    Lowers ns parent l gs l' lines := by
  fun_induction lowerGroups ns parent l gs generalizing l' lines with
  | case1 parent l =>
      cases h
      exact .nil parent l
  | case2 parent l g gs hempty l₁ result hresult ih =>
      obtain ⟨rfl, hlines⟩ := Prod.mk.inj h
      cases result with
      | error fault => cases hlines
      | ok rest =>
          cases hlines
          exact .line (List.isEmpty_iff.mp hempty) (ih hresult)
  | case3 | case4 | case5 => cases h
  | case6 parent l g gs hempty l₁ name henter l₂ body hbody l₃ reference hleave l₄ result hresult
      ihbody ihrest =>
      obtain ⟨rfl, hlines⟩ := Prod.mk.inj h
      cases result with
      | error fault => cases hlines
      | ok rest =>
          cases hlines
          exact .block (fun hnil => hempty (List.isEmpty_iff.mpr hnil)) henter (ihbody hbody) hleave
            (ihrest hresult)

namespace Lowering

variable {l l' : Lowering} {ns : Namespace} {parent name content : Text}

/-- Entering a block draws its name, unless the block may be shared. -/
theorem enter_ok (h : l.enter parent = (l', .ok name)) :
    (l.memory.shared = none ∧ ∃ ids, l.memory.ids.draw = some (name, ids) ∧
      l' = { l with memory := { l.memory with ids } }) ∨ (l.memory.shared ≠ none ∧ l' = l) := by
  unfold enter at h
  split at h
  next hshared =>
    unfold draw at h
    split at h
    next => cases h
    next ids hdraw =>
      cases h
      exact .inl ⟨hshared, ids, hdraw, rfl⟩
  next shared hshared =>
    cases h
    exact .inr ⟨by simp [hshared], rfl⟩

/-- Entering a block makes no function. -/
theorem made_of_enter (h : l.enter parent = (l', .ok name)) : l'.made = l.made := by
  rcases enter_ok h with ⟨-, ids, -, rfl⟩ | ⟨-, rfl⟩ <;> rfl

/-- Leaving a block adds a function of its own, finds a function to share, or adds one that may be
shared. -/
theorem leave_ok {reference : Text} (h : l.leave ns parent name content = (l', .ok reference)) :
    (l.memory.shared = none ∧ l'.memory = l.memory ∧ l'.made = l.made ++ [⟨ns, name, content⟩] ∧
      reference = ns.reference name) ∨
    ∃ shared, l.memory.shared = some shared ∧
      ((∃ name, shared.lookup (ns.name, content) = some name ∧ l'.memory = l.memory ∧
        l'.made = l.made ∧ reference = ns.reference name) ∨
      ∃ name ids, shared.lookup (ns.name, content) = none ∧ l.memory.ids.draw = some (name, ids) ∧
        l'.memory = ⟨ids, some (shared ++ [((ns.name, content), name)])⟩ ∧
        l'.made = l.made ++ [⟨ns, name, content⟩] ∧ reference = ns.reference name) := by
  unfold leave at h
  split at h
  next hshared =>
    cases h
    exact .inl ⟨hshared, rfl, rfl, rfl⟩
  next shared hshared =>
    refine .inr ⟨shared, hshared, ?_⟩
    split at h
    next name hlookup =>
      cases h
      exact .inl ⟨name, hlookup, rfl, rfl, rfl⟩
    next hlookup =>
      right
      unfold draw at h
      split at h
      next hdraw =>
        split at hdraw
        next => cases h
        next => cases hdraw
      next l₁ name hdraw =>
        split at hdraw
        next => cases hdraw
        next name ids hids =>
          cases hdraw
          cases h
          exact ⟨name, ids, hlookup, hids, rfl, rfl, rfl⟩

end Lowering

/-- The functions that a memory knows for sharing are among those made. -/
def Known (m : Memory) (made : List Scope) : Prop :=
  ∀ shared, m.shared = some shared → ∀ e ∈ shared,
    ∃ g ∈ made, g.ns.name = e.1.1 ∧ g.content = e.1.2 ∧ g.name = e.2

theorem Known.mono {m : Memory} {made made' : List Scope} (h : Known m made)
    (hsub : made ⊆ made') : Known m made' := by
  intro shared hshared e he
  obtain ⟨g, hg, hentry⟩ := h shared hshared e he
  exact ⟨g, hsub hg, hentry⟩

/-- Leaving a block answers with the reference of a function of its namespace that has its
content. -/
theorem Known.leave {l l' : Lowering} {ns : Namespace} {parent name content reference : Text}
    {made : List Scope} (h : Known l.memory made)
    (hleave : l.leave ns parent name content = (l', .ok reference)) (hmade : l'.made ⊆ made) :
    Known l'.memory made ∧
      ∃ g ∈ made, g.ns.name = ns.name ∧ g.reference = reference ∧ g.content = content := by
  rcases Lowering.leave_ok hleave with ⟨-, hmemory, hadded, rfl⟩ | ⟨shared, hshared, hcases⟩
  · refine ⟨hmemory ▸ h, _, hmade (hadded ▸ List.mem_append_right _ List.mem_cons_self), rfl, rfl,
      rfl⟩
  · rcases hcases with ⟨name, hlookup, hmemory, -, rfl⟩ | ⟨name, ids, -, -, hmemory, hadded, rfl⟩
    · obtain ⟨_, _, rfl, -⟩ := List.lookup_eq_some_iff.mp hlookup
      obtain ⟨g, hg, hns, hcontent, hname⟩ := h _ hshared _
        (List.mem_append_right _ List.mem_cons_self)
      refine ⟨hmemory ▸ h, g, hg, hns, ?_, hcontent⟩
      rw [Scope.reference, Namespace.reference, hns, hname]
      rfl
    · have hmem := hmade (hadded ▸ List.mem_append_right _ List.mem_cons_self)
      refine ⟨?_, _, hmem, rfl, rfl, rfl⟩
      rw [hmemory]
      intro shared' hshared' e he
      cases hshared'
      rcases List.mem_append.mp he with he | he
      · exact h shared hshared e he
      · obtain rfl := List.mem_singleton.mp he
        exact ⟨_, hmem, rfl, rfl, rfl⟩

theorem Known.enter {l l' : Lowering} {parent name : Text} {made : List Scope}
    (h : Known l.memory made) (henter : l.enter parent = (l', .ok name)) :
    Known l'.memory made := by
  rcases Lowering.enter_ok henter with ⟨-, ids, -, rfl⟩ | ⟨-, rfl⟩
  · exact h
  · exact h

/-- Leaving a block adds at most one function, which has its content. -/
theorem Lowering.exists_own_of_leave {l l' : Lowering} {ns : Namespace}
    {parent name content reference : Text}
    (h : l.leave ns parent name content = (l', .ok reference)) :
    ∃ own : Option Text, l'.made = l.made ++ own.toList.map (⟨ns, ·, content⟩) := by
  rcases leave_ok h with
    ⟨-, -, hmade, -⟩ | ⟨shared, -, ⟨_, -, -, hmade, -⟩ | ⟨_, _, -, -, -, hmade, -⟩⟩
  · exact ⟨some name, hmade⟩
  · exact ⟨none, hmade.trans (List.append_nil _).symm⟩
  · exact ⟨some _, hmade⟩

theorem Lowering.made_of_leave {l l' : Lowering} {ns : Namespace}
    {parent name content reference : Text}
    (h : l.leave ns parent name content = (l', .ok reference)) :
    l.made ⊆ l'.made ∧ ∀ z ∈ l'.made, z ∈ l.made ∨ z.content = content := by
  obtain ⟨own, hmade⟩ := exists_own_of_leave h
  rw [hmade]
  refine ⟨List.subset_append_left _ _, fun z hz => ?_⟩
  rcases List.mem_append.mp hz with hold | hnew
  · exact .inl hold
  · obtain ⟨_, -, rfl⟩ := List.mem_map.mp hnew
    exact .inr rfl

/-- A memory went on to another one while functions were made under fresh names. -/
structure Grows (m m' : Memory) (new : List Scope) : Prop where
  used : ∀ id, m.ids.Used id → m'.ids.Used id
  fresh : ∀ g ∈ new, ∃ id, g.name = Anonymous.name id ∧ ¬ m.ids.Used id ∧ m'.ids.Used id
  nodup : (new.map Scope.name).Nodup
  sharing : m'.shared = none ↔ m.shared = none

namespace Grows

variable {m m' m'' : Memory} {new new' : List Scope}

theorem refl (m : Memory) : Grows m m [] :=
  ⟨fun _ h => h, fun _ hg => (nomatch hg), List.nodup_nil, Iff.rfl⟩

theorem trans (h : Grows m m' new) (h' : Grows m' m'' new') : Grows m m'' (new ++ new') := by
  refine ⟨fun id hid => h'.used id (h.used id hid), fun g hg => ?_, ?_,
    h'.sharing.trans h.sharing⟩
  · rcases List.mem_append.mp hg with hg | hg
    · obtain ⟨id, hname, hunused, hused⟩ := h.fresh g hg
      exact ⟨id, hname, hunused, h'.used id hused⟩
    · obtain ⟨id, hname, hunused, hused⟩ := h'.fresh g hg
      exact ⟨id, hname, fun hid => hunused (h.used id hid), hused⟩
  · rw [List.map_append, List.nodup_append]
    refine ⟨h.nodup, h'.nodup, ?_⟩
    intro a ha b hb heq
    obtain ⟨g, hg, rfl⟩ := List.mem_map.mp ha
    obtain ⟨g', hg', rfl⟩ := List.mem_map.mp hb
    obtain ⟨id, hname, -, hused⟩ := h.fresh g hg
    obtain ⟨id', hname', hunused', -⟩ := h'.fresh g' hg'
    rw [hname, hname'] at heq
    exact hunused' (Anonymous.name_injective heq ▸ hused)

theorem perm (h : Grows m m' new) (hperm : new.Perm new') : Grows m m' new' := by
  refine ⟨h.used, ?_, (hperm.map Scope.name).nodup_iff.mp h.nodup, h.sharing⟩
  intro g hg
  exact h.fresh g (hperm.mem_iff.mpr hg)

/-- A name is drawn for one function. -/
theorem drawn {name : Text} {ids : Allocator} (hdraw : m.ids.draw = some (name, ids))
    (hids : m'.ids = ids) (hsharing : m'.shared = none ↔ m.shared = none) (ns : Namespace)
    (content : Text) : Grows m m' [⟨ns, name, content⟩] := by
  obtain ⟨id, rfl, hunused, hused, hkeep⟩ := Allocator.draw_fresh hdraw
  subst hids
  refine ⟨hkeep, ?_, List.nodup_singleton _, hsharing⟩
  intro g hg
  rw [List.mem_singleton.mp hg]
  exact ⟨id, rfl, hunused, hused⟩

/-- A block is entered, lowered and left: its function comes after those made inside it. -/
theorem block {ns : Namespace} {parent name content reference : Text} {l l₁ l₂ l₃ : Lowering}
    (henter : l.enter parent = (l₁, .ok name)) (hbody : Grows l₁.memory l₂.memory new)
    (hmade : l₂.made = l₁.made ++ new)
    (hleave : l₂.leave ns parent name content = (l₃, .ok reference)) :
    ∃ own, l₃.made = l.made ++ (new ++ own) ∧ Grows l.memory l₃.memory (new ++ own) ∧
      ∀ g ∈ own, g.ns = ns := by
  rcases Lowering.enter_ok henter with ⟨hshared, ids, hdraw, rfl⟩ | ⟨hshared, rfl⟩
  · have hnone := hbody.sharing.mpr hshared
    rcases Lowering.leave_ok hleave with ⟨-, hmemory, hadded, -⟩ | ⟨_, hsome, -⟩
    · refine ⟨[⟨ns, name, content⟩], ?_, ?_, ?_⟩
      · rw [hadded, hmade, List.append_assoc]
      · -- the name was drawn before the block was lowered, and its function is added behind
        rw [hmemory]
        have hown : Grows l.memory { l.memory with ids } [⟨ns, name, content⟩] := by
          apply drawn hdraw
          · rfl
          · rfl
        exact (hown.trans hbody).perm List.perm_append_comm
      · exact fun g hg => List.mem_singleton.mp hg ▸ rfl
    · rw [hnone] at hsome
      cases hsome
  · rcases Lowering.leave_ok hleave with ⟨hnone, -⟩ | ⟨shared, hsome, hcases⟩
    · exact absurd (hbody.sharing.mp hnone) hshared
    · rcases hcases with ⟨_, -, hmemory, hkept, -⟩ | ⟨name, ids, -, hdraw, hmemory, hadded, -⟩
      · refine ⟨[], ?_, ?_, fun _ hg => (nomatch hg)⟩
        · rw [hkept, hmade, List.append_nil]
        · rw [hmemory, List.append_nil]
          exact hbody
      · refine ⟨[⟨ns, name, content⟩], ?_, ?_, ?_⟩
        · rw [hadded, hmade, List.append_assoc]
        · have hids : l₃.memory.ids = ids := by rw [hmemory]
          have hmode : l₃.memory.shared = none ↔ l₂.memory.shared = none := by
            rw [hmemory, hsome]
            exact ⟨nofun, nofun⟩
          exact hbody.trans (drawn hdraw hids hmode ns content)
        · exact fun g hg => List.mem_singleton.mp hg ▸ rfl

end Grows

/-- The functions made while groups are lowered have fresh names in the namespace of the scope. -/
theorem Lowers.grows {ns : Namespace} {parent : Text} {l l' : Lowering} {gs : List Group}
    {lines : List Text} (h : Lowers ns parent l gs l' lines) :
    ∃ new, l'.made = l.made ++ new ∧ Grows l.memory l'.memory new ∧ ∀ g ∈ new, g.ns = ns := by
  induction h with
  | nil parent l => exact ⟨[], (List.append_nil _).symm, .refl _, fun _ hg => (nomatch hg)⟩
  | line _ _ ih => exact ih
  | @block parent name reference l l₁ l₂ l₃ l' g gs body lines _ henter _ hleave _ ihbody ihrest =>
      obtain ⟨new, hnew, hgrows, hns⟩ := ihbody
      obtain ⟨rest, hrest, hgrows', hns'⟩ := ihrest
      obtain ⟨own, hmade, hblock, hown⟩ := Grows.block henter hgrows hnew hleave
      refine ⟨new ++ own ++ rest, ?_, hblock.trans hgrows', ?_⟩
      · rw [hrest, hmade, List.append_assoc]
      · intro g hg
        simp only [List.mem_append] at hg
        rcases hg with (hg | hg) | hg
        · exact hns g hg
        · exact hown g hg
        · exact hns' g hg

/-! ## Runs -/

theorem lowers_of_lower {m : Memory} {s z : Scope} {l : Lowering}
    (h : lower m s = (l, .ok z)) :
    ∃ lines, Lowers s.ns s.reference ⟨m, [], []⟩ (groups s.lines) l lines ∧
      z = s.withContent (Text.unlines lines) := by
  unfold lower at h
  cases hresult : lowerGroups s.ns s.reference ⟨m, [], []⟩ (groups s.lines) with
  | mk l' result =>
      rw [hresult] at h
      obtain ⟨rfl, hz⟩ := Prod.mk.inj h
      cases result with
      | error fault => cases hz
      | ok lines =>
          cases hz
          exact ⟨lines, lowers_of_lowerGroups hresult, rfl⟩

/-- What lowering a scope hands on: the functions of its blocks, then the scope itself. -/
structure Output where
  made : List Scope
  scope : Scope

def Output.scopes (o : Output) : List Scope := o.made ++ [o.scope]

/-- Lowering scopes one after the other without a fault. -/
inductive Runs : Memory → List Scope → Memory → List Output → Prop where
  | nil (m : Memory) : Runs m [] m []
  | cons {m m' : Memory} {s z : Scope} {l : Lowering} {rest : List Scope} {outs : List Output}
      (hlower : lower m s = (l, .ok z)) (hrest : Runs l.memory rest m' outs) :
      Runs m (s :: rest) m' (⟨l.made, z⟩ :: outs)

/-- The functions made in a run have fresh names. -/
theorem Runs.grows {m m' : Memory} {sources : List Scope} {outs : List Output}
    (h : Runs m sources m' outs) : Grows m m' (outs.flatMap Output.made) := by
  induction h with
  | nil m => exact .refl m
  | cons hlower _ ih =>
      obtain ⟨lines, hlowers, -⟩ := lowers_of_lower hlower
      obtain ⟨new, hnew, hgrows, -⟩ := hlowers.grows
      rw [List.flatMap_cons, hnew]
      exact hgrows.trans ih

theorem Runs.exists_ns {m m' : Memory} {sources : List Scope} {outs : List Output}
    (h : Runs m sources m' outs) : ∀ g ∈ outs.flatMap Output.made, ∃ s ∈ sources, g.ns = s.ns := by
  induction h with
  | nil => exact fun _ hg => (nomatch hg)
  | cons hlower _ ih =>
      obtain ⟨lines, hlowers, rfl⟩ := lowers_of_lower hlower
      obtain ⟨new, hnew, -, hns⟩ := hlowers.grows
      intro g hg
      rw [List.flatMap_cons, hnew] at hg
      rcases List.mem_append.mp hg with hg | hg
      · exact ⟨_, List.mem_cons_self, hns g hg⟩
      · obtain ⟨s, hs, heq⟩ := ih g hg
        exact ⟨s, List.mem_cons_of_mem _ hs, heq⟩

/-- The scopes that a run hands on keep their names, and the functions of their blocks lie in their
namespaces. -/
theorem Runs.forall₂ {m m' : Memory} {sources : List Scope} {outs : List Output}
    (h : Runs m sources m' outs) :
    List.Forall₂ (fun s out => out.scope.ns = s.ns ∧ out.scope.name = s.name ∧
      ∀ g ∈ out.made, g.ns = s.ns) sources outs := by
  induction h with
  | nil => exact .nil
  | cons hlower _ ih =>
      obtain ⟨lines, hlowers, rfl⟩ := lowers_of_lower hlower
      obtain ⟨new, hnew, -, hns⟩ := hlowers.grows
      refine .cons ⟨rfl, rfl, fun g hg => hns g ?_⟩ ih
      rw [hnew] at hg
      exact hg

theorem accept_of_error {m : Memory} {s : Scope} {l : Lowering} {fault : Fault}
    (h : lower m s = (l, .error fault)) :
    Stage.blocks.accept m s = ⟨l.memory, l.journal.map .note, some fault⟩ := by
  simp only [Stage.accept, accept, h]

theorem accept_of_ok {m : Memory} {s z : Scope} {l : Lowering} (h : lower m s = (l, .ok z)) :
    Stage.blocks.accept m s =
      ⟨l.memory, l.journal.map .note ++ (l.made ++ [z]).map .scope, none⟩ := by
  simp only [Stage.accept, accept, h]

/-- The flow of the block stage consists of the outputs for the scopes that it takes before a
fault. -/
theorem transform_blocks (m : Memory) (fault : Option Fault) (es : List Event) :
    ∃ m' taken outs, taken <+: (Flow.mk es none).scopes ∧ Runs m taken m' outs ∧
      (Stage.transform .blocks m fault es).2.scopes = outs.flatMap Output.scopes ∧
      ((Stage.transform .blocks m fault es).2.fault = none →
        taken = (Flow.mk es none).scopes) := by
  induction es generalizing m with
  | nil =>
      refine ⟨m, [], [], List.prefix_rfl, .nil m, ?_, fun _ => rfl⟩
      cases fault with
      | some fault => rfl
      | none => rw [Stage.transform, Stage.drain_of_none rfl]; rfl
  | cons event es ih =>
      cases event with
      | note n => exact ih m
      | scope s =>
          obtain ⟨⟨l, result⟩, hlower⟩ : ∃ r, lower m s = r := ⟨_, rfl⟩
          cases result with
          | error fault' =>
              have haccept := accept_of_error hlower
              rw [Stage.transform_scope_of_fault (congrArg Reaction.fault haccept), haccept]
              refine ⟨m, [], [], List.nil_prefix, .nil m, ?_, fun h => ?_⟩
              · exact Flow.scopes_notes l.journal _
              · exact absurd h (Option.some_ne_none _)
          | ok z =>
              have haccept := accept_of_ok hlower
              obtain ⟨m', taken, outs, htaken, hruns, hscopes, hend⟩ := ih l.memory
              rw [Stage.transform_scope_of_none (congrArg Reaction.fault haccept), haccept]
              refine ⟨m', s :: taken, _, ?_, .cons hlower hruns, ?_, fun h => ?_⟩
              · exact List.cons_prefix_cons.mpr ⟨rfl, htaken⟩
              · rw [Flow.scopes_preceded, Flow.scopes_notes_append, hscopes]
                rfl
              · exact congrArg (s :: ·) (hend h)

/-- A run of the block stage alone that ends without a fault takes all scopes. -/
theorem run_blocks {settings : Settings} {sources : List Scope}
    (h : (Stage.blocks.run settings sources).verdict = .more) :
    ∃ m outs, Runs (Stage.blocks.start settings) sources m outs ∧
      (Stage.blocks.run settings sources).state.2.scopes = outs.flatMap Output.scopes := by
  obtain ⟨hscopes, hverdict, -⟩ := Stage.run_eq .blocks settings sources
  obtain ⟨m, taken, outs, -, hruns, hflow, htaken⟩ := transform_blocks
    (Stage.blocks.start settings) none (sources.map .scope)
  rw [h] at hverdict
  cases hfault : (Stage.transform .blocks (Stage.blocks.start settings) none
      (sources.map .scope)).2.fault with
  | some fault =>
      rw [hfault] at hverdict
      cases hverdict
  | none =>
      obtain rfl : taken = sources := (htaken hfault).trans (Flow.scopes_ofScopes sources)
      exact ⟨m, outs, hruns, hscopes.trans hflow⟩

theorem known_start (settings : Settings) (made : List Scope) :
    Known (Stage.blocks.start settings) made := by
  intro shared hshared e he
  simp only [Stage.start] at hshared
  split at hshared
  next =>
    cases hshared
    cases he
  next => cases hshared

end Packwright.Block
