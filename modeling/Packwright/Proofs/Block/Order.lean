import Packwright.Proofs.Block.Recovery

/-! # Calls of blocks point backwards

Lowering hands on the functions of blocks before the scope that calls them, deepest first, and where
blocks share, a call may name a function that was made for an earlier scope. `writtenBy` lists what
a run hands on, each scope with the lines it was written from and so with the calls in them. Each
call names a function that was handed on before (`Backwards`), and where blocks do not share, each
function is called once (`calls_perm`).
-/

namespace Packwright.Block

open Text (ascii)

/-! ## What is written -/

/-- A line that lowering keeps: the line of a group, and the reference of the function that is
called behind it. -/
structure Kept where
  head : Option Text
  call : Option Text
  deriving DecidableEq, Repr

/-- The line as it is written. A call is the word `function` and the reference that is called,
behind the line if there is one. -/
def Kept.lines (k : Kept) : List Text :=
  match k.call with
  | none => k.head.toList
  | some reference =>
    match k.head with
    | some line => [line ++ ascii " function " ++ reference]
    | none => [ascii "function " ++ reference]

theorem Kept.lines_call (g : Group) (reference : Text) :
    Kept.lines ⟨g.head, some reference⟩ = [g.calling reference] := by
  have hword : ascii " " ++ Macro.functionWord ++ ascii " " = ascii " function " := rfl
  have hstart : Macro.functionWord ++ ascii " " = ascii "function " := rfl
  obtain ⟨head, block⟩ := g
  cases head with
  | none => simp only [lines, Group.calling, hstart]
  | some line => simp only [lines, Group.calling, ← hword, List.append_assoc]

/-- A scope that lowering hands on, the lines that it was written from, and whether it was made for
a block. -/
structure Written where
  scope : Scope
  lines : List Kept
  generated : Bool
  deriving DecidableEq, Repr

/-- The references of the functions that lowering called in a scope. -/
def Written.calls (w : Written) : List Text := w.lines.filterMap Kept.call

/-- The functions made while groups are lowered, with the calls in them, and the lines kept of the
groups themselves. -/
def writings (ns : Namespace) (parent : Text) (l : Lowering) (gs : List Group) :
    List Written × List Kept :=
  match gs with
  | [] => ([], [])
  | g :: gs =>
    if g.block.isEmpty then
      let rest := writings ns parent l gs
      (rest.1, ⟨g.head, none⟩ :: rest.2)
    else
      match l.enter parent with
      | (_, .error _) => ([], [])
      | (l₁, .ok name) =>
        let inside := writings ns (ns.reference name) l₁ (groups (Text.lines g.text))
        match lowerGroups ns (ns.reference name) l₁ (groups (Text.lines g.text)) with
        | (_, .error _) => ([], [])
        | (l₂, .ok body) =>
          match l₂.leave ns parent name (Text.unlines body) with
          | (_, .error _) => ([], [])
          | (l₃, .ok reference) =>
            let own := (l₃.made.drop l₂.made.length).map (⟨·, inside.2, true⟩)
            let rest := writings ns parent l₃ gs
            (inside.1 ++ own ++ rest.1, ⟨g.head, some reference⟩ :: rest.2)
termination_by weight gs
decreasing_by
  · exact weight_lt_cons g gs
  · exact weight_block_lt gs (by assumption)
  · exact weight_lt_cons g gs

/-- What lowering scopes one after the other hands on, up to a scope that cannot be lowered. -/
def writtenBy (m : Memory) : List Scope → List Written
  | [] => []
  | s :: rest =>
    match lower m s with
    | (l, .ok z) =>
      let w := writings s.ns s.reference ⟨m, [], []⟩ (groups s.lines)
      w.1 ++ ⟨z, w.2, false⟩ :: writtenBy l.memory rest
    | (_, .error _) => []

section

variable {ns : Namespace} {parent name reference : Text} {l l₁ l₂ l₃ l' : Lowering} {g : Group}
  {gs : List Group} {body lines : List Text}

theorem writings_nil : writings ns parent l [] = ([], []) := by rw [writings]

theorem writings_line (hblock : g.block = []) :
    writings ns parent l (g :: gs) =
      ((writings ns parent l gs).1, ⟨g.head, none⟩ :: (writings ns parent l gs).2) := by
  rw [writings, if_pos (List.isEmpty_iff.mpr hblock)]

theorem writings_block (hblock : g.block ≠ []) (henter : l.enter parent = (l₁, .ok name))
    (hbody : Lowers ns (ns.reference name) l₁ (groups (Text.lines g.text)) l₂ body)
    (hleave : l₂.leave ns parent name (Text.unlines body) = (l₃, .ok reference))
    {own : List Scope} (hown : l₃.made = l₂.made ++ own) (gs : List Group) :
    let inside := writings ns (ns.reference name) l₁ (groups (Text.lines g.text))
    let rest := writings ns parent l₃ gs
    writings ns parent l (g :: gs) =
      (inside.1 ++ own.map (⟨·, inside.2, true⟩) ++ rest.1,
        ⟨g.head, some reference⟩ :: rest.2) := by
  intro inside rest
  rw [writings, if_neg (fun hempty => hblock (List.isEmpty_iff.mp hempty)), henter]
  simp only [hbody.lowerGroups_eq, hleave, hown, List.drop_left]
  rfl

end

/-! ## Order -/

/-- A scope of a namespace can be called by a reference. -/
def Offers (scopes : List Scope) (ns : Namespace) (reference : Text) : Prop :=
  ∃ z ∈ scopes, z.ns.name = ns.name ∧ z.reference = reference

/-- Each scope calls only scopes of its namespace that were handed on before it, after those that
were handed on at the start. -/
def Backwards : List Scope → List Written → Prop
  | _, [] => True
  | earlier, w :: ws =>
    (∀ r ∈ w.calls, Offers earlier w.scope.ns r) ∧ Backwards (earlier ++ [w.scope]) ws

namespace Backwards

variable {earlier : List Scope} {ws ws' before after : List Written} {w : Written}

theorem append (h : Backwards earlier ws)
    (h' : Backwards (earlier ++ ws.map Written.scope) ws') : Backwards earlier (ws ++ ws') := by
  induction ws generalizing earlier with
  | nil => simpa using h'
  | cons w ws ih =>
      refine ⟨h.1, ih h.2 ?_⟩
      simpa using h'

/-- What was handed on before a scope offers all that the scope calls. -/
theorem offers (h : Backwards earlier (before ++ w :: after)) :
    ∀ r ∈ w.calls, Offers (earlier ++ before.map Written.scope) w.scope.ns r := by
  induction before generalizing earlier with
  | nil => simpa using h.1
  | cons b before ih => simpa using ih h.2

end Backwards

/-- What lowering groups writes is what it makes and keeps. -/
theorem Lowers.writes {ns : Namespace} {parent : Text} {l l' : Lowering} {gs : List Group}
    {lines : List Text} (h : Lowers ns parent l gs l' lines) :
    let w := writings ns parent l gs
    l'.made = l.made ++ w.1.map Written.scope ∧ lines = w.2.flatMap Kept.lines ∧
      ∀ z ∈ w.1, z.generated = true ∧ z.scope.ns = ns ∧
        z.scope.content = Text.unlines (z.lines.flatMap Kept.lines) := by
  induction h with
  | nil => simp [writings_nil]
  | line hblock _ ih =>
      obtain ⟨hmade, hlines, hwritten⟩ := ih
      rw [writings_line hblock]
      exact ⟨hmade, congrArg _ hlines, hwritten⟩
  | block hblock henter hbody hleave _ ihbody ihrest =>
      obtain ⟨own, hown⟩ := Lowering.exists_own_of_leave hleave
      obtain ⟨hmade₂, rfl, hinside⟩ := ihbody
      obtain ⟨hmade', rfl, hbehind⟩ := ihrest
      rw [writings_block hblock henter hbody hleave hown]
      refine ⟨?_, by rw [List.flatMap_cons, Kept.lines_call, List.singleton_append], ?_⟩
      · rw [hmade', hown, hmade₂, Lowering.made_of_enter henter]
        simp [Function.comp_def]
      · simp only [List.forall_mem_append]
        refine ⟨⟨hinside, fun z hz => ?_⟩, hbehind⟩
        obtain ⟨s, hs, rfl⟩ := List.mem_map.mp hz
        obtain ⟨name, -, rfl⟩ := List.mem_map.mp hs
        exact ⟨rfl, rfl, rfl⟩

/-- The functions made while groups are lowered call only functions made before them, and so do the
lines that are kept. -/
theorem Lowers.backwards {ns : Namespace} {parent : Text} {l l' : Lowering} {gs : List Group}
    {lines : List Text} (h : Lowers ns parent l gs l' lines) {earlier : List Scope}
    (hknown : Known l.memory (earlier ++ l.made)) :
    let w := writings ns parent l gs
    Backwards (earlier ++ l.made) w.1 ∧
      (∀ r ∈ w.2.filterMap Kept.call, Offers (earlier ++ l'.made) ns r) ∧
      Known l'.memory (earlier ++ l'.made) := by
  induction h with
  | nil =>
      rw [writings_nil]
      exact ⟨trivial, fun _ hr => (nomatch hr), hknown⟩
  | line hblock _ ih =>
      rw [writings_line hblock]
      exact ih hknown
  | @block parent name reference l l₁ l₂ l₃ l' g gs body lines hblock henter hbody hleave hrest
      ihbody ihrest =>
      obtain ⟨own, hown⟩ := Lowering.exists_own_of_leave hleave
      have hwritings := writings_block hblock henter hbody hleave hown gs
      have hmade₂ := hbody.writes.1
      have hmade' := hrest.writes.1
      generalize writings ns (ns.reference name) l₁ (groups (Text.lines g.text)) = inside at *
      generalize writings ns parent l₃ gs = rest at *
      rw [hwritings]
      have hmade₁ := Lowering.made_of_enter henter
      rw [← hmade₁] at hknown ⊢
      obtain ⟨hinside, hcalls, hknown₂⟩ := ihbody (hknown.enter henter)
      have hsub₂ : earlier ++ l₂.made ⊆ earlier ++ l₃.made := by
        rw [hown, ← List.append_assoc]
        exact List.subset_append_left _ _
      obtain ⟨hknown₃, f, hf, hns, hreference, -⟩ :=
        (hknown₂.mono hsub₂).leave hleave (List.subset_append_right earlier l₃.made)
      obtain ⟨hbehind, hcalls', hknown'⟩ := ihrest hknown₃
      -- the block's own function, if it is new, calls what was made inside the block
      have hblock : Backwards (earlier ++ l₁.made ++ inside.1.map Written.scope)
          ((own.toList.map (⟨ns, ·, Text.unlines body⟩)).map (⟨·, inside.2, true⟩)) := by
        rw [List.append_assoc, ← hmade₂]
        cases own with
        | none => trivial
        | some name => exact ⟨hcalls, trivial⟩
      refine ⟨(hinside.append hblock).append ?_, ?_, hknown'⟩
      · rw [hown, hmade₂] at hbehind
        simpa [Function.comp_def] using hbehind
      · refine List.forall_mem_cons.mpr ⟨⟨f, ?_, hns, hreference⟩, hcalls'⟩
        rw [hmade', ← List.append_assoc]
        exact List.mem_append_left _ hf

/-- Where blocks do not share, each function made is called once, by another one or by the lines
that are kept. -/
theorem Lowers.calls_perm {ns : Namespace} {parent : Text} {l l' : Lowering} {gs : List Group}
    {lines : List Text} (h : Lowers ns parent l gs l' lines) (hshared : l.memory.shared = none) :
    let w := writings ns parent l gs
    (w.1.flatMap Written.calls ++ w.2.filterMap Kept.call).Perm
      ((w.1.map Written.scope).map Scope.reference) := by
  induction h with
  | nil =>
      rw [writings_nil]
      exact .nil
  | line hblock _ ih =>
      rw [writings_line hblock]
      exact ih hshared
  | @block parent name reference l l₁ l₂ l₃ l' g gs body lines hblock henter hbody hleave hrest
      ihbody ihrest =>
      have hshared₁ : l₁.memory.shared = none := by
        rcases Lowering.enter_ok henter with ⟨-, ids, -, rfl⟩ | ⟨-, rfl⟩ <;> exact hshared
      obtain ⟨_, -, hgrows, -⟩ := hbody.grows
      have hshared₂ := hgrows.sharing.mpr hshared₁
      rcases Lowering.leave_ok hleave with ⟨-, hmemory, hown, rfl⟩ | ⟨_, hsome, -⟩
      · rw [writings_block hblock henter hbody hleave hown]
        generalize writings ns (ns.reference name) l₁ (groups (Text.lines g.text)) = inside at *
        have hrest := ihrest (hmemory ▸ hshared₂)
        generalize writings ns parent l₃ gs = rest at *
        simp only [List.flatMap_append, List.map_append, List.map_cons, List.map_nil,
          List.append_assoc, List.singleton_append, List.flatMap_cons]
        rw [← List.append_assoc]
        exact (ihbody hshared₁).append (List.perm_middle.trans (hrest.cons _))
      · rw [hshared₂] at hsome
        cases hsome

/-! ## Runs -/

/-- What holds of nothing written, and of a scope that is lowered before others, holds of what a run
writes. -/
theorem writtenBy_induction {motive : Memory → List Written → Prop} (nil : ∀ m, motive m [])
    (cons : ∀ {m : Memory} {s : Scope} {l : Lowering} {lines : List Text} {ws : List Written},
      Lowers s.ns s.reference ⟨m, [], []⟩ (groups s.lines) l lines → motive l.memory ws →
        motive m ((writings s.ns s.reference ⟨m, [], []⟩ (groups s.lines)).1 ++
          ⟨s.withContent (Text.unlines lines),
            (writings s.ns s.reference ⟨m, [], []⟩ (groups s.lines)).2, false⟩ :: ws))
    (m : Memory) (sources : List Scope) : motive m (writtenBy m sources) := by
  induction sources generalizing m with
  | nil => exact nil m
  | cons s rest ih =>
      rw [writtenBy]
      split
      next l z hlower =>
        obtain ⟨lines, hlowers, rfl⟩ := lowers_of_lower hlower
        exact cons hlowers (ih l.memory)
      next => exact nil m

theorem writtenBy_content (m : Memory) (sources : List Scope) :
    ∀ w ∈ writtenBy m sources, w.scope.content = Text.unlines (w.lines.flatMap Kept.lines) := by
  refine writtenBy_induction
    (motive := fun _ ws => ∀ w ∈ ws, w.scope.content = Text.unlines (w.lines.flatMap Kept.lines))
    (fun _ _ hw => (nomatch hw)) (fun hlowers hrest => ?_) m sources
  obtain ⟨-, rfl, hmade⟩ := hlowers.writes
  rw [List.forall_mem_append, List.forall_mem_cons]
  exact ⟨fun w hw => (hmade w hw).2.2, rfl, hrest⟩

theorem writtenBy_backwards {m : Memory} {earlier : List Scope} (hknown : Known m earlier)
    (sources : List Scope) : Backwards earlier (writtenBy m sources) := by
  refine writtenBy_induction
    (motive := fun m ws => ∀ earlier, Known m earlier → Backwards earlier ws)
    (fun _ _ _ => trivial) (fun {m s l lines ws} hlowers hrest earlier hknown => ?_) m sources
    earlier hknown
  rw [← List.append_nil earlier] at hknown
  obtain ⟨hmade, hcalls, hknown'⟩ := hlowers.backwards hknown
  rw [List.append_nil] at hmade
  have hscopes := hlowers.writes.1
  rw [List.nil_append] at hscopes
  refine hmade.append ⟨?_, hrest _ (hknown'.mono ?_)⟩
  · rw [← hscopes]
    exact hcalls
  · rw [hscopes]
    exact List.subset_append_left _ _

/-- The functions made for blocks, among what is written. -/
def generatedIn (ws : List Written) : List Scope :=
  (ws.filter Written.generated).map Written.scope

theorem Lowers.generatedIn_eq {ns : Namespace} {parent : Text} {l l' : Lowering} {gs : List Group}
    {lines : List Text} (h : Lowers ns parent l gs l' lines) (z : Scope) (kept : List Kept)
    (ws : List Written) :
    generatedIn ((writings ns parent l gs).1 ++ ⟨z, kept, false⟩ :: ws) =
      (writings ns parent l gs).1.map Written.scope ++ generatedIn ws := by
  have hgenerated : (writings ns parent l gs).1.filter Written.generated =
      (writings ns parent l gs).1 :=
    List.filter_eq_self.mpr fun w hw => (h.writes.2.2 w hw).1
  simp [generatedIn, hgenerated]

theorem writtenBy_grows (m : Memory) (sources : List Scope) :
    ∃ m', Grows m m' (generatedIn (writtenBy m sources)) := by
  refine writtenBy_induction (motive := fun m ws => ∃ m', Grows m m' (generatedIn ws))
    (fun m => ⟨m, .refl m⟩) (fun hlowers hrest => ?_) m sources
  obtain ⟨new, hnew, hgrows, -⟩ := hlowers.grows
  have hscopes := List.append_cancel_left (hnew.symm.trans hlowers.writes.1)
  obtain ⟨m', hgrows'⟩ := hrest
  rw [hlowers.generatedIn_eq, ← hscopes]
  exact ⟨m', hgrows.trans hgrows'⟩

theorem writtenBy_calls_perm {m : Memory} (hshared : m.shared = none) (sources : List Scope) :
    ((writtenBy m sources).flatMap Written.calls).Perm
      ((generatedIn (writtenBy m sources)).map Scope.reference) := by
  refine writtenBy_induction
    (motive := fun m ws => m.shared = none →
      (ws.flatMap Written.calls).Perm ((generatedIn ws).map Scope.reference))
    (fun _ _ => .nil) (fun hlowers hrest hshared => ?_) m sources hshared
  obtain ⟨_, -, hgrows, -⟩ := hlowers.grows
  rw [hlowers.generatedIn_eq, List.flatMap_append, List.flatMap_cons, ← List.append_assoc,
    List.map_append]
  exact (hlowers.calls_perm hshared).append (hrest (hgrows.sharing.mpr hshared))

/-- Generated functions have different references, since their ids are different. -/
theorem Grows.nodup_reference {m m' : Memory} {new : List Scope} (h : Grows m m' new) :
    (new.map Scope.reference).Nodup := by
  refine List.Nodup.map_on (fun g hg g' hg' heq => ?_) h.nodup.of_map
  obtain ⟨id, hid, -⟩ := h.fresh g hg
  obtain ⟨id', hid', -⟩ := h.fresh g' hg'
  rw [Scope.reference, Scope.reference, hid, hid'] at heq
  have hname : g.name = g'.name := by rw [hid, hid', Anonymous.id_of_reference heq]
  exact List.inj_on_of_nodup_map h.nodup hg hg' hname

/-- The block stage hands on what lowering writes. -/
theorem transform_writes (m : Memory) (fault : Option Fault) (es : List Event) :
    (Stage.transform .blocks m fault es).2.scopes =
      (writtenBy m (Flow.mk es none).scopes).map Written.scope := by
  induction es generalizing m with
  | nil =>
      cases fault with
      | some fault => rfl
      | none =>
          rw [Stage.transform, Stage.drain_of_none rfl]
          rfl
  | cons event es ih =>
      cases event with
      | note n => exact ih m
      | scope s =>
          have hscopes : (Flow.mk (.scope s :: es) none).scopes = s :: (Flow.mk es none).scopes :=
            rfl
          rw [hscopes, writtenBy]
          split
          next l z hlower =>
            have haccept := accept_of_ok hlower
            obtain ⟨lines, hlowers, -⟩ := lowers_of_lower hlower
            rw [Stage.transform_scope_of_none (congrArg Reaction.fault haccept), haccept,
              Flow.scopes_preceded, Flow.scopes_notes_append, ih, List.map_append, List.map_cons,
              hlowers.writes.1]
            simp
          next l fault' hlower =>
            have haccept := accept_of_error hlower
            rw [Stage.transform_scope_of_fault (congrArg Reaction.fault haccept), haccept]
            exact Flow.scopes_notes l.journal _

/-- Whatever a source hands out, and wherever its receiver stops or a fault ends it, a run of the
block stage hands on scopes whose block calls are the references of scopes of the same namespace
that it handed on before. Where blocks do not share, a run that is not stopped calls every function
it made for a block once. -/
theorem run_calls_backwards (settings : Settings) (wanted : Option Nat)
    (source : List (Except Fault Scope)) :
    let o := Pipeline.run Collected.receive [.blocks]
      (Pipeline.start settings [.blocks], { wanted }) source
    let ws := (writtenBy (Stage.blocks.start settings) (Flow.ofSource source).scopes).take
      o.state.2.scopes.length
    o.state.2.scopes = ws.map Written.scope ∧
    (∀ w ∈ ws, w.scope.content = Text.unlines (w.lines.flatMap Kept.lines)) ∧
    (∀ before w after, ws = before ++ w :: after → ∀ r ∈ w.calls,
      ∃ z ∈ before, z.scope.ns.name = w.scope.ns.name ∧ z.scope.reference = r) ∧
    (settings.shareBlocks = false → o.verdict ≠ .stop → ∀ g ∈ ws, g.generated = true →
      (ws.flatMap Written.calls).count g.scope.reference = 1) := by
  intro o ws
  let f := Flow.ofSource source
  let all := writtenBy (Stage.blocks.start settings) f.scopes
  let whole := (Stage.blocks.transform (Stage.blocks.start settings) f.fault f.events).2
  have hwhole : whole.scopes = all.map Written.scope := transform_writes _ _ _
  have hfed : (o.state.2, o.verdict) = whole.feed Collected.receive { wanted } :=
    (Pipeline.run_agrees Collected.receive [.blocks] (Pipeline.start settings [.blocks])
      { wanted } source).fed
  obtain ⟨hstate, hverdict⟩ := Prod.mk.inj hfed
  have hprefix : o.state.2.scopes <+: all.map Written.scope := by
    rw [hstate, ← hwhole]
    exact (Pipeline.takeEach_collected { wanted } whole.events).1
  have hscopes : o.state.2.scopes = ws.map Written.scope := by
    rw [List.map_take]
    exact List.prefix_iff_eq_take.mp hprefix
  refine ⟨hscopes, fun w hw => ?_, fun before w after hws r hr => ?_,
    fun hshare hstop g hg hgen => ?_⟩
  · exact writtenBy_content _ f.scopes w (List.mem_of_mem_take hw)
  · have hsplit : all = before ++ w :: (after ++ all.drop o.state.2.scopes.length) := by
      rw [← List.cons_append, ← List.append_assoc, ← hws]
      exact (List.take_append_drop _ _).symm
    have hback : Backwards [] all := writtenBy_backwards (known_start settings []) f.scopes
    rw [hsplit] at hback
    obtain ⟨_, hmem, hcalled⟩ := hback.offers r hr
    obtain ⟨z, hz, rfl⟩ := List.mem_map.mp hmem
    exact ⟨z, hz, hcalled⟩
  · have htaken : (takeEach Collected.receive { wanted } whole.events).2 ≠ .stop := by
      intro htake
      rw [hverdict, htake] at hstop
      exact hstop rfl
    have hall : o.state.2.scopes = all.map Written.scope := by
      rw [hstate, ← hwhole]
      exact (Pipeline.takeEach_collected_of_ne_stop htaken).2
    have hws : ws = all := by
      rw [show ws = all.take _ from rfl, hall, List.length_map, List.take_length]
    have hshared : Memory.shared (Stage.blocks.start settings) = none := by
      simp [Stage.start, hshare]
    obtain ⟨m', hgrows⟩ := writtenBy_grows (Stage.blocks.start settings) f.scopes
    have hcalls := writtenBy_calls_perm hshared f.scopes
    rw [hws] at hg ⊢
    rw [hcalls.count_eq]
    refine List.count_eq_one_of_mem hgrows.nodup_reference (List.mem_map_of_mem ?_)
    exact List.mem_map_of_mem (List.mem_filter.mpr ⟨hg, hgen⟩)

/-- Blocks that do not share, one of them two tabs deep at the start of its scope. -/
theorem run_calls_backwards_nested :
    let ws := writtenBy (Stage.blocks.start {}) nested
    let o := Pipeline.run Collected.receive [.blocks] (Pipeline.start {} [.blocks], {})
      (nested.map .ok)
    o.verdict ≠ .stop ∧
    ws.map (fun w => (w.scope.reference, w.calls)) =
      [(ascii "ns:_/00/00/00/01", []), (ascii "ns:_/00/00/00/00", [ascii "ns:_/00/00/00/01"]),
        (ascii "ns:inner", [ascii "ns:_/00/00/00/00"]), (ascii "ns:_/00/00/00/03", []),
        (ascii "ns:_/00/00/00/02", [ascii "ns:_/00/00/00/03"]),
        (ascii "ns:deep", [ascii "ns:_/00/00/00/02"])] ∧
    o.state.2.scopes = ws.map Written.scope ∧
    ∀ g ∈ ws, g.generated = true → (ws.flatMap Written.calls).count g.scope.reference = 1 := by
  intro ws o
  have hstop : o.verdict ≠ .stop := by decide +kernel
  have hlength : o.state.2.scopes.length = ws.length := by decide +kernel
  obtain ⟨hscopes, -, -, hcount⟩ := run_calls_backwards {} none (nested.map .ok)
  have htake : (writtenBy (Stage.blocks.start {}) (Flow.ofSource (nested.map .ok)).scopes).take
      o.state.2.scopes.length = ws := by
    rw [Flow.ofSource_map_ok, Flow.scopes_ofScopes, hlength]
    exact List.take_length
  rw [htake] at hscopes hcount
  exact ⟨hstop, by decide +kernel, hscopes, hcount rfl hstop⟩

end Packwright.Block
