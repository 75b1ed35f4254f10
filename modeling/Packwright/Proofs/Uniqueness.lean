import Packwright.Proofs.Block.Lowering
import Packwright.Proofs.Fault
import Packwright.Proofs.Macro.Delivery
import Packwright.Proofs.Macro.Names
import Packwright.Proofs.Path
import Packwright.Sink

/-! # No function is compiled twice

The functions that a compilation hands on have their names from the sources, from the calls of
macros or from blocks. Calls and blocks draw names from different halves of the id space, and each
allocator hands out a name once, so all references are different as long as those of the sources are
and no source has a generated name. This holds wherever a run ends (`compile_references_nodup`), and
so a writer is never asked to write a function again.
-/

namespace Packwright

open Text (ascii)

/-- Where the function of a scope lives. -/
def Scope.address (s : Scope) : Namespace × Text := (s.ns, s.name)

/-- Scopes in namespaces of one kind, with different references. -/
structure Apart (good : Namespace → Prop) (ss : List Scope) : Prop where
  ns : ∀ s ∈ ss, good s.ns
  nodup : (ss.map Scope.reference).Nodup

section Address

variable {good : Namespace → Prop} {ss ss' : List Scope}

theorem exists_of_subperm_address
    (h : (ss'.map Scope.address).Subperm (ss.map Scope.address)) {z : Scope} (hz : z ∈ ss') :
    ∃ s ∈ ss, z.ns = s.ns ∧ z.name = s.name := by
  obtain ⟨s, hs, heq⟩ := List.mem_map.mp (h.subset (List.mem_map_of_mem hz))
  exact ⟨s, hs, Prod.mk.inj heq.symm⟩

/-- Scopes stay apart if some are left out, reordered or given other contents. -/
theorem Apart.of_subperm (h : Apart good ss)
    (haddress : (ss'.map Scope.address).Subperm (ss.map Scope.address)) : Apart good ss' := by
  constructor
  · intro z hz
    obtain ⟨s, hs, hns, -⟩ := exists_of_subperm_address haddress hz
    rw [hns]
    exact h.ns s hs
  · have hreference : Scope.reference = (fun a => a.1.reference a.2) ∘ Scope.address := rfl
    obtain ⟨as, hperm, hsublist⟩ := haddress
    have hnodup := h.nodup
    rw [hreference, ← List.map_map] at hnodup ⊢
    exact (hperm.map _).nodup_iff.mp (hnodup.sublist (hsublist.map _))

theorem Apart.initial (h : Apart good ss) (hinitial : ss' <+: ss) : Apart good ss' :=
  h.of_subperm (hinitial.sublist.map _).subperm

end Address

/-- Different names in checked namespaces make different references. -/
theorem nodup_reference {α : Type} {ns : α → Namespace} {name : α → Text} {as : List α}
    (hns : ∀ a ∈ as, (ns a).Checked) (h : (as.map name).Nodup) :
    (as.map fun a => (ns a).reference (name a)).Nodup := by
  refine List.Nodup.map_on (fun a ha b hb heq => ?_) h.of_map
  have hname := ((Namespace.reference_inj (hns a ha) (hns b hb)).mp heq).2
  exact List.inj_on_of_nodup_map h ha hb hname

/-! ## Calls -/

namespace Macro

/-- The functions made for calls have the references of the calls. -/
theorem Table.started_sublist (t : Table) :
    ((t.started.map Pending.scope).map Scope.reference).Sublist (t.calls.map Call.reference) := by
  rw [started]
  induction t.calls with
  | nil => exact .slnil
  | cons c rest ih =>
      cases hstart : t.start? c with
      | none =>
          rw [List.filterMap_cons_none hstart, List.map_cons]
          exact ih.cons _
      | some w =>
          obtain ⟨hns, hname⟩ := start?_ns hstart
          have hreference : w.scope.reference = c.reference :=
            congrArg₂ Namespace.reference hns hname
          rw [List.filterMap_cons_some hstart, List.map_cons, List.map_cons, List.map_cons,
            hreference]
          exact ih.cons_cons _

/-- The function of a call lives where the call says. -/
theorem Table.exists_of_mem_started {t : Table} {z : Scope}
    (hz : z ∈ t.started.map Pending.scope) :
    ∃ c ∈ t.calls, z.ns = c.ns ∧ z.name = c.scopeName := by
  obtain ⟨w, hw, rfl⟩ := List.mem_map.mp hz
  obtain ⟨c, hc, hstart⟩ := List.mem_filterMap.mp hw
  exact ⟨c, hc, start?_ns hstart⟩

/-- The source scopes and the functions of calls are apart. -/
theorem Table.Named.apart_work {good : Namespace → Prop} (hgood : ∀ ns, good ns → ns.Checked)
    {start : Allocator} {t : Table} (h : t.Named start) (hcalls : ∀ c ∈ t.calls, good c.ns)
    {sources : List Scope} (hsources : Apart good sources)
    (hnames : ∀ s ∈ sources, ∀ id, s.name ≠ Anonymous.name id) :
    Apart good (sources ++ t.started.map Pending.scope) := by
  constructor
  · intro s hs
    rcases List.mem_append.mp hs with hs | hs
    · exact hsources.ns s hs
    · obtain ⟨c, hc, hns, -⟩ := exists_of_mem_started hs
      rw [hns]
      exact hcalls c hc
  · have hsublist := t.started_sublist
    have hchecked : ∀ c ∈ t.calls, c.ns.Checked := fun c hc => hgood _ (hcalls c hc)
    rw [List.map_append, List.nodup_append]
    refine ⟨hsources.nodup, (nodup_reference hchecked h.nodup).sublist hsublist, ?_⟩
    intro r hr r' hr' heq
    obtain ⟨s, hs, rfl⟩ := List.mem_map.mp hr
    obtain ⟨c, hc, rfl⟩ := List.mem_map.mp (hsublist.subset hr')
    obtain ⟨id, hid, -⟩ := h.used c hc
    have hname := ((Namespace.reference_inj (hgood _ (hsources.ns s hs)) (hchecked c hc)).mp heq).2
    exact hnames s hs id (hname.trans hid)

/-- Wherever a run ends, it has handed on at most one scope for each source scope and for each
function of a call, and all of them where they live. -/
theorem yields_subperm (settings : Settings) (fault : Option Fault) (sources : List Scope) :
    let r := Table.trace (Stage.macros.start settings) fault sources
    (r.yields.map Scope.address).Subperm
      ((sources ++ r.table.started.map Pending.scope).map Scope.address) := by
  intro r
  obtain ⟨lives, left, new, hstarts, hstarted, hfinish, -⟩ := Table.trace_accounts _ fault sources
    (settled_start settings)
  have hnew : r.table.started.Perm new := hstarted
  have hstarts : (lives.map Life.start ++ left).Perm
      (sources.map (Pending.mk · 0) ++ r.table.started) := by
    refine hstarts.trans ?_
    rw [List.append_assoc]
    exact hnew.symm.append_left _
  let address (w : Pending) : Namespace × Text := w.scope.address
  have hkept : (lives.map Life.finish).map Scope.address = (lives.map Life.start).map address := by
    rw [List.map_map, List.map_map]
    refine List.map_congr_left fun l _ => ?_
    exact Prod.ext l.chain.finish_ns.1 l.chain.finish_ns.2
  have hwork : (sources.map (Pending.mk · 0) ++ r.table.started).map address =
      (sources ++ r.table.started.map Pending.scope).map Scope.address := by
    rw [List.map_append, List.map_append, List.map_map, List.map_map]
    rfl
  have hlives := ((List.sublist_append_left (lives.map Life.start) left).map address).subperm
  rw [← (hfinish.map Scope.address).subperm_right, hkept, ← hwork]
  exact hlives.trans (hstarts.map address).subperm

/-- What the macro stage hands on stays apart, wherever a run ends, and has no name from the ids
that were used before the run. -/
theorem yields_apart {good : Namespace → Prop} (hgood : ∀ ns, good ns → ns.Checked)
    (settings : Settings) (fault : Option Fault) {sources : List Scope}
    (hsources : Apart good sources) (hnames : ∀ s ∈ sources, ∀ id, s.name ≠ Anonymous.name id) :
    let r := Table.trace (Stage.macros.start settings) fault sources
    Apart good r.yields ∧
      ∀ z ∈ r.yields, ∀ id, settings.callIds.Used id → z.name ≠ Anonymous.name id := by
  intro r
  have hfollows := Table.trace_follows (Stage.macros.start settings) fault sources
    (settled_start settings)
  have hcalls := (hfollows.finish.within hsources.ns (within_start good settings)).1
  have hnamed := hfollows.finish.named (named_start settings)
  have hsubperm := yields_subperm settings fault sources
  refine ⟨(hnamed.apart_work hgood hcalls hsources hnames).of_subperm hsubperm, ?_⟩
  intro z hz id hid
  obtain ⟨s, hs, -, hname⟩ := exists_of_subperm_address hsubperm hz
  rw [hname]
  rcases List.mem_append.mp hs with hs | hs
  · exact hnames s hs id
  · -- the run drew the name of the call, so its id was not in use before
    obtain ⟨c, hc, -, hscope⟩ := Table.exists_of_mem_started hs
    obtain ⟨id', hid', hunused, -⟩ := hnamed.used c hc
    rw [hscope, hid']
    intro heq
    exact hunused (Anonymous.name_injective heq ▸ hid)

end Macro

/-! ## Blocks -/

namespace Block

theorem Runs.map_address {m m' : Memory} {sources : List Scope} {outs : List Output}
    (h : Runs m sources m' outs) :
    (outs.map Output.scope).map Scope.address = sources.map Scope.address := by
  have hall : List.Forall₂ Eq (sources.map Scope.address)
      ((outs.map Output.scope).map Scope.address) := by
    rw [List.forall₂_map_left_iff, List.map_map, List.forall₂_map_right_iff]
    exact h.forall₂.imp fun s out hout => (Prod.ext hout.1 hout.2.1).symm
  rw [List.forall₂_eq_eq_eq] at hall
  exact hall.symm

/-- What the block stage hands on stays apart, if no scope has a name that is left to blocks. -/
theorem Runs.apart {good : Namespace → Prop} (hgood : ∀ ns, good ns → ns.Checked) {m m' : Memory}
    {sources : List Scope} {outs : List Output} (h : Runs m sources m' outs)
    (hsources : Apart good sources)
    (hnames : ∀ s ∈ sources, ∀ id, ¬ m.ids.Used id → s.name ≠ Anonymous.name id) :
    Apart good (outs.flatMap Output.scopes) := by
  have hgrows := h.grows
  have hmade : ∀ g ∈ outs.flatMap Output.made, good g.ns := by
    intro g hg
    obtain ⟨s, hs, heq⟩ := h.exists_ns g hg
    rw [heq]
    exact hsources.ns s hs
  have hperm : (outs.flatMap Output.made ++ outs.map Output.scope).Perm
      (outs.flatMap Output.scopes) := by
    rw [List.map_eq_flatMap]
    exact List.flatMap_append_perm outs Output.made fun out => [out.scope]
  have haddress := (List.Perm.of_eq h.map_address).subperm
  have hscopes := hsources.of_subperm haddress
  refine ⟨fun z hz => ?_, ?_⟩
  · rcases List.mem_append.mp (hperm.mem_iff.mpr hz) with hz | hz
    · exact hmade z hz
    · exact hscopes.ns z hz
  · rw [← (hperm.map _).nodup_iff, List.map_append, List.nodup_append]
    refine ⟨nodup_reference (fun g hg => hgood _ (hmade g hg)) hgrows.nodup, hscopes.nodup, ?_⟩
    intro r hr r' hr' heq
    obtain ⟨g, hg, rfl⟩ := List.mem_map.mp hr
    obtain ⟨z, hz, rfl⟩ := List.mem_map.mp hr'
    obtain ⟨id, hid, hunused, -⟩ := hgrows.fresh g hg
    obtain ⟨s, hs, -, hname⟩ := exists_of_subperm_address haddress hz
    have hsame := ((Namespace.reference_inj (hgood _ (hmade g hg))
      (hgood _ (hscopes.ns z hz))).mp heq).2
    exact hnames s hs id hunused (hname.symm.trans (hsame.symm.trans hid))

end Block

/-! ## Compilations -/

theorem Stage.map_address_transform (stage : Stage) (hmacros : stage ≠ .macros)
    (hblocks : stage ≠ .blocks) (m : stage.Memory) (f : Flow) :
    (stage.transform m f.fault f.events).2.scopes.map Scope.address =
      f.scopes.map Scope.address := by
  obtain ⟨change, haddress, htransform⟩ := stage.exists_change hmacros hblocks
  rw [(htransform m f.fault f.events).1, List.map_map]
  exact List.map_congr_left fun s _ => Prod.ext (haddress s).1 (haddress s).2

/-- A compilation hands on functions with different references, if its sources have different ones
and names that are not generated. -/
theorem flow_apart {good : Namespace → Prop} (hgood : ∀ ns, good ns → ns.Checked)
    (settings : Settings) (hhalves : ∀ id, ¬ settings.blockIds.Used id → settings.callIds.Used id)
    {f : Flow} (hsources : Apart good f.scopes)
    (hnames : ∀ s ∈ f.scopes, ∀ id, s.name ≠ Anonymous.name id) :
    Apart good (Pipeline.flow Stage.standard
      (Pipeline.start settings Stage.standard) f).2.scopes := by
  let f₁ := (Stage.comments.transform () f.fault f.events).2
  let f₂ := (Stage.macros.transform (Stage.macros.start settings) f₁.fault f₁.events).2
  let f₃ := (Stage.blocks.transform (Stage.blocks.start settings) f₂.fault f₂.events).2
  let f₄ := (Stage.substitutions.transform () f₃.fault f₃.events).2
  rw [Pipeline.flow_standard]
  have hf₁ := (List.Perm.of_eq (Stage.comments.map_address_transform nofun nofun () f)).subperm
  have hnames₁ : ∀ s ∈ f₁.scopes, ∀ id, s.name ≠ Anonymous.name id := by
    intro s hs id
    obtain ⟨s', hs', -, hname⟩ := exists_of_subperm_address hf₁ hs
    rw [hname]
    exact hnames s' hs' id
  obtain ⟨hyields, hfree⟩ := Macro.yields_apart hgood settings f₁.fault (hsources.of_subperm hf₁)
    hnames₁
  have hf₂ : f₂.scopes = (Macro.Table.trace (Stage.macros.start settings) f₁.fault
      f₁.scopes).yields := (Macro.Table.trace_describes _ f₁).scopes
  rw [← hf₂] at hyields hfree
  obtain ⟨m, taken, outs, htaken, hruns, hf₃, -⟩ := Block.transform_blocks
    (Stage.blocks.start settings) f₂.fault f₂.events
  have houts : Apart good f₃.scopes := by
    rw [hf₃]
    refine hruns.apart hgood (hyields.initial htaken) fun s hs id hid => ?_
    exact hfree s (htaken.subset hs) id (hhalves id hid)
  -- the stages behind change contents only
  have hf₄ := Stage.substitutions.map_address_transform nofun nofun () f₃
  have hf₅ := Stage.back.map_address_transform nofun nofun () f₄
  exact houts.of_subperm (List.Perm.of_eq (hf₅.trans hf₄)).subperm

/-! ## Writing -/

namespace Writer

/-- A function whose path was written before is refused as one that comes twice. Any other function
is written, or refused for another reason. -/
theorem put_cases (w : Writer) (s : Scope) :
    (∃ path, s.ns.functionPath s.name = .ok path ∧ path ∈ w.written ∧
      w.put s = (w, .error (.producedTwice s.reference))) ∨
    (∀ path, s.ns.functionPath s.name = .ok path → path ∉ w.written) ∧
      ((∃ w' path, s.ns.functionPath s.name = .ok path ∧ w.put s = (w', .ok ()) ∧
        w'.written = path :: w.written) ∨
      ∃ w' fault, w.put s = (w', .error fault) ∧ w'.written = w.written ∧
        ∀ r, fault ≠ .producedTwice r) := by
  unfold put
  cases hpath : s.ns.functionPath s.name with
  | error error => exact .inr ⟨nofun, .inr ⟨w, _, rfl, rfl, nofun⟩⟩
  | ok path =>
      dsimp only
      by_cases hwritten : w.written.contains path = true
      · rw [if_pos hwritten]
        exact .inl ⟨path, rfl, by simpa using hwritten, rfl⟩
      · rw [if_neg hwritten]
        refine .inr ⟨fun path' heq => ?_, ?_⟩
        · rw [← Except.ok.inj heq]
          simpa using hwritten
        · split
          next => exact .inr ⟨_, _, rfl, rfl, nofun⟩
          next =>
            split
            next => exact .inr ⟨_, _, rfl, rfl, nofun⟩
            next => exact .inl ⟨_, path, rfl, rfl, rfl⟩

/-- A writer that is handed functions of one pack with different references refuses none of them as
one that comes twice. -/
theorem takeEach_ne_producedTwice {p : Pack} {w : Writer} {es : List Event}
    (hes : Apart (fun ns => ns.Checked ∧ ns.pack = p) (Flow.mk es none).scopes)
    (hw : ∀ path ∈ w.written, ∀ s ∈ (Flow.mk es none).scopes, s.ns.functionPath s.name ≠ .ok path)
    (r : Text) : (takeEach receive w es).2 ≠ .fail (.producedTwice r) := by
  -- the invariant `hw`: no path written so far belongs to a function that is still to come
  induction es generalizing w with
  | nil => nofun
  | cons event es ih =>
      cases event with
      | note n => exact ih hes hw
      | scope s =>
          obtain ⟨hns, hnodup⟩ := hes
          have hscopes : (Flow.mk (.scope s :: es) none).scopes = s :: (Flow.mk es none).scopes :=
            rfl
          rw [hscopes, List.forall_mem_cons] at hns
          rw [hscopes, List.map_cons, List.nodup_cons] at hnodup
          rw [takeEach, receive]
          rcases w.put_cases s with ⟨path, hpath, hmem, -⟩ |
              ⟨-, ⟨w', path, hpath, hput, hwritten⟩ | ⟨w', fault, hput, -, hfault⟩⟩
          · exact absurd hpath (hw path hmem s List.mem_cons_self)
          · simp only [hput]
            refine ih ⟨hns.2, hnodup.2⟩ fun path' hmem s' hs' hpath' => ?_
            rw [hwritten] at hmem
            rcases List.mem_cons.mp hmem with rfl | hmem
            · obtain ⟨hchecked, hpack⟩ := hns.1
              obtain ⟨hchecked', hpack'⟩ := hns.2 s' hs'
              obtain ⟨hspace, hname⟩ := Path.functionPath_inj (hpack'.trans hpack.symm) hchecked'
                hchecked hpath' hpath
              have hsame : s'.reference = s.reference := by
                rw [Scope.reference, Namespace.reference, hspace, hname]
                rfl
              exact hnodup.1 (hsame ▸ List.mem_map_of_mem hs')
            · exact hw path' hmem s' (List.mem_cons_of_mem _ hs') hpath'
          · simp only [hput]
            exact fun heq => hfault r (Verdict.fail.inj heq)

end Writer

/-- Wherever a compilation ends, the functions that it handed on have different references, if the
sources are scopes of one pack with different references and without generated names. So a writer
that takes them into the pack never reports that a function was produced twice. -/
theorem compile_references_nodup (shareBlocks : Bool) (maxPasses : Int)
    (source : List (Except Fault Scope)) (p : Pack)
    (hns : ∀ s ∈ (Flow.ofSource source).scopes, s.ns.Checked ∧ s.ns.pack = p)
    (hnames : ∀ s ∈ (Flow.ofSource source).scopes, ∀ id, s.name ≠ Anonymous.name id)
    (hnodup : ((Flow.ofSource source).scopes.map Scope.reference).Nodup) :
    let settings : Settings := { shareBlocks, maxPasses }
    (∀ wanted, ((Compiler.compile settings wanted source).state.scopes.map
      Scope.reference).Nodup) ∧
    ∀ w : Writer, w.written = [] → ∀ r,
      (Compiler.compileInto settings Writer.receive w source).verdict = .fail (.producedTwice r) →
        (Flow.ofSource source).fault = some (.producedTwice r) := by
  intro settings
  have hsources : Apart (fun ns => ns.Checked ∧ ns.pack = p) (Flow.ofSource source).scopes :=
    ⟨hns, hnodup⟩
  -- blocks count up and calls count down, each through a half of the ids
  have hhalves : ∀ id, ¬ settings.blockIds.Used id → settings.callIds.Used id :=
    fun id hid => by_contra fun hunused => hid (Allocator.used_ascending hunused)
  have hapart := flow_apart (fun _ h => h.1) settings hhalves hsources hnames
  refine ⟨fun wanted => ?_, fun w hw r hverdict => ?_⟩
  · have hagrees := Pipeline.run_agrees Collected.receive Stage.standard
      (Pipeline.start settings Stage.standard) { wanted } source
    have htaken := (Pipeline.takeEach_collected { wanted } (Pipeline.flow Stage.standard
      (Pipeline.start settings Stage.standard) (Flow.ofSource source)).2.events).1
    have hstate := congrArg (fun result => result.1.scopes) hagrees.fed
    exact (hapart.initial (hstate ▸ htaken)).nodup
  · have hagrees := Pipeline.run_agrees Writer.receive Stage.standard
      (Pipeline.start settings Stage.standard) w source
    have hfed := (congrArg Prod.snd hagrees.fed).symm.trans hverdict
    have hwriter := Writer.takeEach_ne_producedTwice hapart (w := w)
      (by rw [hw]; exact fun _ hmem => (nomatch hmem)) r
    rcases Verdict.of_orFault_eq_fail hfed with hfail | hfault
    · exact absurd hfail hwriter
    · exact (fault_of_flow _ _ hfault).resolve_right nofun

/-- A source whose functions have names from all origins: its scopes, a call of a macro that comes
before the definition, and blocks in a scope and in a macro. -/
def origins : List (Except Fault Scope) :=
  let ns : Namespace := ⟨{ path := ascii "packs/p", name := ascii "p" }, ascii "ns"⟩
  [.ok ⟨ns, ascii "early", Text.unlines [ascii "call greet @a", ascii "execute as @a run",
      ascii "\tsay hi"]⟩,
    .ok ⟨ns, ascii "late", Text.unlines [ascii "generate function greet who",
      ascii "\texecute as who run", ascii "\t\tsay hi", ascii "call greet @s"]⟩]

theorem compile_references_nodup_origins :
    (∀ s ∈ (Flow.ofSource origins).scopes, s.ns.Checked ∧
      s.ns.pack = { path := ascii "packs/p", name := ascii "p" }) ∧
    (∀ s ∈ (Flow.ofSource origins).scopes, ∀ id, s.name ≠ Anonymous.name id) ∧
    ((Flow.ofSource origins).scopes.map Scope.reference).Nodup ∧
    (Compiler.compile {} none origins).state.scopes.length = 6 ∧
    ((Compiler.compile {} none origins).state.scopes.map Scope.reference).Nodup ∧
    ∀ files r, (Compiler.compileInto {} Writer.receive { files } origins).verdict ≠
      .fail (.producedTwice r) := by
  have hns : ∀ s ∈ (Flow.ofSource origins).scopes, s.ns.Checked ∧
      s.ns.pack = { path := ascii "packs/p", name := ascii "p" } := by
    unfold Namespace.Checked
    decide +kernel
  have hnames : ∀ s ∈ (Flow.ofSource origins).scopes, ∀ id, s.name ≠ Anonymous.name id := by
    have hslash : ∀ s ∈ (Flow.ofSource origins).scopes, Text.slash ∉ s.name := by decide +kernel
    intro s hs id heq
    apply hslash s hs
    rw [heq, Anonymous.name_eq]
    simp
  have hnodup : ((Flow.ofSource origins).scopes.map Scope.reference).Nodup := by decide +kernel
  obtain ⟨hcompile, hwriter⟩ := compile_references_nodup false 0 origins _ hns hnames hnodup
  refine ⟨hns, hnames, hnodup, by decide +kernel, hcompile none, fun files r hverdict => ?_⟩
  exact nomatch hwriter { files } rfl r hverdict

end Packwright
