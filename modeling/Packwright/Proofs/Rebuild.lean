import Packwright.Proofs.Build
import Packwright.Proofs.Plain

/-! # What a build leaves behind

A build touches nothing but the functions directory of its namespace, however it ends: functions are
written there, and directories are made for them. It neither adds nor changes a source, so it can be
run again. The second run finds the same sources and writes the same functions, over files that
already hold them, and the tree stays as it is (`build_frame_idempotent`).
-/

namespace Packwright

open FileTree (Below Change Grown)

/-! ## Sources of a tree that grew -/

namespace Source

variable {ns : Namespace} {absolute : Bool} {above : List Text} {root : Location} {t t' : FileTree}

theorem found_of_home (h : Home ns absolute above root t) :
    found t ns = sources t ns (t.entries.length + 1) (dirPath absolute above ns []) []
      (t.children ((Path.inPack ns ++ []).reverse ++ root)) := by
  rw [found, h.inspect_functionsDir, h.list_functionsDir, dirPath_nil h]
  rfl

/-- Functions of a namespace that were written meanwhile add no sources to it. -/
theorem found_grown {region : Location} (h : Home ns absolute above root t)
    (hgrown : Grown region (fun place => ∃ name, place = filePlace root ns name) t t') :
    found t' ns = found t ns := by
  -- both walks go down as far as there is anything to find, so they may as well go equally far
  let depth := t.entries.length + t'.entries.length + 1
  rw [found_of_home h, found_of_home (h.grown hgrown), ← sources_of_le h (show _ ≤ depth by omega),
    ← sources_of_le (h.grown hgrown) (show _ ≤ depth by omega)]
  exact sources_grown exists_extension h hgrown depth (List.forall_mem_nil _)

end Source

/-! ## The places a build touches -/

/-- How a place may differ after a build, where `dir` is the place of the functions directory: a
function was written to it, in place of an older file at most, or a directory was made where nothing
was found. -/
def Touched (dir place : Location) (before after : Option Node) : Prop :=
  Below dir place ∧
    ((∃ last above content, place = (last ++ Pack.functionExtension) :: above ∧
        after = some (.file content) ∧ ∀ node, before = some node → ∃ old, node = .file old) ∨
      before = none ∧ after = some .directory)

theorem below_filePlace (root : Location) (ns : Namespace) (name : Text) :
    Below (functionsPlace root ns) (filePlace root ns name) := by
  obtain ⟨more, last, hparts⟩ := exists_fileParts name
  exact ⟨(Path.fileParts name).reverse, by simp [hparts], by simp [filePlace, functionsPlace]⟩

theorem touched_of_change {root place : Location} {ns : Namespace} {before after : Option Node}
    (h : Change (∃ name, place = filePlace root ns name) (Below (functionsPlace root ns) place)
      before after) (hne : after ≠ before) :
    Touched (functionsPlace root ns) place before after := by
  cases h with
  | same => exact absurd rfl hne
  | directory hmade => exact ⟨hmade, .inr ⟨rfl, rfl⟩⟩
  | file content hwritten hold =>
      obtain ⟨name, rfl⟩ := hwritten
      obtain ⟨last, above, hplace⟩ := exists_extension _ ⟨name, rfl⟩
      exact ⟨below_filePlace root ns name, .inl ⟨last, above, content, hplace, rfl, hold⟩⟩

/-- What is touched is a source neither before nor after. -/
theorem Touched.not_source {dir above : Location} {name : Text} {before after : Option Node}
    (h : Touched dir (name :: above) before after) (hname : Pack.sourceExtension <:+ name)
    {node : Node} (hnode : node ≠ .directory) : before ≠ some node ∧ after ≠ some node := by
  obtain ⟨-, ⟨last, above', content, hplace, -⟩ | ⟨rfl, rfl⟩⟩ := h
  · have hsource := List.isSuffixOf_iff_suffix.mpr hname
    rw [(List.cons.inj hplace).1, Source.isSuffixOf_functionExtension] at hsource
    cases hsource
  · exact ⟨nofun, fun heq => hnode (Option.some.inj heq).symm⟩

namespace Compiler

variable (settings : Settings) {ns : Namespace} {t : FileTree}

theorem compiled_nil : compiled settings [] = ⟨[], none⟩ := by
  have hflow : Pipeline.flow Stage.standard (Pipeline.start settings Stage.standard)
      (Flow.ofScopes []) = (Pipeline.start settings Stage.standard, Flow.ofScopes []) :=
    Pipeline.flow_plain settings Stage.standard fun _ hs => absurd hs List.not_mem_nil
  exact congrArg Prod.snd hflow

/-- Without a functions directory nothing is written. -/
theorem files_build_of_not_directory (h : t.inspect ns.functionsDir ≠ .ok .directory) :
    (build settings ns t).1.files = t := by
  cases hinspect : t.inspect ns.functionsDir with
  | error error => simp [build, compileNamespace, Source.feed, hinspect]
  | ok node =>
      have hfeed : Source.feed
          (fun state : Pipeline.Memory Stage.standard × Writer => state.2.files)
          (Pipeline.deliver Writer.receive Stage.standard) ns
          (Pipeline.start settings Stage.standard, { files := t }) =
          takeEach (Pipeline.deliver Writer.receive Stage.standard)
            (Pipeline.start settings Stage.standard, { files := t }) [] := by
        rw [Source.feed, hinspect]
        cases node with
        | directory => exact absurd hinspect h
        | file | link => rfl
      have hcompile := compileNamespace_eq hfeed
      rw [compiled_nil] at hcompile
      obtain ⟨log, hbuild⟩ := build_eq hcompile
      rw [hbuild]
      rfl

section Run

variable (hpack : Name.validate .pack ns.pack.name = .ok ()) (hns : ns.Checked)
  (ht : t.WellFormed) (hlinks : t.LinkFree ns.pack.dir)

include hpack hns ht hlinks

/-- However a build ends, its tree grew by functions of the namespace, if at all. -/
theorem grown_build :
    (build settings ns t).1.files = t ∨ ∃ absolute above root, Home ns absolute above root t ∧
      Grown (functionsPlace root ns) (fun place => ∃ name, place = filePlace root ns name) t
        (build settings ns t).1.files := by
  by_cases hdirectory : t.inspect ns.functionsDir = .ok .directory
  · obtain ⟨absolute, above, root, hhome⟩ :=
      Home.exists_of_inspect hpack hns ht hlinks hdirectory
    obtain ⟨es, taken, -, -, hwritten, -⟩ := build_cases settings hpack hns ht hlinks
      (fun s hs => ⟨Source.ns_of_mem_found s hs, hhome⟩) hdirectory
    exact .inr ⟨absolute, above, root, hhome, hwritten.grown_functions⟩
  · exact .inl (files_build_of_not_directory settings hdirectory)

/-- A build that succeeded succeeds again, and has nothing left to do. -/
theorem build_again (hdone : (build settings ns t).2 = none) :
    ∃ w, build settings ns (build settings ns t).1.files = (w, none) ∧
      w.accepted = (build settings ns t).1.accepted ∧ w.files = (build settings ns t).1.files := by
  by_cases hdirectory : t.inspect ns.functionsDir = .ok .directory
  · obtain ⟨absolute, above, root, hhome⟩ :=
      Home.exists_of_inspect hpack hns ht hlinks hdirectory
    obtain ⟨es, taken, hscopes, hfunctions, hwritten, hall⟩ :=
      build_cases settings hpack hns ht hlinks
        (fun s hs => ⟨Source.ns_of_mem_found s hs, hhome⟩) hdirectory
    obtain ⟨rfl, hfault⟩ := hall hdone
    clear hall hdone
    generalize (build settings ns t).1 = w at hwritten ⊢
    have hafter := hhome.grown hwritten.grown
    -- the same sources are found, so the same functions are compiled
    have hfound := Source.found_grown hhome hwritten.grown_functions
    obtain ⟨es', hscopes', hcompile⟩ := compileNamespace_writing settings hpack hns
      hafter.site.wellFormed (hafter.linkFree hpack) hafter.inspect_functionsDir
    obtain ⟨hsame, hsameFault⟩ := compiled_congr settings
      ((hscopes'.trans hfound).trans hscopes.symm)
    -- and each of them stands in its file
    have hstands : ∀ s ∈ (compiled settings es').scopes, s.ns = ns ∧
        Home ns absolute above root w.files ∧ ∃ path, ns.functionPath s.name = .ok path ∧
          path ∉ ([] : List Text) ∧ w.files.read path = .ok s.content := by
      rw [hsame]
      intro s hs
      obtain ⟨path, hpath, -, hread⟩ := hwritten.content s hs
      exact ⟨(hfunctions s hs).1, hafter, path, hpath, List.not_mem_nil, hread⟩
    obtain ⟨hmore, hfiles, haccepted⟩ := Home.takeEach_again (w := { files := w.files }) hstands
      (hsame ▸ hwritten.nodup)
    obtain ⟨log, hbuild⟩ := build_eq hcompile
    rw [hmore, hsameFault, hfault] at hbuild
    refine ⟨_, hbuild, haccepted.trans ?_, hfiles⟩
    rw [hwritten.accepted, ← hsame]
    exact Nat.zero_add _
  · rw [files_build_of_not_directory settings hdirectory]
    exact ⟨_, Prod.ext rfl hdone, rfl, files_build_of_not_directory settings hdirectory⟩

end Run

/-- Whether it succeeds or not, a build adds and changes nothing but compiled functions and new
directories below the functions directory, and no source. One that succeeded can be repeated without
a change. -/
theorem build_frame_idempotent (settings : Settings) (ns : Namespace) (files : FileTree)
    (hpack : Name.validate .pack ns.pack.name = .ok ()) (hns : ns.Checked)
    (hfiles : files.WellFormed) (hlinks : files.LinkFree ns.pack.dir) :
    let after := (build settings ns files).1.files
    after.start = files.start ∧
      (∀ place, after.node? place ≠ files.node? place →
        ∃ dir, files.locate .target ns.functionsDir = .ok (dir, some .directory) ∧
          Touched dir place (files.node? place) (after.node? place)) ∧
      (∀ name above node, Pack.sourceExtension <:+ name → node ≠ .directory →
        (after.node? (name :: above) = some node ↔ files.node? (name :: above) = some node)) ∧
      ((build settings ns files).2 = none →
        ∃ w, build settings ns after = (w, none) ∧
          w.accepted = (build settings ns files).1.accepted ∧ w.files = after) := by
  intro after
  have hstart : after.start = files.start := by
    rcases grown_build settings hpack hns hfiles hlinks with hsame | ⟨_, _, _, -, hgrown⟩
    · rw [← hsame]
    · exact hgrown.start
  have htouched : ∀ place, after.node? place ≠ files.node? place →
      ∃ dir, files.locate .target ns.functionsDir = .ok (dir, some .directory) ∧
        Touched dir place (files.node? place) (after.node? place) := by
    intro place hne
    rcases grown_build settings hpack hns hfiles hlinks with hsame | ⟨_, _, root, hhome, hgrown⟩
    · exact absurd (congrArg (FileTree.node? · place) hsame) hne
    · exact ⟨functionsPlace root ns, hhome.locate_functionsDir,
        touched_of_change (hgrown.change place) hne⟩
  refine ⟨hstart, htouched, fun name above node hname hnode => ?_,
    build_again settings hpack hns hfiles hlinks⟩
  by_cases heq : after.node? (name :: above) = files.node? (name :: above)
  · rw [heq]
  · obtain ⟨dir, -, htouch⟩ := htouched _ heq
    obtain ⟨hbefore, hafter⟩ := htouch.not_source hname hnode
    exact iff_of_false hafter hbefore

/-- The first build writes two functions, one of them into new directories next to the source. -/
theorem build_frame_idempotent_linkedTree :
    linkedTree.WellFormed ∧ linkedTree.LinkFree linkedNamespace.pack.dir ∧
    ∃ first, build {} linkedNamespace linkedTree = (first, none) ∧ first.accepted = 2 ∧
      first.files ≠ linkedTree ∧
      ∃ second, build {} linkedNamespace first.files = (second, none) ∧ second.accepted = 2 ∧
        second.files = first.files := by
  have hfiles : linkedTree.WellFormed := by decide +kernel
  have hlinks : linkedTree.LinkFree linkedNamespace.pack.dir := by decide +kernel
  have hns : linkedNamespace.Checked := by
    unfold Namespace.Checked
    decide +kernel
  have hfirst : (build {} linkedNamespace linkedTree).2 = none ∧
      (build {} linkedNamespace linkedTree).1.accepted = 2 ∧
      (build {} linkedNamespace linkedTree).1.files ≠ linkedTree := by decide +kernel
  obtain ⟨-, -, -, hagain⟩ := build_frame_idempotent {} linkedNamespace linkedTree
    (by decide +kernel) hns hfiles hlinks
  generalize build {} linkedNamespace linkedTree = result at hfirst hagain ⊢
  obtain ⟨hdone, haccepted, hchanged⟩ := hfirst
  obtain ⟨second, hbuild, hsame, hstill⟩ := hagain hdone
  exact ⟨hfiles, hlinks, result.1, Prod.ext rfl hdone, haccepted, hchanged, second, hbuild,
    hsame.trans haccepted, hstill⟩

end Compiler

end Packwright
