import Packwright.Build
import Packwright.Proofs.Address
import Packwright.Proofs.Walk

/-! # Building and printing agree

A build writes functions while sources are still unread. It reads what it would have read without
writing, so what it writes is what is printed from the tree before it: every printed function stands
in its file, and no other file is touched (`build_agrees_with_emit`).
-/

namespace Packwright

open FileTree (Grown)
open Text (ascii)

/-! ## The sources of a namespace -/

namespace Source

/-- The source functions of a namespace in a tree that does not change. -/
def found (t : FileTree) (ns : Namespace) : List Scope :=
  match t.inspect ns.functionsDir, t.list ns.functionsDir with
  | .ok .directory, .ok entries =>
    sources t ns (t.entries.length + 1) ns.functionsDir [] entries
  | _, _ => []

theorem ns_of_mem_found {t : FileTree} {ns : Namespace} : ∀ s ∈ found t ns, s.ns = ns := by
  unfold found
  split
  next => exact ns_of_mem_sources _ _ _ _
  next => exact nofun

variable {σ : Type} {ns : Namespace}

/-- The sources of a namespace are handed out as they stand in the tree at the beginning, if the
tree grows by functions of the namespace only. -/
theorem feed_eq (files : σ → FileTree) (receive : Receiver σ) (state : σ) {node : Node}
    (hpack : Name.validate .pack ns.pack.name = .ok ()) (hns : ns.Checked)
    (hfiles : (files state).WellFormed) (hlinks : (files state).LinkFree ns.pack.dir)
    (hinspect : (files state).inspect ns.functionsDir = .ok node)
    (hgrown : ∀ absolute above root, Home ns absolute above root (files state) →
      ∃ holds : σ → Prop, holds state ∧
        (∀ later, holds later →
          Grown (functionsPlace root ns) (fun place => ∃ name, place = filePlace root ns name)
            (files state) (files later)) ∧
        ∀ now es later, holds now → (∀ s ∈ (Flow.mk es none).scopes, s.ns = ns) →
          takeEach receive now es = (later, .more) → holds later) :
    ∃ es, (Flow.mk es none).scopes = found (files state) ns ∧
      feed files receive ns state = takeEach receive state es := by
  by_cases hdirectory : node = .directory
  · subst hdirectory
    obtain ⟨absolute, above, root, hhome⟩ := Home.exists_of_inspect hpack hns hfiles hlinks hinspect
    obtain ⟨holds, hstate, hlater, hholds⟩ := hgrown absolute above root hhome
    have hwalk := walk_eq exists_extension hhome hlater hholds ((files state).entries.length + 1)
      (.refl hhome.site.wellFormed) (List.forall_mem_nil _) hstate
    rw [dirPath_nil hhome] at hwalk
    rw [found, feed, hinspect, hhome.list_functionsDir]
    exact hwalk
  · rw [found, feed, hinspect]
    cases node with
    | directory => exact absurd rfl hdirectory
    | file | link => exact ⟨[], rfl, rfl⟩

/-- A source with a place in the tree has its functions directory there. -/
theorem exists_home_found {t : FileTree} (hpack : Name.validate .pack ns.pack.name = .ok ())
    (hns : ns.Checked) (ht : t.WellFormed) (hlinks : t.LinkFree ns.pack.dir) :
    ∃ absolute above root, ∀ s ∈ found t ns, s.ns = ns ∧ Home ns absolute above root t := by
  by_cases hdirectory : t.inspect ns.functionsDir = .ok .directory
  · obtain ⟨absolute, above, root, hhome⟩ :=
      Home.exists_of_inspect hpack hns ht hlinks hdirectory
    exact ⟨absolute, above, root, fun s hs => ⟨ns_of_mem_found s hs, hhome⟩⟩
  · refine ⟨false, [], [], fun s hs => ?_⟩
    unfold found at hs
    split at hs
    next hinspect _ => exact absurd hinspect hdirectory
    next => cases hs

end Source

/-! ## What is compiled from them -/

namespace Compiler

open Pipeline (deliver start)

variable {settings : Settings} {ns : Namespace}

/-- What the compiler makes of events. -/
def compiled (settings : Settings) (es : List Event) : Flow :=
  (Pipeline.flow Stage.standard (start settings Stage.standard) ⟨es, none⟩).2

/-- What is compiled depends on the sources, not on the notes between them. -/
theorem compiled_congr (settings : Settings) {es es' : List Event}
    (h : (Flow.mk es none).scopes = (Flow.mk es' none).scopes) :
    (compiled settings es).scopes = (compiled settings es').scopes ∧
      (compiled settings es).fault = (compiled settings es').fault :=
  Pipeline.flow_congr Stage.standard (start settings Stage.standard) h rfl

/-- What a receiver is handed is compiled from the sources that were handed out. -/
theorem compileNamespace_eq {κ : Type} {files : κ → FileTree} {receive : Receiver κ} {k : κ}
    {es : List Event}
    (h : Source.feed (fun state : Pipeline.Memory Stage.standard × κ => files state.2)
        (deliver receive Stage.standard) ns (start settings Stage.standard, k) =
      takeEach (deliver receive Stage.standard) (start settings Stage.standard, k) es) :
    compileNamespace settings files receive ns k =
      (compiled settings es).feed receive k := by
  rw [compiled, ← (Pipeline.flowRun_agrees receive Stage.standard (start settings Stage.standard) k
    ⟨es, none⟩).fed, compileNamespace, Pipeline.flowRun]
  dsimp only
  rw [h]
  rcases takeEach (deliver receive Stage.standard) (start settings Stage.standard, k) es with
    ⟨⟨m, k'⟩, verdict⟩
  cases verdict <;> rfl

/-- A build ends as the compilation into a writer does, but for the log. -/
theorem build_eq {t : FileTree} {w : Writer} {verdict : Verdict}
    (h : compileNamespace settings Writer.files Writer.receive ns { files := t } = (w, verdict)) :
    ∃ log, build settings ns t = ({ w with log }, verdict.fault?) := by
  rw [build, h]
  cases verdict with
  | more | stop | fail => exact ⟨_, rfl⟩

/-- However many events a writer behind the compiler was handed, its tree grew by functions of the
namespace. -/
theorem grown_deliver {absolute : Bool} {above : List Text} {root : Location} {base : FileTree}
    (hhome : Home ns absolute above root base) {es : List Event}
    (hes : ∀ s ∈ (Flow.mk es none).scopes, s.ns = ns)
    {state : Pipeline.Memory Stage.standard × Writer}
    (htake : takeEach (deliver Writer.receive Stage.standard)
      (start settings Stage.standard, { files := base }) es = (state, .more)) :
    Grown (functionsPlace root ns) (fun place => ∃ name, place = filePlace root ns name) base
      state.2.files := by
  -- with a fault behind the events, the flow of the compiler ends where the events do
  let f : Flow := ⟨es, some (.external [])⟩
  have hrun : Pipeline.flowRun Writer.receive Stage.standard
      (start settings Stage.standard, { files := base }) f = (state, .fail (.external [])) := by
    rw [Pipeline.flowRun, htake]
  have hfed := (Pipeline.flowRun_agrees Writer.receive Stage.standard
    (start settings Stage.standard) { files := base } f).fed
  rw [hrun] at hfed
  let good : Namespace × Text → Prop := fun a => a.1 = ns
  have hgood : ∀ ns' name id, good (ns', name) → good (ns', Anonymous.name id) :=
    fun _ _ _ h => h
  have haddress := Pipeline.flow_address hgood Stage.standard settings (f := f) hes
  obtain ⟨taken, hwritten, -⟩ := (Written.start hhome.site.wellFormed).takeEach
    fun s hs => ⟨haddress s hs, hhome⟩
  have hstate : state.2 = _ := congrArg Prod.fst hfed
  rw [hstate]
  exact hwritten.grown_functions

section Outcome

variable (settings)
variable {t : FileTree} (hpack : Name.validate .pack ns.pack.name = .ok ()) (hns : ns.Checked)
  (ht : t.WellFormed) (hlinks : t.LinkFree ns.pack.dir)

include hpack hns ht hlinks

/-- From a tree that is only read, its sources are compiled. -/
theorem compileNamespace_reading {node : Node} (hinspect : t.inspect ns.functionsDir = .ok node)
    {κ : Type} (receive : Receiver κ) (k : κ) :
    ∃ es, (Flow.mk es none).scopes = Source.found t ns ∧
      compileNamespace settings (fun _ => t) receive ns k =
        (compiled settings es).feed receive k := by
  have hfeed : ∃ es, (Flow.mk es none).scopes = Source.found t ns ∧
      Source.feed (fun _ : Pipeline.Memory Stage.standard × κ => t)
          (deliver receive Stage.standard) ns (start settings Stage.standard, k) =
        takeEach (deliver receive Stage.standard) (start settings Stage.standard, k) es :=
    Source.feed_eq (fun _ => t) _ _ hpack hns ht hlinks hinspect fun _ _ _ _ =>
      ⟨fun _ => True, trivial, fun _ _ => .refl ht, fun _ _ _ _ _ _ => trivial⟩
  obtain ⟨es, hscopes, hfeed⟩ := hfeed
  exact ⟨es, hscopes, compileNamespace_eq hfeed⟩

/-- From a tree that is written to meanwhile, the sources are compiled that were in it before. -/
theorem compileNamespace_writing {node : Node} (hinspect : t.inspect ns.functionsDir = .ok node) :
    ∃ es, (Flow.mk es none).scopes = Source.found t ns ∧
      compileNamespace settings Writer.files Writer.receive ns { files := t } =
        (compiled settings es).feed Writer.receive { files := t } := by
  let first : Pipeline.Memory Stage.standard × Writer :=
    (start settings Stage.standard, { files := t })
  let reached (state : Pipeline.Memory Stage.standard × Writer) : Prop :=
    ∃ es, (∀ s ∈ (Flow.mk es none).scopes, s.ns = ns) ∧
      takeEach (deliver Writer.receive Stage.standard) first es = (state, .more)
  have hfeed : ∃ es, (Flow.mk es none).scopes = Source.found t ns ∧
      Source.feed (fun state : Pipeline.Memory Stage.standard × Writer => state.2.files)
          (deliver Writer.receive Stage.standard) ns first =
        takeEach (deliver Writer.receive Stage.standard) first es := by
    refine Source.feed_eq (fun state => state.2.files) _ first hpack hns ht hlinks hinspect
      fun absolute above root hhome => ⟨reached, ⟨[], nofun, rfl⟩, ?_, ?_⟩
    · rintro later ⟨es, hes, htake⟩
      exact grown_deliver hhome hes htake
    · rintro now es' later ⟨es, hes, htake⟩ hes' htake'
      refine ⟨es ++ es', fun s hs => ?_, ?_⟩
      · have hscopes : (Flow.mk (es ++ es') none).scopes =
            (Flow.mk es none).scopes ++ (Flow.mk es' none).scopes := by simp [Flow.scopes]
        rw [hscopes] at hs
        exact (List.mem_append.mp hs).elim (hes s) (hes' s)
      · rw [takeEach_append, htake]
        exact htake'
  obtain ⟨es, hscopes, hfeed⟩ := hfeed
  exact ⟨es, hscopes, compileNamespace_eq hfeed⟩

/-- A build has written functions that are compiled from the tree before it: all of them if it
succeeds. -/
theorem build_cases {absolute : Bool} {above : List Text} {root : Location}
    (hfound : ∀ s ∈ Source.found t ns, s.ns = ns ∧ Home ns absolute above root t) {node : Node}
    (hinspect : t.inspect ns.functionsDir = .ok node) :
    ∃ es taken, (Flow.mk es none).scopes = Source.found t ns ∧
      (∀ s ∈ (compiled settings es).scopes, s.ns = ns ∧ Home ns absolute above root t) ∧
      Written ns root t (build settings ns t).1 taken ∧
      ((build settings ns t).2 = none →
        taken = (compiled settings es).scopes ∧ (compiled settings es).fault = none) := by
  obtain ⟨es, hscopes, hcompile⟩ := compileNamespace_writing settings hpack hns ht hlinks hinspect
  let good : Namespace × Text → Prop := fun a => a.1 = ns ∧ Home ns absolute above root t
  have hgood : ∀ ns' name id, good (ns', name) → good (ns', Anonymous.name id) :=
    fun _ _ _ h => h
  have hhome : ∀ s ∈ (compiled settings es).scopes, s.ns = ns ∧ Home ns absolute above root t :=
    Pipeline.flow_address hgood Stage.standard settings fun s hs => hfound s (hscopes ▸ hs)
  obtain ⟨log, hbuild⟩ := build_eq hcompile
  obtain ⟨taken, hwritten, hend⟩ := (Written.start ht).takeEach hhome
  rw [hbuild]
  refine ⟨es, taken, hscopes, hhome, hwritten.logged log, fun hnone => ?_⟩
  rcases hend with ⟨hmore, htaken⟩ | ⟨fault, hfail⟩
  · rw [hmore] at hnone
    refine ⟨htaken, ?_⟩
    cases hfault : (compiled settings es).fault with
    | none => rfl
    | some fault =>
        rw [hfault] at hnone
        cases hnone
  · rw [hfail] at hnone
    cases hnone

/-- A build that succeeds has written the functions that are compiled from the tree before it,
whoever receives them. -/
theorem written_of_build {w : Writer} (hbuild : build settings ns t = (w, none)) :
    ∃ absolute above root printed,
      (∀ s ∈ printed, s.ns = ns ∧ Home ns absolute above root t) ∧ Written ns root t w printed ∧
      ∀ {κ : Type} (receive : Receiver κ) (k : κ), ∃ es, (Flow.mk es none).scopes = printed ∧
        compileNamespace settings (fun _ => t) receive ns k = takeEach receive k es := by
  obtain ⟨node, hinspect⟩ : ∃ node, t.inspect ns.functionsDir = .ok node := by
    cases hinspect : t.inspect ns.functionsDir with
    | ok node => exact ⟨node, rfl⟩
    | error error => simp [build, compileNamespace, Source.feed, hinspect] at hbuild
  obtain ⟨absolute, above, root, hfound⟩ := Source.exists_home_found hpack hns ht hlinks
  obtain ⟨es, taken, hscopes, hhome, hwritten, hdone⟩ :=
    build_cases settings hpack hns ht hlinks hfound hinspect
  rw [hbuild] at hwritten hdone
  obtain ⟨rfl, hfault⟩ := hdone rfl
  refine ⟨absolute, above, root, _, hhome, hwritten, fun receive k => ?_⟩
  obtain ⟨es', hscopes', hcompile'⟩ :=
    compileNamespace_reading settings hpack hns ht hlinks hinspect receive k
  obtain ⟨hprinted, hnone⟩ := compiled_congr settings (hscopes'.trans hscopes.symm)
  refine ⟨_, hprinted, ?_⟩
  rw [hcompile', Flow.feed, hnone, hfault, Verdict.orFault_none]

end Outcome

end Compiler

theorem Printer.takeEach_eq (p : Printer) (es : List Event) :
    (takeEach Printer.receive p es).2 = .more ∧
      (takeEach Printer.receive p es).1.text =
        p.text ++ (Flow.mk es none).scopes.flatMap (Printer.entry p.color) ∧
      (takeEach Printer.receive p es).1.accepted =
        p.accepted + (Flow.mk es none).scopes.length := by
  induction es generalizing p with
  | nil => simp [takeEach, Flow.scopes]
  | cons event es ih =>
      cases event with
      | note n => exact ih { p with log := p.log ++ [n] }
      | scope s =>
          have hscopes : (Flow.mk (.scope s :: es) none).scopes = s :: (Flow.mk es none).scopes :=
            rfl
          obtain ⟨hmore, htext, haccepted⟩ := ih { p with
            text := p.text ++ Printer.entry p.color s, accepted := p.accepted + 1 }
          rw [hscopes]
          refine ⟨hmore, htext.trans ?_, haccepted.trans ?_⟩
          · simp
          · simp
            omega

namespace Compiler

/-- A build that succeeds agrees with what is printed from the tree before it. -/
theorem build_agrees_with_emit (settings : Settings) (ns : Namespace) (files : FileTree)
    (color : Bool) (w : Writer) (hpack : Name.validate .pack ns.pack.name = .ok ())
    (hns : ns.Checked) (hfiles : files.WellFormed) (hlinks : files.LinkFree ns.pack.dir)
    (hbuild : build settings ns files = (w, none)) :
    let printed := (compileNamespace settings (fun _ => files) Collected.receive ns {}).1.scopes
    let p := (emit settings ns files color).1
    (emit settings ns files color).2 = none ∧ p.text = printed.flatMap (Printer.entry color) ∧
      p.accepted = printed.length ∧ w.accepted = printed.length ∧
      (∀ s ∈ printed, ∃ path, s.ns.functionPath s.name = .ok path ∧
        w.files.read path = .ok s.content) ∧
      ∀ place, (∀ s ∈ printed, ∀ path node, s.ns.functionPath s.name = .ok path →
          w.files.locate .target path ≠ .ok (place, node)) →
        w.files.node? place = files.node? place ∨
          files.node? place = none ∧ w.files.node? place = some .directory := by
  intro printed p
  obtain ⟨absolute, above, root, functions, hhome, hwritten, hcompile⟩ :=
    written_of_build settings hpack hns hfiles hlinks hbuild
  obtain ⟨es, hscopes, hcollect⟩ := hcompile Collected.receive {}
  obtain ⟨es', hscopes', hprint⟩ := hcompile Printer.receive { color }
  have hprinted : printed = functions := by
    have hall := ((Pipeline.takeEach_collected {} es).2 rfl).2
    rw [← hcollect, hscopes] at hall
    exact hall
  obtain ⟨hmore, htext, haccepted⟩ := Printer.takeEach_eq { color } es'
  rw [hscopes'] at htext haccepted
  have hemit : emit settings ns files color =
      ((takeEach Printer.receive { color } es').1, none) := by
    rw [emit, hprint]
    dsimp only
    rw [hmore]
    rfl
  have hp : p = (takeEach Printer.receive { color } es').1 := congrArg Prod.fst hemit
  rw [hprinted, hp]
  refine ⟨by rw [hemit], htext, haccepted.trans (Nat.zero_add _), hwritten.accepted,
    fun s hs => ?_, fun place hplace => ?_⟩
  · obtain ⟨path, hpath, -, hread⟩ := hwritten.content s hs
    rw [(hhome s hs).1]
    exact ⟨path, hpath, hread⟩
  · have hchange := hwritten.grown.change place
    generalize hbefore : files.node? place = before at hchange ⊢
    generalize hafter : w.files.node? place = after at hchange ⊢
    cases hchange with
    | same => exact .inl rfl
    | directory => exact .inr ⟨rfl, rfl⟩
    | file content hfunction =>
        -- the place belongs to a function, and its path leads there
        obtain ⟨s, hs, rfl⟩ := hfunction
        obtain ⟨path, hpath, -, hread⟩ := hwritten.content s hs
        have hafter := (hhome s hs).2.grown hwritten.grown
        have hlocate := hafter.locate_of_read hpath hread
        rw [← (hhome s hs).1] at hpath
        exact absurd hlocate (hplace s hs path _ hpath)

/-- The pack of this namespace is reached through a link. -/
def linkedNamespace : Namespace := ⟨{ path := ascii "link", name := ascii "p" }, ascii "ns"⟩

/-- One source that lies where generated functions are written, and a file that is no function. -/
def linkedTree : FileTree :=
  let pack := [ascii "p", ascii "packs"]
  let functions := ascii "functions" :: ascii "ns" :: ascii "data" :: pack
  { entries :=
      [([ascii "link"], .link (ascii "packs")), ([ascii "packs"], .directory),
        (pack, .directory), (ascii "pack.mcmeta" :: pack, .file (ascii "old")),
        (ascii "data" :: pack, .directory), (ascii "ns" :: ascii "data" :: pack, .directory),
        (functions, .directory), (ascii "_" :: functions, .directory),
        (ascii "a.mcf" :: ascii "_" :: functions, .file (ascii "as @s\n\tsay b"))] }

theorem build_agrees_with_emit_linkedTree :
    linkedTree.WellFormed ∧ linkedTree.LinkFree linkedNamespace.pack.dir ∧
    ∃ w, build {} linkedNamespace linkedTree = (w, none) ∧
      (emit {} linkedNamespace linkedTree false).1.text =
        ascii "ns:_/00/00/00/00:\nsay b\n\nns:_/a:\nas @s function ns:_/00/00/00/00\n\n" ∧
      w.accepted = (emit {} linkedNamespace linkedTree false).1.accepted ∧
      ∀ s ∈ (compileNamespace {} (fun _ => linkedTree) Collected.receive linkedNamespace
          {}).1.scopes,
        ∃ path, s.ns.functionPath s.name = .ok path ∧ w.files.read path = .ok s.content := by
  have hfiles : linkedTree.WellFormed := by decide +kernel
  have hlinks : linkedTree.LinkFree linkedNamespace.pack.dir := by decide +kernel
  have hnone : (build {} linkedNamespace linkedTree).2 = none := by decide +kernel
  obtain ⟨w, hbuild⟩ : ∃ w, build {} linkedNamespace linkedTree = (w, none) := by
    generalize build {} linkedNamespace linkedTree = result at hnone
    exact ⟨result.1, Prod.ext rfl hnone⟩
  have hns : linkedNamespace.Checked := by
    unfold Namespace.Checked
    decide +kernel
  obtain ⟨-, -, hprinted, hwritten, hcontent, -⟩ := build_agrees_with_emit {} linkedNamespace
    linkedTree false w (by decide +kernel) hns hfiles hlinks hbuild
  exact ⟨hfiles, hlinks, w, hbuild, by decide +kernel, hwritten.trans hprinted.symm, hcontent⟩

end Compiler

end Packwright
