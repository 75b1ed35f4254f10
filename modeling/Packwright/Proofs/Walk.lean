import Packwright.Proofs.Writing
import Packwright.Source

/-! # Walks over a tree that grows

The source functions of a namespace are handed on one by one, and what is compiled from them may be
written into the directories that are still to be walked. A walk sees these files and directories,
but it finds no sources in them: compiled functions have another extension, and new directories hold
nothing else. So it hands on the sources of the tree that it started from (`walk_eq`), in the same
order, and only its notes may differ.
-/

namespace Packwright

open FileTree (Change Down Grown)

namespace Source

variable {σ : Type}

/-- The sources that an entry of a directory leads to in a tree that does not change, where `below`
gives those in the entries of another directory. -/
def sourcesOf (t : FileTree) (ns : Namespace)
    (below : Text → List Text → List (Text × Node) → List Scope) (path : Text)
    (above : List Text) : Text × Node → List Scope
  | (name, .directory) =>
    match t.list (path ++ [Text.slash] ++ name) with
    | .error _ => []
    | .ok entries => below (path ++ [Text.slash] ++ name) (above ++ [name]) entries
  | (name, _) =>
    if Pack.sourceExtension.isSuffixOf name then
      match t.read (path ++ [Text.slash] ++ name) with
      | .error _ => []
      | .ok content => [⟨ns, functionName above name, content⟩]
    else []

/-- The sources that a walk finds in a tree that does not change. -/
def sources (t : FileTree) (ns : Namespace) :
    (depth : Nat) → Text → List Text → List (Text × Node) → List Scope
  | 0, _, _, _ => []
  | depth + 1, path, above, entries =>
    entries.flatMap (sourcesOf t ns (sources t ns depth) path above)

/-- What a walk does with one entry of a directory. -/
def visit (files : σ → FileTree) (receive : Receiver σ) (ns : Namespace) (depth : Nat) (path : Text)
    (above : List Text) (state : σ) : Text × Node → σ × Verdict
  | (name, .directory) =>
    match (files state).list (path ++ [Text.slash] ++ name) with
    | .error error => receive state (.note (.pathSkipped (path ++ [Text.slash] ++ name) error))
    | .ok entries =>
      walk files receive ns depth (path ++ [Text.slash] ++ name) (above ++ [name]) entries state
  | (name, _) =>
    if Pack.sourceExtension.isSuffixOf name then
      load files receive ns (path ++ [Text.slash] ++ name) above name state
    else (state, .more)

theorem walk_succ (files : σ → FileTree) (receive : Receiver σ) (ns : Namespace) (depth : Nat)
    (path : Text) (above : List Text) (entries : List (Text × Node)) (state : σ) :
    walk files receive ns (depth + 1) path above entries state =
      takeEach (visit files receive ns depth path above) state entries := by
  rw [walk]
  congr 1
  funext state ⟨name, node⟩
  cases node <;> rfl

theorem sources_nil (t : FileTree) (ns : Namespace) (depth : Nat) (path : Text)
    (above : List Text) : sources t ns depth path above [] = [] := by
  cases depth <;> rfl

theorem ns_of_mem_sourcesOf {t : FileTree} {ns : Namespace}
    {below : Text → List Text → List (Text × Node) → List Scope}
    (hbelow : ∀ path above entries, ∀ s ∈ below path above entries, s.ns = ns) {path : Text}
    {above : List Text} {e : Text × Node} {s : Scope} (h : s ∈ sourcesOf t ns below path above e) :
    s.ns = ns := by
  unfold sourcesOf at h
  split at h
  next =>
    split at h
    next => cases h
    next => exact hbelow _ _ _ s h
  next =>
    split at h
    next =>
      split at h
      next => cases h
      next => rw [List.mem_singleton.mp h]
    next => cases h

theorem ns_of_mem_sources {t : FileTree} {ns : Namespace} (depth : Nat) (path : Text)
    (above : List Text) (entries : List (Text × Node)) :
    ∀ s ∈ sources t ns depth path above entries, s.ns = ns := by
  induction depth generalizing path above entries with
  | zero => exact fun _ hs => nomatch hs
  | succ depth ih =>
      intro s hs
      obtain ⟨e, -, hs⟩ := List.mem_flatMap.mp hs
      exact ns_of_mem_sourcesOf ih hs

/-- Members that lead to nothing can be left out. -/
theorem flatMap_filter {α β : Type} {f : α → List β} {keep : α → Bool} {as : List α}
    (h : ∀ a ∈ as, keep a = false → f a = []) : (as.filter keep).flatMap f = as.flatMap f := by
  induction as with
  | nil => rfl
  | cons a rest ih =>
      rw [List.forall_mem_cons] at h
      cases hkeep : keep a with
      | true => simp [hkeep, ih h.2]
      | false => simp [hkeep, ih h.2, h.1 hkeep]

/-- Steps that each hand events to a receiver hand on the scopes of all of them, as far as they go.
The steps may go by the state, as long as an invariant holds of it. -/
theorem takeEach_flatMap {α : Type} {receive : Receiver σ} {step : σ → α → σ × Verdict}
    {holds : σ → Prop} {good : Scope → Prop} {f : α → List Scope} {as : List α}
    (hholds : ∀ state es state', holds state → (∀ s ∈ (Flow.mk es none).scopes, good s) →
      takeEach receive state es = (state', .more) → holds state')
    (hgood : ∀ a ∈ as, ∀ s ∈ f a, good s)
    (hstep : ∀ a ∈ as, ∀ state, holds state →
      ∃ es, (Flow.mk es none).scopes = f a ∧ step state a = takeEach receive state es)
    {state : σ} (hstate : holds state) :
    ∃ es, (Flow.mk es none).scopes = as.flatMap f ∧
      takeEach step state as = takeEach receive state es := by
  induction as generalizing state with
  | nil => exact ⟨[], rfl, rfl⟩
  | cons a rest ih =>
      rw [List.forall_mem_cons] at hgood hstep
      obtain ⟨es, hscopes, heq⟩ := hstep.1 state hstate
      have happend : ∀ es', (Flow.mk es' none).scopes = rest.flatMap f →
          (Flow.mk (es ++ es') none).scopes = (a :: rest).flatMap f := by
        intro es' hes'
        rw [List.flatMap_cons, ← hscopes, ← hes']
        simp [Flow.scopes]
      rw [takeEach, heq]
      rcases htake : takeEach receive state es with ⟨state', verdict⟩
      cases verdict with
      | more =>
          obtain ⟨es', hes', htake'⟩ := ih hgood.2 hstep.2
            (hholds state es state' hstate (hscopes ▸ hgood.1) htake)
          refine ⟨es ++ es', happend es' hes', ?_⟩
          rw [takeEach_append, htake]
          exact htake'
      | stop | fail =>
          -- nothing that follows is looked at
          refine ⟨es ++ (rest.flatMap f).map Event.scope, happend _ (Flow.scopes_ofScopes _), ?_⟩
          rw [takeEach_append_of_halted htake (by simp)]

/-- A source is loaded as from another tree in which it reads the same. -/
theorem load_eq {files : σ → FileTree} {receive : Receiver σ} {ns : Namespace} {path file : Text}
    {above : List Text} {state : σ} {t : FileTree}
    (hread : ∀ content, t.read path = .ok content ↔ (files state).read path = .ok content) :
    ∃ es, (Flow.mk es none).scopes =
        (match t.read path with
          | .error _ => []
          | .ok content => [⟨ns, functionName above file, content⟩]) ∧
      load files receive ns path above file state = takeEach receive state es := by
  unfold load
  cases hcurrent : (files state).read path with
  | ok content =>
      rw [(hread content).mpr hcurrent]
      exact ⟨_, rfl, rfl⟩
  | error error =>
      cases hbase : t.read path with
      | ok content =>
          rw [(hread content).mp hbase] at hcurrent
          cases hcurrent
      | error =>
          refine ⟨[.note (.sourceSkipped path error)], rfl, ?_⟩
          rw [takeEach_singleton]

/-- A compiled function is not named as a source. -/
theorem isSuffixOf_functionExtension (last : Text) :
    Pack.sourceExtension.isSuffixOf (last ++ Pack.functionExtension) = false := by
  rw [Bool.eq_false_iff, Ne, List.isSuffixOf_iff_suffix]
  intro hsuffix
  have hshort : Pack.sourceExtension.length ≤ Pack.functionExtension.length := by decide
  have hinside := List.suffix_of_suffix_length_le hsuffix
    (List.suffix_append last Pack.functionExtension) hshort
  exact absurd (List.isSuffixOf_iff_suffix.mpr hinside) (by decide)

/-- The path of a directory below the functions directory. -/
def dirPath (absolute : Bool) (above : List Text) (ns : Namespace) (names : List Text) : Text :=
  Path.render absolute (above ++ Path.inPack ns ++ names)

theorem dirPath_concat (absolute : Bool) (above : List Text) (ns : Namespace) (names : List Text)
    (name : Text) :
    dirPath absolute above ns (names ++ [name]) =
      dirPath absolute above ns names ++ [Text.slash] ++ name := by
  rw [dirPath, dirPath, List.append_assoc _ [Text.slash], List.singleton_append,
    ← Path.render_concat absolute (by simp [Path.inPack]), List.append_assoc _ names]

theorem place_concat (ns : Namespace) (root : Location) (names : List Text) (name : Text) :
    (Path.inPack ns ++ (names ++ [name])).reverse ++ root =
      name :: ((Path.inPack ns ++ names).reverse ++ root) := by
  simp

section Walk

variable {ns : Namespace} {absolute : Bool} {above : List Text} {root : Location}
  {base now : FileTree} {region : Location} {written : Location → Prop} {names : List Text}
  {name : Text}

theorem dirPath_nil (h : Home ns absolute above root base) :
    dirPath absolute above ns [] = ns.functionsDir := by
  rw [dirPath, List.append_nil, h.lies.functionsDir ns rfl h.checked]

theorem entry_down (h : Home ns absolute above root base) (hnames : ∀ e ∈ names, Path.Stays e)
    (hname : Path.Stays name) :
    Down absolute above (Path.inPack ns ++ names) name
      (dirPath absolute above ns names ++ [Text.slash] ++ name) := by
  refine ⟨h.lies.settled, ?_, fun e he => ?_, by simp [Path.inPack]⟩
  · rw [← dirPath_concat, dirPath]
    simp
  · simp only [List.mem_append, List.mem_singleton] at he
    rcases he with (he | he) | he
    · exact Path.stays_inPack h.checked e he
    · exact hnames e he
    · exact he ▸ hname

/-- Where there is no directory, nothing is found in one. -/
theorem sourcesOf_missing (h : Home ns absolute above root base)
    (hnames : ∀ e ∈ names, Path.Stays e) (hname : Path.Stays name)
    (hnode : base.node? (name :: ((Path.inPack ns ++ names).reverse ++ root)) ≠ some .directory)
    (below : Text → List Text → List (Text × Node) → List Scope) :
    sourcesOf base ns below (dirPath absolute above ns names) names (name, .directory) = [] := by
  rw [sourcesOf]
  split
  next => rfl
  next hlist =>
    exact absurd ((h.site.list_eq_ok (entry_down h hnames hname)).mp hlist).2.1 hnode

variable (hwritten : ∀ place, written place →
  ∃ last above, place = (last ++ Pack.functionExtension) :: above)

include hwritten

/-- What is new in a directory leads to no sources, nor does what is written. -/
theorem flatMap_sourcesOf (h : Home ns absolute above root base)
    (hgrown : Grown region written base now) (hnames : ∀ e ∈ names, Path.Stays e)
    (below : Text → List Text → List (Text × Node) → List Scope) :
    let dir := (Path.inPack ns ++ names).reverse ++ root
    let f := sourcesOf base ns below (dirPath absolute above ns names) names
    (now.children dir).flatMap f = (base.children dir).flatMap f := by
  intro dir f
  let keep (e : Text × Node) : Bool :=
    base.node? (e.1 :: dir) = some e.2 ∧ now.node? (e.1 :: dir) = some e.2
  have hfile : ∀ name content, written (name :: dir) → f (name, .file content) = [] := by
    intro name content hplace
    obtain ⟨last, above', heq⟩ := hwritten _ hplace
    rw [(List.cons.inj heq).1]
    exact if_neg (by rw [isSuffixOf_functionExtension]; nofun)
  have hold : ∀ e ∈ base.children dir, keep e = false → f e = [] := by
    rintro ⟨name, node⟩ hmem hkeep
    have hbase := h.site.wellFormed.mem_children.mp hmem
    have hchange := hgrown.change (name :: dir)
    simp only [keep, hbase, true_and, decide_eq_false_iff_not] at hkeep
    rw [hbase] at hchange
    generalize now.node? (name :: dir) = found at hkeep hchange
    cases hchange with
    | same => exact absurd rfl hkeep
    | file content hplace hold =>
        obtain ⟨old, rfl⟩ := hold _ rfl
        exact hfile name old hplace
  have hnew : ∀ e ∈ now.children dir, keep e = false → f e = [] := by
    rintro ⟨name, node⟩ hmem hkeep
    have hnow := hgrown.wellFormed.mem_children.mp hmem
    have hchange := hgrown.change (name :: dir)
    simp only [keep, hnow, and_true, decide_eq_false_iff_not] at hkeep
    rw [hnow] at hchange
    generalize hbase : base.node? (name :: dir) = old at hkeep hchange
    cases hchange with
    | same => exact absurd rfl hkeep
    | directory =>
        refine sourcesOf_missing h hnames (hgrown.wellFormed.stays hnow) ?_ below
        rw [hbase]
        nofun
    | file content hplace => exact hfile name content hplace
  have hshared : (now.children dir).filter keep = (base.children dir).filter keep := by
    refine hgrown.wellFormed.filter_children h.site.wellFormed fun name node hkeep => ?_
    simp only [keep, decide_eq_true_eq] at hkeep
    simp only [hkeep]
  rw [← flatMap_filter hold, ← flatMap_filter hnew, hshared]

variable {files : σ → FileTree} {receive : Receiver σ} {state : σ}

/-- A file that was listed now or before is loaded as the file it was in the beginning. -/
theorem visit_file (h : Home ns absolute above root base) (hnow : Grown region written base now)
    (hcurrent : Grown region written base (files state)) (hnames : ∀ e ∈ names, Path.Stays e)
    {content : Text}
    (hnode : now.node? (name :: ((Path.inPack ns ++ names).reverse ++ root)) =
      some (.file content)) (depth : Nat) :
    let path := dirPath absolute above ns names
    ∃ es, (Flow.mk es none).scopes =
        sourcesOf base ns (sources base ns depth) path names (name, .file content) ∧
      visit files receive ns depth path names state (name, .file content) =
        takeEach receive state es := by
  intro path
  have hdown := entry_down h hnames (hnow.wellFormed.stays hnode)
  simp only [sourcesOf, visit]
  by_cases hsource : Pack.sourceExtension.isSuffixOf name = true
  · have hplace : ¬ written (name :: ((Path.inPack ns ++ names).reverse ++ root)) := by
      intro hplace
      obtain ⟨last, above', heq⟩ := hwritten _ hplace
      rw [(List.cons.inj heq).1, isSuffixOf_functionExtension] at hsource
      cases hsource
    have hbase := Change.file_eq (hnode ▸ hnow.change _) hplace
    have hstill := Change.eq_file (hbase ▸ hcurrent.change _) hplace
    rw [if_pos hsource, if_pos hsource]
    refine load_eq fun content => ?_
    rw [h.site.read_eq_ok hdown, (hcurrent.site h.site).read_eq_ok hdown, hbase, hstill]
  · rw [if_neg hsource, if_neg hsource]
    exact ⟨[], rfl, rfl⟩

omit hwritten in
/-- A directory is walked if it is found, and a new one leads to no more than it did when it was not
there. -/
theorem visit_directory (h : Home ns absolute above root base)
    (hcurrent : Grown region written base (files state)) (hnames : ∀ e ∈ names, Path.Stays e)
    (hname : Path.Stays name) {depth : Nat}
    (hwalk : ∃ es, (Flow.mk es none).scopes =
        sources base ns depth (dirPath absolute above ns (names ++ [name])) (names ++ [name])
          (base.children ((Path.inPack ns ++ (names ++ [name])).reverse ++ root)) ∧
      walk files receive ns depth (dirPath absolute above ns (names ++ [name])) (names ++ [name])
          ((files state).children ((Path.inPack ns ++ (names ++ [name])).reverse ++ root)) state =
        takeEach receive state es) :
    let path := dirPath absolute above ns names
    ∃ es, (Flow.mk es none).scopes =
        sourcesOf base ns (sources base ns depth) path names (name, .directory) ∧
      visit files receive ns depth path names state (name, .directory) =
        takeEach receive state es := by
  intro path
  have hdown := entry_down h hnames hname
  have hsite := hcurrent.site h.site
  rw [dirPath_concat, place_concat] at hwalk
  rw [sourcesOf, visit]
  cases hlist : (files state).list (path ++ [Text.slash] ++ name) with
  | error error =>
      refine ⟨[.note (.pathSkipped _ error)], ?_, (takeEach_singleton ..).symm⟩
      cases hbase : base.list (path ++ [Text.slash] ++ name) with
      | error => rfl
      | ok entries =>
          obtain ⟨hfits, hdirectory, -⟩ := (h.site.list_eq_ok hdown).mp hbase
          have hok := (hsite.list_eq_ok hdown).mpr
            ⟨hfits, hcurrent.node?_directory hdirectory, rfl⟩
          rw [hlist] at hok
          cases hok
  | ok entries =>
      obtain ⟨hfits, -, rfl⟩ := (hsite.list_eq_ok hdown).mp hlist
      obtain ⟨es, hscopes, hwalk⟩ := hwalk
      refine ⟨es, hscopes.trans ?_, hwalk⟩
      cases hbase : base.list (path ++ [Text.slash] ++ name) with
      | ok entries => rw [((h.site.list_eq_ok hdown).mp hbase).2.2]
      | error error =>
          -- the directory is new, so nothing was in it
          rw [h.site.wellFormed.children_eq_nil fun hdirectory => ?_, sources_nil]
          have hok := (h.site.list_eq_ok hdown).mpr ⟨hfits, hdirectory, rfl⟩
          rw [hbase] at hok
          cases hok

variable {holds : σ → Prop}

/-- A walk over a tree that grows hands on the sources of the tree it grew from. Each directory is
listed when its turn comes, from the tree as it is `now`. -/
theorem walk_eq (h : Home ns absolute above root base)
    (hgrown : ∀ state, holds state → Grown region written base (files state))
    (hholds : ∀ state es state', holds state → (∀ s ∈ (Flow.mk es none).scopes, s.ns = ns) →
      takeEach receive state es = (state', .more) → holds state')
    (depth : Nat) (hnow : Grown region written base now) (hnames : ∀ e ∈ names, Path.Stays e)
    (hstate : holds state) :
    let path := dirPath absolute above ns names
    let dir := (Path.inPack ns ++ names).reverse ++ root
    ∃ es, (Flow.mk es none).scopes = sources base ns depth path names (base.children dir) ∧
      walk files receive ns depth path names (now.children dir) state =
        takeEach receive state es := by
  induction depth generalizing now names state with
  | zero => exact ⟨[], rfl, rfl⟩
  | succ depth ih =>
      intro path dir
      rw [walk_succ, sources, ← flatMap_sourcesOf hwritten h hnow hnames]
      refine takeEach_flatMap hholds (fun e _ s hs => ?_) ?_ hstate
      · exact ns_of_mem_sourcesOf (ns_of_mem_sources depth) hs
      · rintro ⟨name, node⟩ hmem state hstate
        have hnode := hnow.wellFormed.mem_children.mp hmem
        have hname := hnow.wellFormed.stays hnode
        cases node with
        | link target =>
            exact absurd hnode ((hnow.site h.site).free (name :: (Path.inPack ns ++ names).reverse)
              target (by simp))
        | file content => exact visit_file hwritten h hnow (hgrown state hstate) hnames hnode depth
        | directory =>
            refine visit_directory h (hgrown state hstate) hnames hname
              (ih (hgrown state hstate) ?_ hstate)
            rw [List.forall_mem_append, List.forall_mem_singleton]
            exact ⟨hnames, hname⟩

omit hwritten in
/-- Deeper than the deepest place nothing is found. -/
theorem sources_succ (h : Home ns absolute above root base) (hnames : ∀ e ∈ names, Path.Stays e)
    {depth : Nat}
    (hdepth : base.entries.length < depth + ((Path.inPack ns ++ names).reverse ++ root).length) :
    let path := dirPath absolute above ns names
    let dir := (Path.inPack ns ++ names).reverse ++ root
    sources base ns (depth + 1) path names (base.children dir) =
      sources base ns depth path names (base.children dir) := by
  intro path dir
  induction depth generalizing names with
  | zero =>
      have hnil : base.children dir = [] := by
        refine List.eq_nil_iff_forall_not_mem.mpr fun ⟨name, node⟩ he => ?_
        have hle := h.site.wellFormed.length_le (h.site.wellFormed.mem_children.mp he)
        simp only [dir, List.length_cons] at hle
        omega
      rw [hnil, sources_nil, sources_nil]
  | succ depth ih =>
      rw [sources, sources]
      refine List.flatMap_congr fun ⟨name, node⟩ he => ?_
      have hname := h.site.wellFormed.stays (h.site.wellFormed.mem_children.mp he)
      cases node with
      | file | link => rfl
      | directory =>
          simp only [sourcesOf]
          cases hlist : base.list (path ++ [Text.slash] ++ name) with
          | error => rfl
          | ok entries =>
              obtain ⟨-, -, rfl⟩ := (h.site.list_eq_ok (entry_down h hnames hname)).mp hlist
              have hstays : ∀ e ∈ names ++ [name], Path.Stays e := by
                rw [List.forall_mem_append, List.forall_mem_singleton]
                exact ⟨hnames, hname⟩
              have hbelow := ih hstays (by rw [place_concat, List.length_cons]; omega)
              rwa [dirPath_concat, place_concat] at hbelow

omit hwritten in
theorem sources_of_le (h : Home ns absolute above root base) {depth : Nat}
    (hdepth : base.entries.length + 1 ≤ depth) :
    let path := dirPath absolute above ns []
    let dir := (Path.inPack ns ++ []).reverse ++ root
    sources base ns depth path [] (base.children dir) =
      sources base ns (base.entries.length + 1) path [] (base.children dir) := by
  intro path dir
  induction depth, hdepth using Nat.le_induction with
  | base => rfl
  | succ depth hle ih =>
      exact (sources_succ h (List.forall_mem_nil _) (by omega)).trans ih

/-- In a tree that grew by functions the same sources are found. Nobody can tell what a walk
collects from what it would have collected before. -/
theorem sources_grown (h : Home ns absolute above root base)
    (hgrown : Grown region written base now) (depth : Nat) (hnames : ∀ e ∈ names, Path.Stays e) :
    let path := dirPath absolute above ns names
    let dir := (Path.inPack ns ++ names).reverse ++ root
    sources now ns depth path names (now.children dir) =
      sources base ns depth path names (base.children dir) := by
  intro path dir
  let still (_ : Collected) : FileTree := now
  have hcollected : ∀ {t : FileTree}, Home ns absolute above root t → Grown region written t now →
      (walk still Collected.receive ns depth path names (now.children dir) {}).1.scopes =
        sources t ns depth path names (t.children dir) := by
    intro t ht htgrown
    have hholds : ∀ state : Collected, True → Grown region written t (still state) :=
      fun _ _ => htgrown
    obtain ⟨es, hscopes, hwalk⟩ : ∃ es, (Flow.mk es none).scopes =
        sources t ns depth path names (t.children dir) ∧
        walk still Collected.receive ns depth path names (now.children dir) {} =
          takeEach Collected.receive {} es :=
      walk_eq hwritten ht hholds (fun _ _ _ _ _ _ => trivial) depth htgrown hnames trivial
    rw [hwalk, ← hscopes]
    exact ((Pipeline.takeEach_collected {} es).2 rfl).2
  exact (hcollected (h.grown hgrown) (.refl hgrown.wellFormed)).symm.trans (hcollected h hgrown)

end Walk

end Source

end Packwright
