import Packwright.Proofs.Walk

/-! # The order of sources

In a tree that stays as it is, the source functions of a namespace are its source files, told by the
names that lead to them from the functions directory. Names are compared as texts, and lists of them
name by name: this is the order in which a walk comes to the files, since a directory is walked when
its name comes up. It is not the order of the paths as texts, where a slash is a byte like others.

`sourceFiles` lists the files without paths and limits. What is in the list (`mem_sourceFiles`) and
how it is sorted (`pairwise_sourceFiles`) says nothing of a walk; that a walk finds these files if
they can be read is `Rooted.sources_eq`. So all of them are handed out in order
(`feed_lists_sources`).
-/

namespace Packwright.Source

open FileTree (Site Fits)
open Text (ascii)

variable {σ : Type} {t : FileTree} {dir root : Location} {names rel : List Text}
  {name content : Text}

/-! ## Source files -/

/-- A source file below a directory, by the names that lead to it from there. -/
structure IsSource (t : FileTree) (dir : Location) (names : List Text) (content : Text) : Prop where
  file : t.node? (names.reverse ++ dir) = some (.file content)
  extension : ∃ last ∈ names.getLast?, Pack.sourceExtension <:+ last

theorem IsSource.ne_nil (h : IsSource t dir names content) : names ≠ [] := by
  rintro rfl
  obtain ⟨last, hlast, -⟩ := h.extension
  cases hlast

/-- Further down than a directory there is something only if it is one. -/
theorem IsSource.directory (h : IsSource t dir names content) (ht : t.WellFormed) :
    t.node? dir = some .directory := by
  obtain ⟨last, above, heq⟩ := List.exists_cons_of_ne_nil (List.reverse_ne_nil_iff.mpr h.ne_nil)
  have hfile := h.file
  rw [heq] at hfile
  exact ht.directory_of_append (ht.above hfile)

theorem isSource_append (hrel : rel ≠ []) :
    IsSource t dir (names ++ rel) content ↔ IsSource t (names.reverse ++ dir) rel content := by
  have hplace : (names ++ rel).reverse ++ dir = rel.reverse ++ (names.reverse ++ dir) := by simp
  have hlast : (names ++ rel).getLast? = rel.getLast? := List.getLast?_append_of_ne_nil _ hrel
  constructor
  · rintro ⟨hfile, hextension⟩
    exact ⟨hplace ▸ hfile, hlast ▸ hextension⟩
  · rintro ⟨hfile, hextension⟩
    exact ⟨hplace ▸ hfile, hlast ▸ hextension⟩

/-- A source file lies in the directory itself, or further down in a directory there. -/
theorem isSource_cons (ht : t.WellFormed) :
    IsSource t dir (name :: rel) content ↔
      (t.node? (name :: dir) = some (.file content) ∧ Pack.sourceExtension <:+ name ∧ rel = []) ∨
      (t.node? (name :: dir) = some .directory ∧ IsSource t (name :: dir) rel content) := by
  by_cases hrel : rel = []
  · subst hrel
    constructor
    · rintro ⟨hfile, last, hlast, hextension⟩
      obtain rfl := Option.some.inj hlast
      exact .inl ⟨hfile, hextension, rfl⟩
    · rintro (⟨hfile, hextension, -⟩ | ⟨-, hsource⟩)
      · exact ⟨hfile, name, rfl, hextension⟩
      · exact absurd rfl hsource.ne_nil
  · have happend : IsSource t dir ([name] ++ rel) content ↔ IsSource t (name :: dir) rel content :=
      isSource_append hrel
    rw [← List.singleton_append, happend]
    constructor
    · exact fun hsource => .inr ⟨hsource.directory ht, hsource⟩
    · rintro (⟨-, -, hnil⟩ | ⟨-, hsource⟩)
      · exact absurd hnil hrel
      · exact hsource

/-- The source files that an entry of a directory leads to, where `below` are those in it. -/
def sourceFilesOf (below : List (List Text × Text)) : Text × Node → List (List Text × Text)
  | (name, .directory) => below.map fun f => (name :: f.1, f.2)
  | (name, .file content) =>
    if Pack.sourceExtension.isSuffixOf name then [([name], content)] else []
  | (_, .link _) => []

/-- The source files below a directory, down to a depth, in the order of a walk. -/
def sourceFiles (t : FileTree) : (depth : Nat) → Location → List (List Text × Text)
  | 0, _ => []
  | depth + 1, dir =>
    (t.children dir).flatMap fun e => sourceFilesOf (sourceFiles t depth (e.1 :: dir)) e

theorem mem_sourceFilesOf {below : List (List Text × Text)} {node : Node} :
    (names, content) ∈ sourceFilesOf below (name, node) ↔
      (node = .file content ∧ Pack.sourceExtension <:+ name ∧ names = [name]) ∨
      (node = .directory ∧ ∃ rel, names = name :: rel ∧ (rel, content) ∈ below) := by
  cases node with
  | link => simp [sourceFilesOf]
  | directory => simp [sourceFilesOf, and_comm, eq_comm]
  | file content' =>
      by_cases hextension : Pack.sourceExtension <:+ name
      · simp [sourceFilesOf, hextension, and_comm, eq_comm (a := content)]
      · simp [sourceFilesOf, hextension]

/-- All source files are listed, and nothing else. -/
theorem mem_sourceFiles (ht : t.WellFormed) {depth : Nat} :
    (names, content) ∈ sourceFiles t depth dir ↔
      names.length ≤ depth ∧ IsSource t dir names content := by
  induction depth generalizing dir names with
  | zero =>
      rw [sourceFiles, Nat.le_zero, List.length_eq_zero_iff]
      simpa using fun hnil hsource => IsSource.ne_nil hsource hnil
  | succ depth ih =>
      simp only [sourceFiles, List.mem_flatMap, Prod.exists, mem_sourceFilesOf, ht.mem_children, ih]
      cases names with
      | nil => simpa using fun hsource => IsSource.ne_nil hsource rfl
      | cons name rel =>
          rw [isSource_cons ht, List.length_cons, Nat.add_le_add_iff_right]
          constructor
          · rintro ⟨name', node, hnode, ⟨rfl, hextension, heq⟩ | ⟨rfl, rel', heq, hdepth, hsource⟩⟩
            · obtain ⟨rfl, rfl⟩ := List.cons.inj heq
              exact ⟨Nat.zero_le depth, .inl ⟨hnode, hextension, rfl⟩⟩
            · obtain ⟨rfl, rfl⟩ := List.cons.inj heq
              exact ⟨hdepth, .inr ⟨hnode, hsource⟩⟩
          · rintro ⟨hdepth, ⟨hnode, hextension, rfl⟩ | ⟨hnode, hsource⟩⟩
            · exact ⟨name, _, hnode, .inl ⟨rfl, hextension, rfl⟩⟩
            · exact ⟨name, _, hnode, .inr ⟨rfl, rel, rfl, hdepth, hsource⟩⟩

theorem exists_cons_of_mem_sourceFilesOf {below : List (List Text × Text)} {e : Text × Node}
    {f : List Text × Text} (h : f ∈ sourceFilesOf below e) : ∃ rel, f.1 = e.1 :: rel := by
  rcases mem_sourceFilesOf.mp h with ⟨-, -, hnames⟩ | ⟨-, rel, hnames, -⟩
  · exact ⟨[], hnames⟩
  · exact ⟨rel, hnames⟩

/-- Source files are listed in the order of their names, compared one by one. -/
theorem pairwise_sourceFiles (ht : t.WellFormed) (depth : Nat) (dir : Location) :
    (sourceFiles t depth dir).Pairwise fun f g => f.1 < g.1 := by
  induction depth generalizing dir with
  | zero => exact .nil
  | succ depth ih =>
      rw [sourceFiles, List.pairwise_flatMap]
      refine ⟨fun ⟨name, node⟩ _ => ?_, (ht.pairwise_lt_children dir).imp fun hlt f hf g hg => ?_⟩
      · cases node with
        | link => exact .nil
        | file content =>
            rw [sourceFilesOf]
            split
            · exact List.pairwise_singleton _ _
            · exact .nil
        | directory =>
            rw [sourceFilesOf, List.pairwise_map]
            exact (ih (name :: dir)).imp fun hlt => List.cons_lt_cons_iff.mpr (.inr ⟨rfl, hlt⟩)
      · obtain ⟨rel, hf⟩ := exists_cons_of_mem_sourceFilesOf hf
        obtain ⟨rel', hg⟩ := exists_cons_of_mem_sourceFilesOf hg
        rw [hf, hg]
        exact List.cons_lt_cons_iff.mpr (.inl hlt)

/-- The function that a source file holds, where `above` leads to the directory that its names start
from. -/
def functionOf (ns : Namespace) (above : List Text) (file : List Text × Text) : Scope :=
  ⟨ns, functionName (above ++ file.1.dropLast) (file.1.getLastD []), file.2⟩

theorem functionOf_cons (ns : Namespace) (above : List Text) (hrel : rel ≠ []) :
    functionOf ns above (name :: rel, content) =
      functionOf ns (above ++ [name]) (rel, content) := by
  obtain ⟨next, more, rfl⟩ := List.exists_cons_of_ne_nil hrel
  simp [functionOf]

theorem functionName_append (above : List Text) (h : Pack.sourceExtension <:+ name) :
    functionName above name ++ Pack.sourceExtension = Text.join [Text.slash] (above ++ [name]) := by
  obtain ⟨stem, rfl⟩ := h
  have hstem : (stem ++ Pack.sourceExtension).take
      ((stem ++ Pack.sourceExtension).length - Pack.sourceExtension.length) = stem := by
    rw [List.length_append, Nat.add_sub_cancel, List.take_left]
  rw [functionName, hstem]
  by_cases habove : above = []
  · simp [habove, Text.join]
  · rw [Text.join_concat _ habove, Text.join_concat _ habove, ← List.append_assoc]

/-- A function is named by the path of its file without the extension. -/
theorem name_functionOf (ns : Namespace) (h : IsSource t dir names content) :
    (functionOf ns [] (names, content)).name ++ Pack.sourceExtension =
      Text.join [Text.slash] names := by
  obtain ⟨last, hlast, hextension⟩ := h.extension
  obtain ⟨init, rfl⟩ := List.getLast?_eq_some_iff.mp hlast
  have hname := functionName_append init hextension
  simpa [functionOf] using hname

/-! ## Walks over a tree that stays as it is -/

/-- A walk hands on what it would find in the tree by itself. -/
theorem walk_still (t : FileTree) (receive : Receiver σ) (ns : Namespace) (depth : Nat)
    (path : Text) (above : List Text) (entries : List (Text × Node)) (state : σ) :
    ∃ es, (Flow.mk es none).scopes = sources t ns depth path above entries ∧
      walk (fun _ => t) receive ns depth path above entries state = takeEach receive state es := by
  induction depth generalizing path above entries state with
  | zero => exact ⟨[], rfl, rfl⟩
  | succ depth ih =>
      rw [walk_succ, sources]
      have hholds : ∀ state es state', True → (∀ s ∈ (Flow.mk es none).scopes, True) →
          takeEach receive state es = (state', .more) → True := fun _ _ _ _ _ _ => trivial
      refine takeEach_flatMap hholds (fun _ _ _ _ => trivial) ?_ trivial
      rintro ⟨name, node⟩ - state -
      cases node with
      | file | link =>
          simp only [sourcesOf, visit]
          split
          · exact load_eq fun _ => Iff.rfl
          · exact ⟨[], rfl, rfl⟩
      | directory =>
          rw [sourcesOf, visit]
          cases t.list (path ++ [Text.slash] ++ name) with
          | error error => exact ⟨[.note (.pathSkipped _ error)], rfl, (takeEach_singleton ..).symm⟩
          | ok entries => exact ih _ _ _ state

/-- A directory with its path, and no links below it. -/
structure Rooted (t : FileTree) (absolute : Bool) (es : List Text) (root : Location) : Prop
    extends Site t absolute es root where
  settled : Path.Settled absolute es
  ne_nil : es ≠ []
  directory : t.node? root = some .directory

/-- Whether all source files below a directory can be read. -/
def Readable (t : FileTree) (path : Text) (root : Location) : Prop :=
  ∀ names content, IsSource t root names content →
    ∃ found, t.read (path ++ [Text.slash] ++ Text.join [Text.slash] names) = .ok found

/-- Whether a source file is found behind names. -/
def isSource (t : FileTree) (dir : Location) (names : List Text) : Bool :=
  match t.node? (names.reverse ++ dir) with
  | some (.file _) => names.getLast?.any Pack.sourceExtension.isSuffixOf
  | _ => false

theorem isSource_iff : isSource t dir names = true ↔ ∃ content, IsSource t dir names content := by
  have hextension : names.getLast?.any Pack.sourceExtension.isSuffixOf = true ↔
      ∃ last ∈ names.getLast?, Pack.sourceExtension <:+ last := by
    simp [Option.any_eq_true, List.isSuffixOf_iff_suffix]
  unfold isSource
  split
  next content hfile =>
    rw [hextension]
    exact ⟨fun hlast => ⟨content, hfile, hlast⟩, fun ⟨_, hsource⟩ => hsource.extension⟩
  next hnone => simpa using fun content hsource => hnone content hsource.file

theorem readable_iff {path : Text} :
    Readable t path root ↔ ∀ e ∈ t.entries, root <:+ e.1 →
      let names := (e.1.take (e.1.length - root.length)).reverse
      isSource t root names = true →
        (t.read (path ++ [Text.slash] ++ Text.join [Text.slash] names)).toOption.isSome = true := by
  have hok : ∀ result : Except FileError Text,
      result.toOption.isSome = true ↔ ∃ found, result = .ok found := by
    rintro (error | found) <;> simp [Except.toOption]
  constructor
  · intro h e _ _ names hsource
    obtain ⟨content, hsource⟩ := isSource_iff.mp hsource
    exact (hok _).mpr (h names content hsource)
  · intro h names content hsource
    have hentry := FileTree.mem_entries_of_node? (by simp [hsource.ne_nil]) hsource.file
    have hnames : ((names.reverse ++ root).take
        ((names.reverse ++ root).length - root.length)).reverse = names := by
      rw [List.length_append, Nat.add_sub_cancel, List.take_left, List.reverse_reverse]
    have hread := h _ hentry (List.suffix_append _ _)
    rw [hnames] at hread
    exact (hok _).mp (hread (isSource_iff.mpr ⟨content, hsource⟩))

instance (t : FileTree) (path : Text) (root : Location) : Decidable (Readable t path root) :=
  decidable_of_iff _ readable_iff.symm

namespace Rooted

variable {ns : Namespace} {absolute : Bool} {es : List Text}

/-- The path of the functions directory leads to a directory there. -/
theorem exists_rooted (ht : t.WellFormed)
    (hroot : t.locate .entry ns.functionsDir = .ok (root, some .directory))
    (hlinks : t.LinkFree ns.functionsDir) :
    ∃ absolute es, ns.functionsDir = Path.render absolute es ∧ Rooted t absolute es root := by
  obtain ⟨absolute, above, habove, hdir⟩ := Path.exists_functionsDir ns
  have hsettled := habove.append (List.forall_mem_singleton.mpr Path.stays_functions)
  rw [hdir] at hroot hlinks
  obtain ⟨hfault, hresolve⟩ := FileTree.resolve_of_locate (by simp) hsettled.isElement hroot
  obtain ⟨hdirectory, links, hleads⟩ := FileTree.exists_leads_to (by decide) hresolve
  exact ⟨absolute, above ++ [ascii "functions"], hdir,
    ⟨ht, ⟨links, hleads⟩, hlinks root _ (hleads.locate hsettled hfault)⟩, hsettled, by simp,
    hdirectory⟩

theorem list_root (h : Rooted t absolute es root) {path : Text}
    (hpath : path = Path.render absolute es) {found : Location × Option Node}
    (hlocate : t.locate .entry path = .ok found) :
    t.list path = .ok (t.children root) := by
  obtain ⟨links, hleads⟩ := h.leads
  rw [hpath] at hlocate ⊢
  have hfault := (FileTree.resolve_of_locate h.ne_nil h.settled.isElement hlocate).1
  rw [FileTree.list, hleads.locate h.settled hfault, h.directory]

theorem render_concat (h : Rooted t absolute es root) (names : List Text) (name : Text) :
    Path.render absolute (es ++ names ++ [name]) =
      Path.render absolute (es ++ names) ++ [Text.slash] ++ name := by
  rw [Path.render_concat absolute (by simp [h.ne_nil]), List.append_assoc, List.singleton_append]

theorem arrives (h : Rooted t absolute es root) (hstays : ∀ e ∈ names ++ [name], Path.Stays e) :
    let path := Path.render absolute (es ++ names ++ [name])
    t.Arrives .target path (Fits names name path) (name :: (names.reverse ++ root)) :=
  h.toSite.arrives h.settled hstays (fun _ => h.directory) .target

variable (hreadable : Readable t (Path.render absolute es) root)

include hreadable

/-- A source file is read, and the paths that lead to it are short enough. -/
theorem read_source (h : Rooted t absolute es root)
    (hsource : IsSource t root (names ++ [name]) content) :
    let path := Path.render absolute (es ++ names ++ [name])
    Fits names name path ∧ t.read path = .ok content := by
  intro path
  obtain ⟨found, hread⟩ := hreadable _ content hsource
  rw [List.append_assoc, List.singleton_append,
    ← Path.render_append absolute h.ne_nil hsource.ne_nil, ← List.append_assoc] at hread
  have hstays := h.wellFormed.stays_of_append hsource.file
  have harrives := h.arrives fun e he => hstays e (List.mem_reverse.mpr he)
  have hfile : t.node? (name :: (names.reverse ++ root)) = some (.file content) := by
    simpa using hsource.file
  have hfits := (harrives.read_eq_ok.mp hread).1
  exact ⟨hfits, harrives.read_eq_ok.mpr ⟨hfits, hfile⟩⟩

/-- A directory that leads to a source file is listed. -/
theorem list_above (h : Rooted t absolute es root) (hstays : ∀ e ∈ names ++ [name], Path.Stays e)
    (hsource : IsSource t (name :: (names.reverse ++ root)) rel content) :
    t.list (Path.render absolute (es ++ names ++ [name])) =
      .ok (t.children (name :: (names.reverse ++ root))) := by
  obtain ⟨init, last, rfl⟩ := List.eq_nil_or_concat' rel |>.resolve_left hsource.ne_nil
  have hplace : (names ++ [name]).reverse ++ root = name :: (names.reverse ++ root) := by simp
  have hbelow : IsSource t root (names ++ [name] ++ init ++ [last]) content := by
    rw [List.append_assoc, isSource_append (by simp), hplace]
    exact hsource
  obtain ⟨⟨hfault, hlength⟩, -⟩ := h.read_source hreadable hbelow
  have hinitial : Path.render absolute (es ++ names ++ [name]) <+:
      Path.render absolute (es ++ (names ++ [name] ++ init) ++ [last]) := by
    have hrender := Path.render_initial absolute
      (List.append_ne_nil_of_right_ne_nil (es ++ names) (List.cons_ne_nil name [])) (init ++ [last])
    simpa using hrender
  have hdirectory := hsource.directory h.wellFormed
  refine (h.arrives hstays).list_eq_ok.mpr ⟨⟨?_, fun e he => ?_⟩, hdirectory, rfl⟩
  · refine FileTree.pathFault?_of_initial hinitial (Path.render_ne_nil absolute ?_) hfault
    rw [List.append_assoc]
    exact (h.settled.append hstays).isElement
  · refine hlength e ?_
    rw [List.append_assoc]
    exact List.mem_append_left _ he

theorem sourcesOf_file (h : Rooted t absolute es root) (ns : Namespace)
    (hnode : t.node? (name :: (names.reverse ++ root)) = some (.file content))
    (below : Text → List Text → List (Text × Node) → List Scope)
    (files : List (List Text × Text)) :
    sourcesOf t ns below (Path.render absolute (es ++ names)) names (name, .file content) =
      (sourceFilesOf files (name, .file content)).map (functionOf ns names) := by
  simp only [sourcesOf, sourceFilesOf]
  by_cases hextension : Pack.sourceExtension.isSuffixOf name = true
  · have hsource : IsSource t root (names ++ [name]) content :=
      ⟨by simpa using hnode, name, by simp, List.isSuffixOf_iff_suffix.mp hextension⟩
    rw [if_pos hextension, if_pos hextension, ← h.render_concat,
      (h.read_source hreadable hsource).2]
    simp [functionOf]
  · rw [if_neg hextension, if_neg hextension]
    rfl

/-- A directory that cannot be listed leads to no source file, since the file could not be read. -/
theorem sourcesOf_directory (h : Rooted t absolute es root) (ns : Namespace)
    (hstays : ∀ e ∈ names ++ [name], Path.Stays e) {depth : Nat}
    (hbelow : sources t ns depth (Path.render absolute (es ++ names ++ [name])) (names ++ [name])
        (t.children (name :: (names.reverse ++ root))) =
      (sourceFiles t depth (name :: (names.reverse ++ root))).map
        (functionOf ns (names ++ [name]))) :
    let files := sourceFiles t depth (name :: (names.reverse ++ root))
    sourcesOf t ns (sources t ns depth) (Path.render absolute (es ++ names)) names
        (name, .directory) =
      (sourceFilesOf files (name, .directory)).map (functionOf ns names) := by
  intro files
  have hmap : (sourceFilesOf files (name, .directory)).map (functionOf ns names) =
      files.map (functionOf ns (names ++ [name])) := by
    rw [sourceFilesOf, List.map_map]
    refine List.map_congr_left fun ⟨rel, content⟩ hf => ?_
    exact functionOf_cons ns names ((mem_sourceFiles h.wellFormed).mp hf).2.ne_nil
  rw [hmap, sourcesOf, ← h.render_concat]
  cases hlist : t.list (Path.render absolute (es ++ names ++ [name])) with
  | ok entries =>
      obtain ⟨-, -, rfl⟩ := (h.arrives hstays).list_eq_ok.mp hlist
      exact hbelow
  | error error =>
      have hnil : files = [] := by
        refine List.eq_nil_iff_forall_not_mem.mpr fun ⟨rel, content⟩ hf => ?_
        have hsource := ((mem_sourceFiles h.wellFormed).mp hf).2
        rw [h.list_above hreadable hstays hsource] at hlist
        cases hlist
      rw [hnil]
      rfl

/-- Where all source files can be read, a walk finds the files that are listed. -/
theorem sources_eq (h : Rooted t absolute es root) (ns : Namespace) (depth : Nat)
    (hnames : ∀ e ∈ names, Path.Stays e) :
    let dir := names.reverse ++ root
    sources t ns depth (Path.render absolute (es ++ names)) names (t.children dir) =
      (sourceFiles t depth dir).map (functionOf ns names) := by
  intro dir
  induction depth generalizing names with
  | zero => rfl
  | succ depth ih =>
      rw [sources, sourceFiles, List.map_flatMap]
      refine List.flatMap_congr ?_
      rintro ⟨name, node⟩ he
      have hnode := h.wellFormed.mem_children.mp he
      cases node with
      | link target => exact absurd hnode (h.free (name :: names.reverse) target (by simp))
      | file content => exact h.sourcesOf_file hreadable ns hnode _ _
      | directory =>
          have hstays : ∀ e ∈ names ++ [name], Path.Stays e := by
            rw [List.forall_mem_append, List.forall_mem_singleton]
            exact ⟨hnames, h.wellFormed.stays hnode⟩
          have hplace : (names ++ [name]).reverse ++ root = name :: dir := by simp [dir]
          have hbelow := ih hstays
          rw [hplace, ← List.append_assoc] at hbelow
          exact h.sourcesOf_directory hreadable ns hstays hbelow

end Rooted

/-! ## All sources of a namespace -/

/-- Different source files hold functions of different names. -/
theorem nodup_name_functionOf (ht : t.WellFormed) (ns : Namespace) (depth : Nat) (dir : Location) :
    (((sourceFiles t depth dir).map (functionOf ns [])).map Scope.name).Nodup := by
  rw [List.map_map]
  refine List.Nodup.map_on ?_ ((pairwise_sourceFiles ht depth dir).imp fun hlt heq => ?_)
  · rintro ⟨names, content⟩ hf ⟨names', content'⟩ hg heq
    have hsource := ((mem_sourceFiles ht).mp hf).2
    have hsource' := ((mem_sourceFiles ht).mp hg).2
    have hpath := congrArg (· ++ Pack.sourceExtension) heq
    simp only [Function.comp_apply, name_functionOf ns hsource,
      name_functionOf ns hsource'] at hpath
    -- no name has a slash in it, so the names can be read off the path
    have helements : ∀ {names content}, IsSource t dir names content →
        Path.elements (Text.join [Text.slash] names) = names := fun hsource =>
      Path.elements_join fun e he =>
        (ht.stays_of_append hsource.file e (List.mem_reverse.mpr he)).toIsElement
    obtain rfl : names = names' := by
      rw [← helements hsource, hpath, helements hsource']
    have hfile := hsource.file.symm.trans hsource'.file
    rw [Node.file.inj (Option.some.inj hfile)]
  · rw [heq] at hlt
    exact List.lt_irrefl _ hlt

/-- The functions of the source files are handed out, file by file. -/
theorem feed_still {ns : Namespace} (ht : t.WellFormed)
    (hroot : t.locate .entry ns.functionsDir = .ok (root, some .directory))
    (hlinks : t.LinkFree ns.functionsDir) (hreadable : Readable t ns.functionsDir root) :
    ∃ collected, feed (fun _ => t) Collected.receive ns {} = (collected, .more) ∧
      collected.scopes =
        (sourceFiles t (t.entries.length + 1) root).map (functionOf ns []) := by
  obtain ⟨absolute, es, hdir, hrooted⟩ := Rooted.exists_rooted ht hroot hlinks
  have hinspect : t.inspect ns.functionsDir = .ok .directory := by
    rw [FileTree.inspect, hroot]
  have hlist : t.list ns.functionsDir = .ok (t.children root) := hrooted.list_root hdir hroot
  obtain ⟨events, hscopes, hwalk⟩ := walk_still t Collected.receive ns (t.entries.length + 1)
    ns.functionsDir [] (t.children root) {}
  obtain ⟨hmore, hcollected⟩ := (Pipeline.takeEach_collected {} events).2 rfl
  have hsources := hrooted.sources_eq (hdir ▸ hreadable) ns (t.entries.length + 1)
    (List.forall_mem_nil _)
  rw [List.append_nil, ← hdir] at hsources
  refine ⟨_, ?_, hcollected.trans (hscopes.trans hsources)⟩
  rw [feed, hinspect, hlist]
  exact hwalk.trans (Prod.ext rfl hmore)

/-- Where the functions directory has no links below it and its source files can be read, all
sources are handed out and nothing else: one function for each source file, with what the file
holds, under the path of the file without its extension. They come in the order of these paths,
compared name by name and byte by byte, and no two of them have the same name. -/
theorem feed_lists_sources (ns : Namespace) (t : FileTree) (root : Location) (ht : t.WellFormed)
    (hroot : t.locate .entry ns.functionsDir = .ok (root, some .directory))
    (hlinks : t.LinkFree ns.functionsDir) (hreadable : Readable t ns.functionsDir root) :
    ∃ (collected : Collected) (listed : List (List Text × Text)),
      feed (fun _ => t) Collected.receive ns {} = (collected, .more) ∧
      List.Forall₂ (fun file s => s.ns = ns ∧ s.content = file.2 ∧
        s.name ++ Pack.sourceExtension = Text.join [Text.slash] file.1) listed collected.scopes ∧
      (∀ names content, (names, content) ∈ listed ↔ IsSource t root names content) ∧
      (listed.Pairwise fun file next => file.1 < next.1) ∧
      (collected.scopes.map Scope.name).Nodup := by
  obtain ⟨collected, hfeed, hscopes⟩ := feed_still ht hroot hlinks hreadable
  refine ⟨collected, sourceFiles t (t.entries.length + 1) root, hfeed, ?_, fun names content => ?_,
    pairwise_sourceFiles ht _ root, hscopes ▸ nodup_name_functionOf ht ns _ root⟩
  · rw [hscopes, List.forall₂_map_right_iff, List.forall₂_same]
    rintro ⟨names, content⟩ hf
    exact ⟨rfl, rfl, name_functionOf ns ((mem_sourceFiles ht).mp hf).2⟩
  · rw [mem_sourceFiles ht, and_iff_right_iff_imp]
    intro hsource
    have hlength := ht.length_le hsource.file
    rw [List.length_append, List.length_reverse] at hlength
    omega

/-- A namespace whose pack is reached through a link. -/
def crowdedNamespace : Namespace := ⟨{ path := ascii "link", name := ascii "p" }, ascii "ns"⟩

/-- Sources and directories with names that start alike, listed in no order. -/
def crowdedTree : FileTree :=
  let pack := [ascii "p", ascii "packs"]
  let functions := ascii "functions" :: ascii "ns" :: ascii "data" :: pack
  { entries :=
      [(ascii "a.mcf" :: functions, .file (ascii "say last")),
        (ascii "b.txt" :: functions, .file (ascii "say nothing")),
        (ascii "y.mcf" :: ascii "x.mcf" :: functions, .file (ascii "say y")),
        (ascii "a-b.mcf" :: functions, .file (ascii "say next")),
        (ascii "z.mcf" :: ascii "a" :: functions, .file (ascii "say first")),
        ([ascii "link"], .link (ascii "packs")), ([ascii "packs"], .directory),
        (pack, .directory), (ascii "data" :: pack, .directory),
        (ascii "ns" :: ascii "data" :: pack, .directory), (functions, .directory),
        (ascii "a" :: functions, .directory), (ascii "x.mcf" :: functions, .directory)] }

theorem feed_lists_sources_crowded :
    let root := [ascii "functions", ascii "ns", ascii "data", ascii "p", ascii "packs"]
    crowdedTree.locate .entry crowdedNamespace.functionsDir = .ok (root, some .directory) ∧
    IsSource crowdedTree root [ascii "x.mcf", ascii "y.mcf"] (ascii "say y") ∧
    ∃ (collected : Collected) (listed : List (List Text × Text)),
      feed (fun _ => crowdedTree) Collected.receive crowdedNamespace {} = (collected, .more) ∧
      List.Forall₂ (fun file s => s.ns = crowdedNamespace ∧ s.content = file.2 ∧
        s.name ++ Pack.sourceExtension = Text.join [Text.slash] file.1) listed collected.scopes ∧
      (∀ names content, (names, content) ∈ listed ↔ IsSource crowdedTree root names content) ∧
      (listed.Pairwise fun file next => file.1 < next.1) ∧
      (collected.scopes.map Scope.name).Nodup := by
  intro root
  have hroot : crowdedTree.locate .entry crowdedNamespace.functionsDir =
      .ok (root, some .directory) := by decide +kernel
  refine ⟨hroot, ⟨by decide +kernel, ascii "y.mcf", rfl, by decide +kernel⟩, ?_⟩
  exact feed_lists_sources crowdedNamespace crowdedTree root (by decide +kernel) hroot
    (by decide +kernel) (by decide +kernel)

end Packwright.Source
