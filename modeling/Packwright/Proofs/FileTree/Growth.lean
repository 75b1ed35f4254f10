import Packwright.Proofs.FileTree.Resolution

/-! # Trees that grow

Making directories and writing files leaves most of a tree alone: a directory appears only where
nothing was found, and a file only in place of a file or of nothing. So every way to a directory
stays open, and a site stays one (`Grown.site`). Where everything that is asked for is there
already, nothing changes at all.
-/

namespace Packwright.FileTree

/-- Whether a place lies below another one. -/
def Below (dir place : Location) : Prop := ∃ below, below ≠ [] ∧ place = below ++ dir

/-- How a place may change, where files may be `written` to it and directories may be `made`. -/
inductive Change (written made : Prop) : Option Node → Option Node → Prop
  | same (node : Option Node) : Change written made node node
  | directory (hmade : made) : Change written made none (some .directory)
  | file {old : Option Node} (content : Text) (hwritten : written)
      (hold : ∀ node, old = some node → ∃ c, node = .file c) :
      Change written made old (some (.file content))

namespace Change

variable {written written' made : Prop} {a b c : Option Node}

theorem mono (h : Change written made a b) (hsub : written → written') :
    Change written' made a b := by
  cases h with
  | same => exact .same _
  | directory hmade => exact .directory hmade
  | file content hwritten hold => exact .file content (hsub hwritten) hold

theorem trans (h : Change written made a b) (h' : Change written made b c) :
    Change written made a c := by
  cases h' with
  | same => exact h
  | directory hmade =>
      cases h
      exact .directory hmade
  | file content hwritten hold =>
      refine .file content hwritten fun node hnode => ?_
      cases h with
      | same => exact hold node hnode
      | directory => cases hnode
      | file _ _ hold' => exact hold' node hnode

/-- What is no file stays as it is. -/
theorem eq_of_no_file {node : Node} (h : Change written made (some node) b)
    (hnode : ∀ content, node ≠ .file content) : b = some node := by
  cases h with
  | same => rfl
  | file _ _ hold =>
      obtain ⟨content, heq⟩ := hold node rfl
      exact absurd heq (hnode content)

/-- A file stays as it is unless it is written. -/
theorem eq_file {content : Text} (h : Change written made (some (.file content)) b)
    (hwritten : ¬ written) : b = some (.file content) := by
  cases h with
  | same => rfl
  | file _ hw _ => exact absurd hw hwritten

/-- A file that was not written was there before. -/
theorem file_eq {content : Text} (h : Change written made a (some (.file content)))
    (hwritten : ¬ written) : a = some (.file content) := by
  cases h with
  | same => rfl
  | file _ hw _ => exact absurd hw hwritten

end Change

/-- A tree that grew out of another one, where files were `written` to some places at most and
directories were made below `dir` only. -/
structure Grown (dir : Location) (written : Location → Prop) (base now : FileTree) : Prop where
  start : now.start = base.start
  wellFormed : now.WellFormed
  change : ∀ place, Change (written place) (Below dir place) (base.node? place) (now.node? place)

variable {dir : Location} {written written' : Location → Prop} {base now later : FileTree}

namespace Grown

theorem refl (h : base.WellFormed) : Grown dir written base base := ⟨rfl, h, fun _ => .same _⟩

theorem trans (h : Grown dir written base now) (h' : Grown dir written now later) :
    Grown dir written base later :=
  ⟨h'.start.trans h.start, h'.wellFormed, fun place => (h.change place).trans (h'.change place)⟩

theorem mono (h : Grown dir written base now) (hsub : ∀ place, written place → written' place) :
    Grown dir written' base now :=
  ⟨h.start, h.wellFormed, fun place => (h.change place).mono (hsub place)⟩

theorem node?_of_no_file (h : Grown dir written base now) {place : Location} {node : Node}
    (hplace : base.node? place = some node) (hnode : ∀ content, node ≠ .file content) :
    now.node? place = some node := by
  have hchange := h.change place
  rw [hplace] at hchange
  exact hchange.eq_of_no_file hnode

theorem node?_directory (h : Grown dir written base now) {place : Location}
    (hplace : base.node? place = some .directory) : now.node? place = some .directory :=
  h.node?_of_no_file hplace (by simp)

/-- Something is put into a directory. -/
theorem of_set (h : base.WellFormed) {name : Text} {above : Location} {node : Node}
    (hname : Path.Stays name) (habove : base.node? above = some .directory)
    (hchange : Change (written (name :: above)) (Below dir (name :: above))
      (base.node? (name :: above)) (some node))
    (hold : base.node? (name :: above) ≠ some .directory) :
    Grown dir written base (base.set (name :: above) node) := by
  refine ⟨start_set .., h.set hname habove hold, fun place => ?_⟩
  rw [node?_set base (by simp)]
  split
  next heq =>
    rw [heq]
    exact hchange
  next => exact .same _

/-- A site stays one. -/
theorem site {absolute : Bool} {above : List Text} {root : Location}
    (h : Grown dir written base now) (hsite : Site base absolute above root) :
    Site now absolute above root := by
  obtain ⟨links, hleads⟩ := hsite.leads
  refine ⟨h.wellFormed, ⟨links, ?_⟩, fun below target hbelow hlink => ?_⟩
  · rw [h.start]
    refine hleads.mono (fun _ hplace => h.node?_directory hplace) fun place target hplace => ?_
    exact h.node?_of_no_file hplace (by simp)
  · have hchange := h.change (below ++ root)
    rw [hlink] at hchange
    cases hbase : base.node? (below ++ root) with
    | none =>
        rw [hbase] at hchange
        cases hchange
    | some node =>
        rw [hbase] at hchange
        cases hchange
        exact hsite.free below target hbelow hbase

end Grown

namespace Site

variable {t : FileTree} {absolute : Bool} {above names more : List Text} {name path : Text}
  {root : Location}

/-- The directory of a longer path is made in the directory of a shorter one. -/
theorem makeAbove_concat (t : FileTree) (absolute : Bool) (es : List Text) (e : Text) :
    t.makeAbove absolute (es ++ [e]).reverse =
      match t.target? (Path.render absolute (es ++ [e])) with
      | some .directory => (t, .ok ())
      | some _ => (t, .error ⟨.create, Path.render absolute (es ++ [e]), .notDirectory⟩)
      | none =>
        match t.makeAbove absolute es.reverse with
        | (t, .error error) => (t, .error error)
        | (t, .ok ()) =>
          match t.make (Path.render absolute (es ++ [e])) .directory,
            t.inspect (Path.render absolute (es ++ [e])) with
          | (t, .error _), .ok .directory => (t, .ok ())
          | result, _ => result := by
  have hreverse : (e :: es.reverse).reverse = es ++ [e] := by simp
  rw [← hreverse, List.reverse_reverse]
  rfl

theorem makeDirectories_render (t : FileTree) (absolute : Bool) {es : List Text} (hne : es ≠ [])
    (hes : ∀ e ∈ es, Path.IsElement e) :
    t.makeDirectories (Path.render absolute es) = t.makeAbove absolute es.reverse := by
  have hfilter : (es.filter fun s => !s.isEmpty) = es := by
    rw [List.filter_eq_self]
    intro e he
    simp [(hes e he).ne_nil]
  rw [makeDirectories, Path.isAbsolute_render absolute hes, Path.steps_render absolute hne hes,
    hfilter]

/-- Making directories below one that exists adds directories and nothing else. -/
theorem makeAbove_grown (h : Site t absolute above root) (hd : Down absolute above names name path)
    (hfits : Fits names name path)
    (hdirectory : t.node? (name :: (names.reverse ++ root)) = some .directory)
    (hmore : ∀ e ∈ more, Path.Stays e) :
    Grown (name :: (names.reverse ++ root)) (fun _ => False) t
      (t.makeAbove absolute (above ++ names ++ [name] ++ more).reverse).1 := by
  induction more using List.reverseRecOn with
  | nil =>
      have htarget := (h.target?_eq_some hd).mpr ⟨hfits, hdirectory⟩
      rw [hd.eq] at htarget
      rw [List.append_nil, makeAbove_concat, htarget]
      exact .refl h.wellFormed
  | append_singleton more e ih =>
      rw [List.forall_mem_append, List.forall_mem_singleton] at hmore
      have hgrown := ih hmore.1
      have hdown : Down absolute above (names ++ [name] ++ more) e
          (Path.render absolute (above ++ names ++ [name] ++ more ++ [e])) := by
        refine ⟨hd.settled, by simp, fun e' he' => ?_, by simp⟩
        simp only [List.mem_append, List.mem_singleton] at he'
        rcases he' with (he' | he') | he'
        · exact hd.stays e' (by simpa using he')
        · exact hmore.1 e' he'
        · exact he' ▸ hmore.2
      rw [← List.append_assoc, makeAbove_concat]
      split
      next => exact .refl h.wellFormed
      next => exact .refl h.wellFormed
      next =>
        rcases habove : t.makeAbove absolute (above ++ names ++ [name] ++ more).reverse with
          ⟨t₁, error | _⟩
        · rwa [habove] at hgrown
        · rw [habove] at hgrown
          have hsite := hgrown.site h
          dsimp only
          rcases hsite.make_cases hdown .directory with ⟨hparent, hnone, hmake⟩ | ⟨error, hmake⟩
          · rw [hmake]
            split
            next hresult _ => exact nomatch (Prod.mk.inj hresult).2
            next =>
              refine hgrown.trans (.of_set hsite.wellFormed hmore.2 hparent ?_ ?_)
              · rw [hnone]
                exact .directory ⟨e :: more.reverse, by simp, by simp⟩
              · rw [hnone]
                nofun
          · rw [hmake]
            split
            next hresult _ =>
              obtain ⟨rfl, -⟩ := Prod.mk.inj hresult
              exact hgrown
            next => exact hgrown

theorem makeDirectories_grown (h : Site t absolute above root)
    (hd : Down absolute above names name path) (hfits : Fits names name path)
    (hdirectory : t.node? (name :: (names.reverse ++ root)) = some .directory)
    (hmore : ∀ e ∈ more, Path.Stays e) :
    Grown (name :: (names.reverse ++ root)) (fun _ => False) t
      (t.makeDirectories (Path.render absolute (above ++ names ++ [name] ++ more))).1 := by
  have hes := ((hd.settled.append hd.stays).append hmore).isElement
  rw [← List.append_assoc] at hes
  rw [makeDirectories_render t absolute (by simp) hes]
  exact h.makeAbove_grown hd hfits hdirectory hmore

/-- The directory of a path is not made again where it is found. -/
theorem makeDirectories_again (h : Site t absolute above root)
    (hd : Down absolute above (names ++ more) name path) (hfits : Fits (names ++ more) name path)
    (hnames : 1 < names.length) (hdirectory : t.node? ((names ++ more).reverse ++ root) =
      some .directory) :
    t.makeDirectories (Path.directory path) = (t, .ok ()) := by
  obtain ⟨init, last, hlast⟩ : ∃ init last, names ++ more = init ++ [last] := by
    refine ⟨(names ++ more).dropLast, (names ++ more).getLast hd.ne_nil, ?_⟩
    exact (List.dropLast_append_getLast hd.ne_nil).symm
  have hinit : init ≠ [] := by
    rintro rfl
    have hlength := congrArg List.length hlast
    simp only [List.length_append, List.length_nil, List.length_singleton] at hlength
    omega
  rw [hlast] at hd hfits hdirectory
  have hes := (hd.settled.append fun e he => hd.stays e (List.mem_append_left _ he)).isElement
  have hdown : Down absolute above init last (Path.directory path) :=
    ⟨hd.settled, by rw [hd.directory_eq, List.append_assoc],
      fun e he => hd.stays e (List.mem_append_left _ he), hinit⟩
  have hinitial : Path.directory path <+: path := by
    rw [hd.directory_eq, hd.eq]
    exact Path.render_initial absolute (by simp) _
  have hshort : Fits init last (Path.directory path) := by
    refine ⟨pathFault?_of_initial hinitial ?_ hfits.1,
      fun e he => hfits.2 e (List.mem_append_left _ he)⟩
    rw [hd.directory_eq]
    exact Path.render_ne_nil absolute hes
  have htarget := (h.target?_eq_some hdown).mpr ⟨hshort, by simpa using hdirectory⟩
  rw [hdown.eq] at htarget ⊢
  rw [makeDirectories_render t absolute (by simp) (by simpa using hes), makeAbove_concat, htarget]

/-- A file that is written as it is leaves the tree as it is. -/
theorem write_again (h : Site t absolute above root) (hd : Down absolute above names name path)
    {content : Text} (hread : t.read path = .ok content) :
    t.write path content = (t, .ok ()) := by
  obtain ⟨hfits, hnode⟩ := (h.read_eq_ok hd).mp hread
  rcases h.locate_cases hd .creation with ⟨-, -, hlocate⟩ | ⟨hnone, -⟩
  · rw [write, hlocate, hnode]
    dsimp only
    rw [h.wellFormed.set_eq_self (by simp) hnode]
  · rw [hnone hfits] at hnode
    cases hnode

end Site

end Packwright.FileTree
