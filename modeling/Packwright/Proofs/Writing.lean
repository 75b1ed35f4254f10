import Packwright.Proofs.FileTree.Growth
import Packwright.Proofs.Flow
import Packwright.Sink

/-! # Writing functions

A writer that is handed functions of one namespace leaves in the tree what it was handed: every
function in its own file, and otherwise at most new directories (`Written`). This holds after every
function, also after one that could not be written. A writer that is handed them once more changes
nothing (`Home.takeEach_again`).
-/

namespace Packwright

open Text (ascii)
open FileTree (Down Fits Grown Site)

/-- The place of the functions directory of a namespace, in a pack whose directory is at `root`. -/
def functionsPlace (root : Location) (ns : Namespace) : Location := (Path.inPack ns).reverse ++ root

/-- The place of the file of a function, in a pack whose directory is at `root`. -/
def filePlace (root : Location) (ns : Namespace) (name : Text) : Location :=
  (Path.inPack ns ++ Path.fileParts name).reverse ++ root

theorem filePlace_injective (root : Location) (ns : Namespace) :
    Function.Injective (filePlace root ns) := by
  intro name name' heq
  have hparts := List.reverse_injective (List.append_cancel_right heq)
  exact Path.fileParts_injective (List.append_cancel_left hparts)

/-- The file of a function is named by the extension of compiled functions. -/
theorem exists_fileParts (name : Text) :
    ∃ more last, Path.fileParts name = more ++ [last ++ Pack.functionExtension] := by
  have hslash : Text.slash ∉ Pack.functionExtension := by decide
  obtain ⟨init, last, -, happend⟩ := Text.splitOn_append_of_not_mem hslash name
  exact ⟨init, last, happend⟩

theorem exists_extension {root : Location} {ns : Namespace} :
    ∀ place, (∃ name, place = filePlace root ns name) →
      ∃ last above, place = (last ++ Pack.functionExtension) :: above := by
  rintro place ⟨name, rfl⟩
  obtain ⟨more, last, hparts⟩ := exists_fileParts name
  exact ⟨last, (Path.inPack ns ++ more).reverse ++ root, by simp [filePlace, hparts]⟩

/-- The functions directory lies below the directory of the pack. -/
theorem down_functionsDir {ns : Namespace} {absolute : Bool} {above : List Text}
    (h : Path.Lies ns.pack absolute above) (hns : ns.Checked) :
    Down absolute above [ascii "data", ns.name] (ascii "functions") ns.functionsDir := by
  refine ⟨h.settled, ?_, Path.stays_inPack hns, by simp⟩
  rw [h.functionsDir ns rfl hns, List.append_assoc]
  rfl

/-- A namespace whose functions directory is found in a tree, in a pack without links below its
directory at `root`. -/
structure Home (ns : Namespace) (absolute : Bool) (above : List Text) (root : Location)
    (t : FileTree) : Prop where
  checked : ns.Checked
  lies : Path.Lies ns.pack absolute above
  site : t.Site absolute above root
  fits : Fits [ascii "data", ns.name] (ascii "functions") ns.functionsDir
  directory : t.node? (functionsPlace root ns) = some .directory

namespace Home

variable {ns : Namespace} {absolute : Bool} {above : List Text} {root : Location} {t t' : FileTree}

theorem down (h : Home ns absolute above root t) :
    Down absolute above [ascii "data", ns.name] (ascii "functions") ns.functionsDir :=
  down_functionsDir h.lies h.checked

theorem grown {dir : Location} {written : Location → Prop} (h : Home ns absolute above root t)
    (hgrown : Grown dir written t t') : Home ns absolute above root t' :=
  { h with site := hgrown.site h.site, directory := hgrown.node?_directory h.directory }

/-- The path of a function goes on behind the functions directory, to the place of the function. -/
theorem exists_down (h : Home ns absolute above root t) {name path : Text}
    (hpath : ns.functionPath name = .ok path) :
    ∃ more file, (∀ e ∈ more, Path.Stays e) ∧
      Down absolute above (Path.inPack ns ++ more) file path ∧
      file :: ((Path.inPack ns ++ more).reverse ++ root) = filePlace root ns name := by
  obtain ⟨hname, heq⟩ := h.lies.functionPath h.checked hpath
  obtain ⟨more, last, hparts⟩ := exists_fileParts name
  have hstays : ∀ e ∈ more ++ [last ++ Pack.functionExtension], Path.Stays e :=
    fun e he => Path.stays_of_function hname (show e ∈ Path.fileParts name from hparts ▸ he)
  refine ⟨more, last ++ Pack.functionExtension, fun e he => hstays e (by simp [he]),
    ⟨h.lies.settled, ?_, fun e he => ?_, by simp [Path.inPack]⟩, ?_⟩
  · rw [heq, hparts]
    simp
  · rw [List.append_assoc] at he
    rcases List.mem_append.mp he with he | he
    · exact Path.stays_inPack h.checked e he
    · exact hstays e he
  · rw [filePlace, hparts]
    simp

/-- A functions directory that is found in a pack without links is the home of its namespace. -/
theorem exists_of_inspect (hpack : Name.validate .pack ns.pack.name = .ok ()) (hns : ns.Checked)
    (ht : t.WellFormed) (hlinks : t.LinkFree ns.pack.dir)
    (hinspect : t.inspect ns.functionsDir = .ok .directory) :
    ∃ absolute above root, Home ns absolute above root t := by
  obtain ⟨absolute, above, hlies⟩ := Path.exists_lies ns.pack
  have hdown := down_functionsDir hlies hns
  rw [hlies.dir (Path.dir_ne_nil (Name.ne_nil_of_validate hpack))] at hlinks
  obtain ⟨found, hlocate⟩ : ∃ found, t.locate .entry ns.functionsDir = .ok found := by
    unfold FileTree.inspect at hinspect
    split at hinspect
    next hlocate => exact ⟨_, hlocate⟩
    next hlocate => exact ⟨_, hlocate⟩
    next => cases hinspect
  obtain ⟨root, hsite⟩ := Site.exists_site ht hdown hlinks hlocate
  obtain ⟨hfits, hdirectory⟩ := (hsite.inspect_eq_ok hdown).mp hinspect
  exact ⟨absolute, above, root, hns, hlies, hsite, hfits, hdirectory⟩

/-- A function that can be read lies at its place. -/
theorem locate_of_read (h : Home ns absolute above root t) {name path content : Text}
    (hpath : ns.functionPath name = .ok path) (hread : t.read path = .ok content) :
    t.locate .target path = .ok (filePlace root ns name, some (.file content)) := by
  obtain ⟨more, file, -, hdown, hplace⟩ := h.exists_down hpath
  obtain ⟨hfits, hnode⟩ := (h.site.read_eq_ok hdown).mp hread
  rw [← hplace]
  rcases h.site.locate_cases hdown .target with ⟨-, -, hlocate⟩ | ⟨hnone, -⟩
  · rw [hlocate, hnode]
  · rw [hnone hfits] at hnode
    cases hnode

/-- The functions directory is found at its place. -/
theorem locate_functionsDir (h : Home ns absolute above root t) :
    t.locate .target ns.functionsDir = .ok (functionsPlace root ns, some .directory) := by
  rcases h.site.locate_cases h.down .target with ⟨-, -, hlocate⟩ | ⟨hnone, -⟩
  · exact hlocate.trans (congrArg (fun node => Except.ok (functionsPlace root ns, node))
      h.directory)
  · exact absurd ((hnone h.fits).symm.trans h.directory) nofun

theorem inspect_functionsDir (h : Home ns absolute above root t) :
    t.inspect ns.functionsDir = .ok .directory :=
  (h.site.inspect_eq_ok h.down).mpr ⟨h.fits, h.directory⟩

theorem list_functionsDir (h : Home ns absolute above root t) :
    t.list ns.functionsDir = .ok (t.children (functionsPlace root ns)) :=
  (h.site.list_eq_ok h.down).mpr ⟨h.fits, h.directory, rfl⟩

theorem linkFree (h : Home ns absolute above root t)
    (hpack : Name.validate .pack ns.pack.name = .ok ()) : t.LinkFree ns.pack.dir := by
  rw [h.lies.dir (Path.dir_ne_nil (Name.ne_nil_of_validate hpack))]
  exact h.site.linkFree h.lies.settled (h.down.pathFault?_above h.fits.1)

/-- A function that is not written again is read as before. -/
theorem read_kept {dir : Location} {written : Location → Prop} (h : Home ns absolute above root t)
    (hgrown : Grown dir written t t') {name path content : Text}
    (hpath : ns.functionPath name = .ok path) (hread : t.read path = .ok content)
    (hwritten : ¬ written (filePlace root ns name)) : t'.read path = .ok content := by
  obtain ⟨more, file, -, hdown, hplace⟩ := h.exists_down hpath
  obtain ⟨hfits, hnode⟩ := (h.site.read_eq_ok hdown).mp hread
  refine ((hgrown.site h.site).read_eq_ok hdown).mpr ⟨hfits, ?_⟩
  have hchange := hgrown.change (file :: ((Path.inPack ns ++ more).reverse ++ root))
  rw [hnode] at hchange
  exact hchange.eq_file (hplace ▸ hwritten)

/-- A function is written to its place and nowhere else, or it is refused. Either way directories
may have been made. -/
theorem put_cases {w : Writer} (h : Home ns absolute above root w.files) {s : Scope}
    (hs : s.ns = ns) :
    (∃ w' path, w.put s = (w', .ok ()) ∧ ns.functionPath s.name = .ok path ∧ path ∉ w.written ∧
        w'.written = path :: w.written ∧ w'.accepted = w.accepted + 1 ∧
        Grown (functionsPlace root ns) (· = filePlace root ns s.name) w.files w'.files ∧
        w'.files.read path = .ok s.content) ∨
      ∃ w' fault, w.put s = (w', .error fault) ∧ w'.written = w.written ∧
        w'.accepted = w.accepted ∧
        Grown (functionsPlace root ns) (fun _ => False) w.files w'.files := by
  subst hs
  unfold Writer.put
  cases hpath : s.ns.functionPath s.name with
  | error error => exact .inr ⟨w, _, rfl, rfl, rfl, .refl h.site.wellFormed⟩
  | ok path =>
      dsimp only
      by_cases hwritten : path ∈ w.written
      · rw [if_pos (by simpa using hwritten)]
        exact .inr ⟨w, _, rfl, rfl, rfl, .refl h.site.wellFormed⟩
      · rw [if_neg (by simpa using hwritten)]
        obtain ⟨more, file, hmore, hdown, hplace⟩ := h.exists_down hpath
        have hdirectory : Path.directory path = Path.render absolute
            (above ++ [ascii "data", s.ns.name] ++ [ascii "functions"] ++ more) := by
          rw [hdown.directory_eq]
          simp [Path.inPack]
        have hgrown := h.site.makeDirectories_grown h.down h.fits h.directory hmore
        rw [← hdirectory] at hgrown
        rcases hmake : w.files.makeDirectories (Path.directory path) with ⟨files, error | _⟩
        · rw [hmake] at hgrown
          exact .inr ⟨_, _, rfl, rfl, rfl, hgrown⟩
        · rw [hmake] at hgrown
          have hsite := hgrown.site h.site
          dsimp only
          rcases hsite.write_cases hdown s.content with
            ⟨hfits, hparent, hold, hwrite⟩ | ⟨error, hwrite⟩
          · rw [hwrite]
            have hset : Grown (functionsPlace root s.ns) (· = filePlace root s.ns s.name) files
                (files.set (file :: ((Path.inPack s.ns ++ more).reverse ++ root))
                  (.file s.content)) := by
              refine .of_set hsite.wellFormed (hdown.stays file (by simp)) hparent
                (.file s.content hplace hold) fun hnode => ?_
              obtain ⟨old, heq⟩ := hold _ hnode
              cases heq
            have hread : (files.set (file :: ((Path.inPack s.ns ++ more).reverse ++ root))
                (.file s.content)).read path = .ok s.content :=
              ((hset.site hsite).read_eq_ok hdown).mpr
                ⟨hfits, (FileTree.node?_set files (by simp) _ _).trans (if_pos rfl)⟩
            exact .inl ⟨_, path, rfl, rfl, hwritten, rfl, rfl,
              (hgrown.mono fun _ => False.elim).trans hset, hread⟩
          · rw [hwrite]
            exact .inr ⟨_, _, rfl, rfl, rfl, hgrown⟩

/-- A function that stands in its file is written again without a change to the tree. -/
theorem put_again {w : Writer} (h : Home ns absolute above root w.files) {s : Scope}
    (hs : s.ns = ns) {path : Text} (hpath : ns.functionPath s.name = .ok path)
    (hnew : path ∉ w.written) (hread : w.files.read path = .ok s.content) :
    ∃ w', w.put s = (w', .ok ()) ∧ w'.files = w.files ∧ w'.written = path :: w.written ∧
      w'.accepted = w.accepted + 1 := by
  subst hs
  obtain ⟨more, file, -, hdown, -⟩ := h.exists_down hpath
  obtain ⟨hfits, hnode⟩ := (h.site.read_eq_ok hdown).mp hread
  have hmake := h.site.makeDirectories_again hdown hfits (by simp [Path.inPack])
    (h.site.wellFormed.above hnode)
  have hwrite := h.site.write_again hdown hread
  have hput : w.put s = ({ w with
      written := path :: w.written
      accepted := w.accepted + 1
      log := w.log ++ [.functionWritten s.reference path] }, .ok ()) := by
    simp only [Writer.put, hpath, hmake, hwrite, List.contains_iff_mem, hnew, if_false]
  exact ⟨_, hput, rfl, rfl, rfl⟩

/-- Functions that stand in their files are written again without a change to the tree. -/
theorem takeEach_again {w : Writer} {es : List Event}
    (hes : ∀ s ∈ (Flow.mk es none).scopes, s.ns = ns ∧ Home ns absolute above root w.files ∧
      ∃ path, ns.functionPath s.name = .ok path ∧ path ∉ w.written ∧
        w.files.read path = .ok s.content)
    (hnodup : ((Flow.mk es none).scopes.map Scope.name).Nodup) :
    let result := takeEach Writer.receive w es
    result.2 = .more ∧ result.1.files = w.files ∧
      result.1.accepted = w.accepted + (Flow.mk es none).scopes.length := by
  induction es generalizing w with
  | nil => exact ⟨rfl, rfl, rfl⟩
  | cons event es ih =>
      cases event with
      | note n => exact ih (w := { w with log := w.log ++ [n] }) hes hnodup
      | scope s =>
          have hscopes : (Flow.mk (.scope s :: es) none).scopes = s :: (Flow.mk es none).scopes :=
            rfl
          rw [hscopes, List.forall_mem_cons] at hes
          rw [hscopes, List.map_cons, List.nodup_cons] at hnodup
          obtain ⟨⟨hs, hhome, path, hpath, hnew, hread⟩, hrest⟩ := hes
          obtain ⟨w', hput, hfiles, hwritten, haccepted⟩ := hhome.put_again hs hpath hnew hread
          have hagain := ih (w := w') ?_ hnodup.2
          · rw [hscopes, takeEach, Writer.receive, hput]
            refine ⟨hagain.1, hagain.2.1.trans hfiles, hagain.2.2.trans ?_⟩
            rw [haccepted, List.length_cons]
            omega
          · intro z hz
            obtain ⟨hzns, hzhome, path', hpath', hnew', hread'⟩ := hrest z hz
            rw [hfiles, hwritten]
            refine ⟨hzns, hzhome, path', hpath', fun hmem => ?_, hread'⟩
            rcases List.mem_cons.mp hmem with rfl | hmem
            · -- another function has another path
              have hname := (Path.functionPath_inj rfl hhome.checked hhome.checked hpath hpath').2
              exact hnodup.1 (hname ▸ List.mem_map_of_mem hz)
            · exact hnew' hmem

end Home

/-- What a writer that started from a tree has done: the functions it took stand in their files, and
besides them at most directories are new. -/
structure Written (ns : Namespace) (root : Location) (base : FileTree) (w : Writer)
    (taken : List Scope) : Prop where
  grown : Grown (functionsPlace root ns)
    (fun place => ∃ s ∈ taken, place = filePlace root ns s.name) base w.files
  accepted : w.accepted = taken.length
  nodup : (taken.map Scope.name).Nodup
  content : ∀ s ∈ taken, ∃ path, ns.functionPath s.name = .ok path ∧ path ∈ w.written ∧
    w.files.read path = .ok s.content

namespace Written

variable {ns : Namespace} {absolute : Bool} {above : List Text} {root : Location}
  {base : FileTree} {w : Writer} {taken : List Scope}

theorem start (h : base.WellFormed) : Written ns root base { files := base } [] :=
  ⟨.refl h, rfl, List.nodup_nil, fun _ hs => nomatch hs⟩

theorem logged (h : Written ns root base w taken) (log : List Note) :
    Written ns root base { w with log } taken :=
  ⟨h.grown, h.accepted, h.nodup, h.content⟩

/-- All that was written are functions of the namespace. -/
theorem grown_functions (h : Written ns root base w taken) :
    Grown (functionsPlace root ns) (fun place => ∃ name, place = filePlace root ns name) base
      w.files := by
  refine h.grown.mono ?_
  rintro place ⟨s, -, rfl⟩
  exact ⟨s.name, rfl⟩

/-- One function more is taken, or refused. -/
theorem put (h : Written ns root base w taken) (hhome : Home ns absolute above root base)
    {s : Scope} (hs : s.ns = ns) :
    (∃ w', w.put s = (w', .ok ()) ∧ Written ns root base w' (taken ++ [s])) ∨
      ∃ w' fault, w.put s = (w', .error fault) ∧ Written ns root base w' taken := by
  have hnow := hhome.grown h.grown
  rcases hnow.put_cases hs with
    ⟨w', path, hput, hpath, hnew, hwritten, haccepted, hgrown, hread⟩ |
    ⟨w', fault, hput, hwritten, haccepted, hgrown⟩
  · -- a function that was taken before has its path among those written
    have hother : ∀ z ∈ taken, z.name ≠ s.name := by
      intro z hz hname
      obtain ⟨path', hpath', hmem, -⟩ := h.content z hz
      rw [hname, hpath] at hpath'
      cases hpath'
      exact hnew hmem
    refine .inl ⟨w', hput, ?_, ?_, ?_, fun z hz => ?_⟩
    · refine (h.grown.mono ?_).trans (hgrown.mono ?_)
      · rintro place ⟨z, hz, rfl⟩
        exact ⟨z, List.mem_append_left _ hz, rfl⟩
      · rintro place rfl
        exact ⟨s, by simp, rfl⟩
    · rw [haccepted, h.accepted]
      simp
    · rw [List.map_append, List.nodup_append]
      refine ⟨h.nodup, List.nodup_singleton _, fun name hname name' hname' => ?_⟩
      obtain ⟨z, hz, rfl⟩ := List.mem_map.mp hname
      rw [List.mem_singleton.mp hname']
      exact hother z hz
    · rcases List.mem_append.mp hz with hz | hz
      · obtain ⟨path', hpath', hmem, hread'⟩ := h.content z hz
        refine ⟨path', hpath', by rw [hwritten]; exact List.mem_cons_of_mem _ hmem, ?_⟩
        exact hnow.read_kept hgrown hpath' hread' fun heq =>
          hother z hz (filePlace_injective root ns heq)
      · rw [List.mem_singleton.mp hz]
        exact ⟨path, hpath, by rw [hwritten]; exact List.mem_cons_self, hread⟩
  · refine .inr ⟨w', fault, hput, ?_, haccepted.trans h.accepted, h.nodup, fun z hz => ?_⟩
    · exact h.grown.trans (hgrown.mono fun _ => False.elim)
    · obtain ⟨path, hpath, hmem, hread⟩ := h.content z hz
      exact ⟨path, hpath, hwritten ▸ hmem, hnow.read_kept hgrown hpath hread id⟩

/-- A run of a writer over functions of a namespace takes all of them, or ends with a fault. -/
theorem takeEach (h : Written ns root base w taken) {es : List Event}
    (hes : ∀ s ∈ (Flow.mk es none).scopes, s.ns = ns ∧ Home ns absolute above root base) :
    let result := Packwright.takeEach Writer.receive w es
    ∃ more, Written ns root base result.1 (taken ++ more) ∧
      ((result.2 = .more ∧ more = (Flow.mk es none).scopes) ∨
        ∃ fault, result.2 = .fail fault) := by
  induction es generalizing w taken with
  | nil => exact ⟨[], (List.append_nil taken).symm ▸ h, .inl ⟨rfl, rfl⟩⟩
  | cons event es ih =>
      cases event with
      | note n => exact ih (h.logged (w.log ++ [n])) hes
      | scope s =>
          have hscopes : (Flow.mk (.scope s :: es) none).scopes = s :: (Flow.mk es none).scopes :=
            rfl
          rw [hscopes, List.forall_mem_cons] at hes
          rw [hscopes, Packwright.takeEach, Writer.receive]
          rcases h.put hes.1.2 hes.1.1 with ⟨w', hput, hw'⟩ | ⟨w', fault, hput, hw'⟩
          · obtain ⟨more, hmore, hend⟩ := ih hw' hes.2
            simp only [hput]
            refine ⟨s :: more, by simpa using hmore, hend.imp_left fun hall => ?_⟩
            exact ⟨hall.1, congrArg (s :: ·) hall.2⟩
          · simp only [hput]
            exact ⟨[], by simpa using hw', .inr ⟨fault, rfl⟩⟩

end Written

end Packwright
