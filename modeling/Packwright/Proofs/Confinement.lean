import Mathlib.Logic.Function.Iterate
import Packwright.Proofs.Uniqueness

/-! # Where functions are written

The path of a function is put behind the functions directory of its namespace as it is, so it stays
below that directory (`functionPath_eq`), and the file of one function is never in the way of
another (`not_above_functionPath`). Functions of a pack share a path if and only if they share a
reference (`functionPath_eq_iff`), so a writer refuses a function as one that comes twice exactly if
it has written one with the same reference before (`functions_confined`).
-/

namespace Packwright

open Text (ascii)

/-- Namespaces of one pack and names in them are told by references. -/
theorem Namespace.eq_of_reference {ns ns' : Namespace} (hpack : ns.pack = ns'.pack)
    (h : ns.Checked) (h' : ns'.Checked) {name name' : Text}
    (href : ns.reference name = ns'.reference name') : ns = ns' ∧ name = name' := by
  obtain ⟨hspace, hname⟩ := (reference_inj h h').mp href
  refine ⟨?_, hname⟩
  cases ns
  cases ns'
  cases hpack
  cases hspace
  rfl

namespace Path

/-- A directory is met on the way up from a path. -/
def Above (dir path : Text) : Prop := ∃ n, directory^[n + 1] path = dir

/-! ## The way up -/

theorem length_foldl_descend_le (absolute : Bool) (es passed : List Text) :
    (es.foldl (descend absolute) passed).length ≤ passed.length + es.length := by
  induction es generalizing passed with
  | nil => simp
  | cons e rest ih =>
      have hstep : (descend absolute passed e).length ≤ passed.length + 1 := by
        unfold descend
        split
        next => simp
        next => split <;> split <;> simp only [List.length_cons, List.length_nil] <;> omega
      have hrest := ih (descend absolute passed e)
      simp only [List.foldl_cons, List.length_cons]
      omega

/-- What a clean path starts with is clean. -/
theorem Settled.initial {absolute : Bool} {es : List Text} {e : Text}
    (h : Settled absolute (es ++ [e])) : Settled absolute es := by
  refine ⟨fun e' he' => h.isElement e' (List.mem_append_left _ he'), ?_⟩
  have hfoldl := h.foldl
  have hlength := length_foldl_descend_le absolute es []
  rw [List.foldl_append, List.reverse_append, List.reverse_singleton,
    List.singleton_append] at hfoldl
  generalize es.foldl (descend absolute) [] = passed at hfoldl hlength
  -- going up cannot have left more elements than there were
  simp only [List.foldl_cons, List.foldl_nil, descend] at hfoldl
  split at hfoldl
  next => exact (List.cons.inj hfoldl).2
  next =>
    split at hfoldl
    next last rest =>
      split at hfoldl
      next => exact (List.cons.inj hfoldl).2
      next =>
        have := congrArg List.length hfoldl
        simp only [List.length_cons, List.length_reverse, List.length_nil] at this hlength
        omega
    next =>
      split at hfoldl
      next => cases hfoldl
      next => exact (List.cons.inj hfoldl).2

/-- The directory of a clean path lacks its last element. At the root, and where relative paths
start, the way up ends. -/
theorem Settled.directory_eq {absolute : Bool} {es : List Text} (h : Settled absolute es) :
    directory (render absolute es) = render absolute es.dropLast := by
  rcases List.eq_nil_or_concat' es with rfl | ⟨init, e, rfl⟩
  · cases absolute <;> decide
  · have hslash : Text.slash ∉ e := (h.isElement e (by simp)).slash
    rw [List.dropLast_concat]
    by_cases hinit : init = []
    · have hdrop : ∀ before : Text, (e.reverse ++ before).dropWhile (· != Text.slash) =
          before.dropWhile (· != Text.slash) := by
        intro before
        apply List.dropWhile_append_of_pos
        intro b hb
        have : b ≠ Text.slash := fun heq => hslash (heq ▸ List.mem_reverse.mp hb)
        simpa using this
      subst hinit
      cases absolute with
      | true =>
          have hpath : render true ([] ++ [e]) = Text.slash :: e := by simp [render, Text.join]
          rw [hpath, directory, List.reverse_cons, hdrop]
          decide
      | false =>
          have hpath : render false ([] ++ [e]) = e := by simp [render, Text.join]
          rw [hpath, directory, ← List.append_nil e.reverse, hdrop]
          decide
    · exact h.initial.directory_render hinit hslash

/-- The way up from a clean path takes its elements away one by one. -/
theorem Settled.directory_iterate {absolute : Bool} {es : List Text} (h : Settled absolute es)
    (n : Nat) : directory^[n] (render absolute es) = render absolute (es.take (es.length - n)) := by
  induction n generalizing es with
  | zero => simp
  | succ n ih =>
      rw [Function.iterate_succ_apply, h.directory_eq]
      rcases List.eq_nil_or_concat' es with rfl | ⟨init, e, rfl⟩
      · simpa using ih h
      · rw [List.dropLast_concat, ih h.initial, List.length_append, List.length_singleton,
          Nat.add_sub_add_right, List.take_append_of_le_length (Nat.sub_le _ _)]

theorem Settled.clean_render {absolute : Bool} {es : List Text} (h : Settled absolute es) :
    clean (render absolute es) = render absolute es := by
  have hclean : clean (render absolute es) =
      render (isAbsolute (render absolute es)) (resolved (render absolute es)) := rfl
  rw [hclean, isAbsolute_render absolute h.isElement, h.resolved_render]

/-! ## Functions of a pack -/

section

variable {ns ns' : Namespace} {name name' path path' : Text}

/-- The elements of the path of a function, and that they are clean. -/
theorem Lies.settled_function {absolute : Bool} {above : List Text}
    (h : Lies ns.pack absolute above) (hns : ns.Checked)
    (hname : Name.validate .function name = .ok ()) :
    Settled absolute (above ++ inPack ns ++ fileParts name) :=
  (h.settled.append (stays_inPack hns)).append fun _ he => stays_of_function hname he

theorem functionPath_eq (hns : ns.Checked) (h : ns.functionPath name = .ok path) :
    path = ns.functionsDir ++ ascii "/" ++ name ++ Pack.functionExtension ∧ clean path = path ∧
      Above ns.functionsDir path := by
  obtain ⟨absolute, above, hlies⟩ := exists_lies ns.pack
  obtain ⟨hname, rfl⟩ := hlies.functionPath hns h
  have hsettled := hlies.settled_function hns hname
  have hparts : fileParts name ≠ [] := List.splitOn_ne_nil _ _
  have hfile : Text.join [Text.slash] (fileParts name) = name ++ Pack.functionExtension :=
    List.intercalate_splitOn Text.slash
  have hslash : ascii "/" = [Text.slash] := by decide
  refine ⟨?_, hsettled.clean_render, (fileParts name).length - 1, ?_⟩
  · rw [render_append absolute (by simp [inPack]) hparts, hlies.functionsDir ns rfl hns, hfile,
      hslash]
    simp
  · have hlength := List.length_pos_iff.mpr hparts
    have hstart : (above ++ inPack ns ++ fileParts name).length - (fileParts name).length =
        (above ++ inPack ns).length := by
      rw [List.length_append, Nat.add_sub_cancel]
    rw [Nat.sub_add_cancel hlength, hsettled.directory_iterate, hlies.functionsDir ns rfl hns,
      hstart, List.take_left]

/-- No part of a function name but the last one has an extension behind it, so the file of a
function is no directory of another one. -/
theorem fileParts_eq_of_initial (hname' : Name.validate .function name' = .ok ())
    (h : fileParts name <+: fileParts name') : fileParts name = fileParts name' := by
  have hslash : Text.slash ∉ Pack.functionExtension := by decide
  obtain ⟨init, last, -, hparts⟩ := Text.splitOn_append_of_not_mem hslash name
  obtain ⟨init', last', hsplit', hparts'⟩ := Text.splitOn_append_of_not_mem hslash name'
  replace hparts : fileParts name = init ++ [last ++ Pack.functionExtension] := hparts
  replace hparts' : fileParts name' = init' ++ [last' ++ Pack.functionExtension] := hparts'
  rw [hparts', List.prefix_concat_iff] at h
  rcases h with heq | hinit
  · rw [heq, hparts']
  · have hmem : last ++ Pack.functionExtension ∈ name'.splitOn Text.slash := by
      rw [hsplit']
      apply List.mem_append_left
      apply hinit.subset
      simp [hparts]
    have hdot : 46 ∈ last ++ Pack.functionExtension := List.mem_append_right _ (by decide)
    have hbyte := Name.isNameByte_of_validate hname' 46 ((Text.of_mem_splitOn hmem).2 hdot)
    exact absurd hbyte (by decide)

/-- The file of a function is not a directory above a function of the pack. -/
theorem not_above_functionPath (hpack : ns.pack = ns'.pack) (hns : ns.Checked) (hns' : ns'.Checked)
    (h : ns.functionPath name = .ok path) (h' : ns'.functionPath name' = .ok path') :
    ¬ Above path path' := by
  rintro ⟨n, hn⟩
  obtain ⟨absolute, above, hlies'⟩ := exists_lies ns'.pack
  have hlies : Lies ns.pack absolute above := hpack ▸ hlies'
  obtain ⟨hname, rfl⟩ := hlies.functionPath hns h
  obtain ⟨hname', rfl⟩ := hlies'.functionPath hns' h'
  have hsettled := hlies.settled_function hns hname
  have hsettled' := hlies'.settled_function hns' hname'
  rw [hsettled'.directory_iterate] at hn
  -- both sides are rendered from elements, which can be read back
  have helements := congrArg elements hn
  rw [elements_render absolute hsettled.isElement, elements_render absolute fun e he =>
    hsettled'.isElement e (List.mem_of_mem_take he)] at helements
  have hinitial := helements ▸ List.take_prefix
    ((above ++ inPack ns' ++ fileParts name').length - (n + 1))
    (above ++ inPack ns' ++ fileParts name')
  have hshort := congrArg List.length helements
  simp only [List.append_assoc, List.prefix_append_right_inj, inPack, List.cons_append,
    List.nil_append, List.cons_prefix_cons, true_and] at hinitial
  have hparts := fileParts_eq_of_initial hname' hinitial.2
  simp only [List.length_take, List.length_append, hparts, inPack, List.length_cons] at hshort
  omega

theorem functionPath_eq_iff (hpack : ns.pack = ns'.pack) (hns : ns.Checked) (hns' : ns'.Checked)
    (h : ns.functionPath name = .ok path) (h' : ns'.functionPath name' = .ok path') :
    path = path' ↔ ns.reference name = ns'.reference name' := by
  constructor
  · rintro rfl
    exact (Namespace.reference_inj hns hns').mpr (functionPath_inj hpack hns hns' h h')
  · intro href
    obtain ⟨rfl, rfl⟩ := Namespace.eq_of_reference hpack hns hns' href
    exact Except.ok.inj (h.symm.trans h')

end

end Path

namespace Writer

/-- What a writer answers to functions that are handed to it one after the other, also behind one
that it refused. -/
def answers (w : Writer) : List Scope → List (Except Fault Unit)
  | [] => []
  | s :: rest => (w.put s).2 :: (w.put s).1.answers rest

/-- The functions in a list are those that a writer has written. -/
structure HasWritten (w : Writer) (done : List Scope) : Prop where
  exists_path : ∀ z ∈ done, ∃ path ∈ w.written, z.ns.functionPath z.name = .ok path
  exists_scope : ∀ path ∈ w.written, ∃ z ∈ done, z.ns.functionPath z.name = .ok path

namespace HasWritten

variable {p : Pack} {w : Writer} {done : List Scope} {s : Scope}

theorem of_written_eq {w' : Writer} (h : HasWritten w done) (hwritten : w'.written = w.written) :
    HasWritten w' done := by
  refine ⟨fun z hz => ?_, fun path hpath => ?_⟩
  · rw [hwritten]
    exact h.exists_path z hz
  · rw [hwritten] at hpath
    exact h.exists_scope path hpath

/-- A function is refused as one that comes twice exactly if one with its reference was written. -/
theorem put_iff (h : HasWritten w done) (hdone : ∀ z ∈ done, z.ns.Checked ∧ z.ns.pack = p)
    (hs : s.ns.Checked ∧ s.ns.pack = p) (r : Text) :
    (w.put s).2 = .error (.producedTwice r) ↔
      r = s.reference ∧ ∃ z ∈ done, z.reference = s.reference := by
  rcases w.put_cases s with ⟨path, hpath, hmem, hput⟩ | ⟨hnew, hother⟩
  · obtain ⟨z, hz, hzpath⟩ := h.exists_scope path hmem
    obtain ⟨hchecked, hpack⟩ := hdone z hz
    have href : z.reference = s.reference :=
      (Path.functionPath_eq_iff (hpack.trans hs.2.symm) hchecked hs.1 hzpath hpath).mp rfl
    simp only [hput, Except.error.injEq, Fault.producedTwice.injEq]
    exact ⟨fun heq => ⟨heq.symm, z, hz, href⟩, fun heq => heq.1.symm⟩
  · -- a function with the same reference would have left the path of this one
    have hnone : ¬ ∃ z ∈ done, z.reference = s.reference := by
      rintro ⟨z, hz, href⟩
      obtain ⟨path, hmem, hzpath⟩ := h.exists_path z hz
      obtain ⟨hchecked, hpack⟩ := hdone z hz
      obtain ⟨hspace, hname⟩ :=
        Namespace.eq_of_reference (hpack.trans hs.2.symm) hchecked hs.1 href
      rw [hspace, hname] at hzpath
      exact hnew path hzpath hmem
    rcases hother with ⟨w', path, -, hput, -⟩ | ⟨w', fault, hput, -, hfault⟩
    · simp [hput, hnone]
    · simp [hput, hnone, hfault r]

/-- A function that was written joins the others, and one that was refused does not. -/
theorem put (h : HasWritten w done) :
    HasWritten (w.put s).1 (if (w.put s).2 = .ok () then s :: done else done) := by
  rcases w.put_cases s with ⟨path, -, -, hput⟩ |
      ⟨-, ⟨w', path, hpath, hput, hwritten⟩ | ⟨w', fault, hput, hwritten, -⟩⟩
  · simpa [hput] using h
  · simp only [hput, if_true]
    refine ⟨fun z hz => ?_, fun path' hpath' => ?_⟩
    · rw [hwritten]
      rcases List.mem_cons.mp hz with rfl | hz
      · exact ⟨path, List.mem_cons_self, hpath⟩
      · obtain ⟨path', hmem, hzpath⟩ := h.exists_path z hz
        exact ⟨path', List.mem_cons_of_mem _ hmem, hzpath⟩
    · rw [hwritten] at hpath'
      rcases List.mem_cons.mp hpath' with rfl | hpath'
      · exact ⟨s, List.mem_cons_self, hpath⟩
      · obtain ⟨z, hz, hzpath⟩ := h.exists_scope path' hpath'
        exact ⟨z, List.mem_cons_of_mem _ hz, hzpath⟩
  · simpa [hput] using h.of_written_eq hwritten

/-- Whatever a writer answered before, it refuses a function as one that comes twice exactly if it
took one with the same reference. -/
theorem answers_iff {ss : List Scope} (h : HasWritten w done)
    (hdone : ∀ z ∈ done, z.ns.Checked ∧ z.ns.pack = p)
    (hss : ∀ z ∈ ss, z.ns.Checked ∧ z.ns.pack = p) {i : Nat} (hs : ss[i]? = some s) (r : Text) :
    (w.answers ss)[i]? = some (.error (.producedTwice r)) ↔ r = s.reference ∧
      ((∃ z ∈ done, z.reference = s.reference) ∨ ∃ j < i, ∃ z, ss[j]? = some z ∧
        (w.answers ss)[j]? = some (.ok ()) ∧ z.reference = s.reference) := by
  induction ss generalizing w done i with
  | nil => simp at hs
  | cons first rest ih =>
      rw [List.forall_mem_cons] at hss
      cases i with
      | zero =>
          obtain rfl : first = s := by simpa using hs
          simpa [answers] using h.put_iff hdone hss.1 r
      | succ i =>
          have hdone' : ∀ z ∈ if (w.put first).2 = .ok () then first :: done else done,
              z.ns.Checked ∧ z.ns.pack = p := by
            split
            next => exact List.forall_mem_cons.mpr ⟨hss.1, hdone⟩
            next => exact hdone
          have hrest := ih h.put hdone' hss.2 (by simpa using hs)
          rw [answers, List.getElem?_cons_succ, hrest, Nat.exists_lt_succ_left]
          apply and_congr_right
          intro _
          -- the first function is among those written, or it is the first one to look at
          by_cases htaken : (w.put first).2 = .ok ()
          · simp only [htaken, if_true, List.exists_mem_cons_iff, List.getElem?_cons_zero,
              List.getElem?_cons_succ, Option.some.injEq, true_and, exists_eq_left']
            rw [or_comm (a := first.reference = s.reference), or_assoc]
          · simp [htaken]

end HasWritten

end Writer

/-- Whatever the path of a pack, the functions of its namespaces are written below their functions
directory: the path of a function is that of the directory, a slash and the name with its extension,
and cleaning changes nothing in it. Two functions of the pack have the same path if and only if they
have the same reference, and the file of one is not a directory above the other. So a writer that is
handed functions of the pack refuses one as a function that comes twice if and only if it has
written one with the same reference before. -/
theorem functions_confined (p : Pack) :
    (∀ spaceName ns, p.namespaceNamed spaceName = .ok ns →
      ∀ name path, ns.functionPath name = .ok path →
        path = ns.functionsDir ++ ascii "/" ++ name ++ Pack.functionExtension ∧
        Path.clean path = path ∧ Path.Above ns.functionsDir path) ∧
    (∀ spaceName spaceName' ns ns', p.namespaceNamed spaceName = .ok ns →
      p.namespaceNamed spaceName' = .ok ns' → ∀ name name' path path',
        ns.functionPath name = .ok path → ns'.functionPath name' = .ok path' →
          (path = path' ↔ ns.reference name = ns'.reference name') ∧ ¬ Path.Above path path') ∧
    ∀ (files : FileTree) (ss : List Scope),
      (∀ s ∈ ss, p.namespaceNamed s.ns.name = .ok s.ns) →
      let answers := Writer.answers { files } ss
      ∀ (i : Nat) (s : Scope), ss[i]? = some s → ∀ r,
        answers[i]? = some (.error (.producedTwice r)) ↔ r = s.reference ∧
          ∃ j < i, ∃ z : Scope, ss[j]? = some z ∧ answers[j]? = some (.ok ()) ∧
            z.reference = s.reference := by
  have hspace : ∀ spaceName ns, p.namespaceNamed spaceName = .ok ns → ns.Checked ∧ ns.pack = p := by
    intro spaceName ns h
    refine ⟨Namespace.checked_of_namespaceNamed h, ?_⟩
    unfold Pack.namespaceNamed at h
    cases hname : Name.validate .space spaceName with
    | error error => simp [hname, bind, Except.bind] at h
    | ok =>
        simp only [hname, bind, Except.bind, pure, Except.pure, Except.ok.injEq] at h
        rw [← h]
  refine ⟨fun spaceName ns h name path hpath => ?_,
    fun spaceName spaceName' ns ns' h h' name name' path path' hpath hpath' => ?_,
    fun files ss hss => ?_⟩
  · exact Path.functionPath_eq (hspace spaceName ns h).1 hpath
  · obtain ⟨hchecked, hpack⟩ := hspace spaceName ns h
    obtain ⟨hchecked', hpack'⟩ := hspace spaceName' ns' h'
    have hsame := hpack.trans hpack'.symm
    exact ⟨Path.functionPath_eq_iff hsame hchecked hchecked' hpath hpath',
      Path.not_above_functionPath hsame hchecked hchecked' hpath hpath'⟩
  · intro answers i s hs r
    have hfresh : Writer.HasWritten { files } [] := ⟨nofun, nofun⟩
    have hpack : ∀ s ∈ ss, s.ns.Checked ∧ s.ns.pack = p := fun s hs => hspace _ _ (hss s hs)
    simpa using hfresh.answers_iff nofun hpack hs r

/-- Two functions of a pack in a winding path, one of which has the name of a directory of the
other, and the first one again. -/
theorem functions_confined_winding :
    ∃ p ns, Pack.named (ascii "../x//./y/") (ascii "p") = .ok p ∧
      p.namespaceNamed (ascii "ns") = .ok ns ∧
      ∃ path path', ns.functionPath (ascii "a") = .ok path ∧
        ns.functionPath (ascii "a/b") = .ok path' ∧
        path' = ascii "../x/y/p/data/ns/functions/a/b.mcfunction" ∧
        path' = ns.functionsDir ++ ascii "/" ++ ascii "a/b" ++ Pack.functionExtension ∧
        path ≠ path' ∧ ¬ Path.Above path path' ∧
        (Writer.answers { files := {} }
          [⟨ns, ascii "a", ascii "say hi"⟩, ⟨ns, ascii "a/b", []⟩, ⟨ns, ascii "a", []⟩])[2]? =
            some (.error (.producedTwice (ascii "ns:a"))) := by
  let p : Pack := { path := ascii "../x//./y/", name := ascii "p" }
  let ns : Namespace := ⟨p, ascii "ns"⟩
  have hns : p.namespaceNamed (ascii "ns") = .ok ns := by decide +kernel
  have hpath : ns.functionPath (ascii "a") =
      .ok (ascii "../x/y/p/data/ns/functions/a.mcfunction") := by decide +kernel
  have hpath' : ns.functionPath (ascii "a/b") =
      .ok (ascii "../x/y/p/data/ns/functions/a/b.mcfunction") := by decide +kernel
  obtain ⟨hbelow, hapart, hanswers⟩ := functions_confined p
  obtain ⟨hsame, habove⟩ := hapart _ _ _ _ hns hns _ _ _ _ hpath hpath'
  refine ⟨p, ns, by decide +kernel, hns, _, _, hpath, hpath', rfl,
    (hbelow _ _ hns _ _ hpath').1, ?_, habove, ?_⟩
  · rw [Ne, hsame]
    decide
  · apply (hanswers {} _ ?_ 2 ⟨ns, ascii "a", []⟩ rfl _).mpr
    · exact ⟨by decide, 0, by decide, _, rfl, by decide +kernel, rfl⟩
    · intro s hs
      simp only [List.mem_cons, List.not_mem_nil, or_false] at hs
      rcases hs with rfl | rfl | rfl <;> exact hns

end Packwright
