import Mathlib.Data.List.TakeWhile
import Packwright.Pack
import Packwright.Proofs.Name
import Packwright.Proofs.Text

/-! # Paths of functions

Joining paths cleans the result, so the path of a pack may lose elements or start with `..`. What
stands behind the directory of the pack is never changed: names hold no dots. So the path of a
function is made of elements that depend on the pack alone, the namespace and the parts of the
function's name (`Lies.functionPath`), and different functions of a pack have different paths
(`functionPath_inj`).
-/

namespace Packwright

open Text (ascii)

namespace Text

/-- What is put behind a text without a separator belongs to its last part. -/
theorem splitOn_append_of_not_mem {b : UInt8} {y : Text} (h : b ∉ y) (x : Text) :
    ∃ init last, x.splitOn b = init ++ [last] ∧ (x ++ y).splitOn b = init ++ [last ++ y] := by
  induction x with
  | nil => exact ⟨[], [], by simp, by simpa using List.splitOn_eq_singleton h⟩
  | cons c rest ih =>
      obtain ⟨init, last, hrest, happend⟩ := ih
      rw [List.cons_append, List.splitOn_cons_eq_if_modifyHead, List.splitOn_cons_eq_if_modifyHead,
        hrest, happend]
      by_cases hc : c = b
      · exact ⟨[] :: init, last, by simp [hc], by simp [hc]⟩
      · cases init with
        | nil => exact ⟨[], c :: last, by simp [hc], by simp [hc]⟩
        | cons first others => exact ⟨(c :: first) :: others, last, by simp [hc], by simp [hc]⟩

theorem nil_mem_tail_of_ne {b c : UInt8} {rest : Text} (hc : c ≠ b)
    (h : [] ∈ (c :: rest).splitOn b) : [] ∈ ((c :: rest).splitOn b).tail := by
  rw [List.splitOn_cons_eq_if_modifyHead, if_neg (by simpa using hc)] at h ⊢
  cases hsplit : rest.splitOn b with
  | nil => exact absurd hsplit (List.splitOn_ne_nil b rest)
  | cons first others =>
      rw [hsplit] at h
      simpa using h

/-- An empty part behind the first one stands between two separators or at the end. -/
theorem of_nil_mem_tail_splitOn {b : UInt8} {t : Text} (h : [] ∈ (t.splitOn b).tail) :
    t.getLast? = some b ∨ [b, b] <:+: t := by
  induction t with
  | nil => simp at h
  | cons c rest ih =>
      have hrest : [] ∈ (rest.splitOn b).tail →
          (c :: rest).getLast? = some b ∨ [b, b] <:+: c :: rest := by
        intro hmem
        refine (ih hmem).imp (fun hlast => ?_) fun hinfix => ?_
        · rw [List.getLast?_cons, hlast]
          rfl
        · exact hinfix.trans (List.suffix_cons c rest).isInfix
      rw [List.splitOn_cons_eq_if_modifyHead] at h
      split at h
      next hc =>
        obtain rfl : c = b := by simpa using hc
        cases rest with
        | nil => exact .inl rfl
        | cons d more =>
            by_cases hd : d = c
            · exact .inr ⟨[], more, by rw [hd]; rfl⟩
            · exact hrest (nil_mem_tail_of_ne hd h)
      next => exact hrest (by simpa using h)

theorem of_nil_mem_splitOn {b : UInt8} {t : Text} (h : [] ∈ t.splitOn b) :
    t = [] ∨ t.head? = some b ∨ t.getLast? = some b ∨ [b, b] <:+: t := by
  cases t with
  | nil => exact .inl rfl
  | cons c rest =>
      by_cases hc : c = b
      · exact .inr (.inl (by rw [hc]; rfl))
      · exact .inr (.inr (of_nil_mem_tail_splitOn (nil_mem_tail_of_ne hc h)))

end Text

namespace Path

/-- An element that a clean path can hold. -/
structure IsElement (e : Text) : Prop where
  ne_nil : e ≠ []
  slash : Text.slash ∉ e
  ne_here : e ≠ here

/-- An element that stays in a path whatever stands before it. -/
structure Stays (e : Text) : Prop extends IsElement e where
  ne_parent : e ≠ parent

instance (e : Text) : Decidable (Stays e) :=
  decidable_of_iff (e ≠ [] ∧ Text.slash ∉ e ∧ e ≠ here ∧ e ≠ parent)
    ⟨fun h => ⟨⟨h.1, h.2.1, h.2.2.1⟩, h.2.2.2⟩,
      fun h => ⟨h.ne_nil, h.slash, h.ne_here, h.ne_parent⟩⟩

theorem isElement_of_mem_elements {path e : Text} (h : e ∈ elements path) : IsElement e := by
  obtain ⟨hmem, hkeep⟩ := List.mem_filter.mp h
  simp only [Bool.and_eq_true, Bool.not_eq_true', List.isEmpty_eq_false_iff, bne_iff_ne] at hkeep
  exact ⟨hkeep.1, (Text.of_mem_splitOn hmem).1, hkeep.2⟩

theorem elements_nil : elements [] = [] := by decide

theorem elements_append (a b : Text) :
    elements (a ++ Text.slash :: b) = elements a ++ elements b := by
  rw [elements, List.splitOn_append_cons_self, List.filter_append]
  rfl

theorem elements_eq_splitOn {path : Text} (h : ∀ e ∈ path.splitOn Text.slash, IsElement e) :
    elements path = path.splitOn Text.slash := by
  rw [elements, List.filter_eq_self]
  intro e he
  simp [(h e he).ne_nil, (h e he).ne_here]

theorem elements_join {es : List Text} (h : ∀ e ∈ es, IsElement e) :
    elements (Text.join [Text.slash] es) = es := by
  by_cases hnil : es = []
  · rw [hnil]
    rfl
  · have hsplit : (Text.join [Text.slash] es).splitOn Text.slash = es :=
      List.splitOn_intercalate _ (fun e he => (h e he).slash) hnil
    rw [elements_eq_splitOn (by rwa [hsplit]), hsplit]

/-- A path that was written from elements holds these elements. -/
theorem elements_render (absolute : Bool) {es : List Text} (h : ∀ e ∈ es, IsElement e) :
    elements (render absolute es) = es := by
  unfold render
  split
  next =>
    rw [← List.nil_append (Text.slash :: _), elements_append, elements_nil, elements_join h]
    rfl
  next =>
    split
    next hempty =>
      rw [List.isEmpty_iff.mp hempty]
      decide
    next => exact elements_join h

theorem isAbsolute_render (absolute : Bool) {es : List Text} (h : ∀ e ∈ es, IsElement e) :
    isAbsolute (render absolute es) = absolute := by
  cases absolute with
  | true => rfl
  | false =>
      cases es with
      | nil => rfl
      | cons e rest =>
          have he := h e List.mem_cons_self
          obtain ⟨b, more, rfl⟩ := List.exists_cons_of_ne_nil he.ne_nil
          have hb : b ≠ Text.slash := fun heq => he.slash (heq ▸ List.mem_cons_self)
          cases rest with
          | nil => simpa [isAbsolute, render, Text.join] using hb
          | cons e' rest =>
              simpa [isAbsolute, render, Text.join, List.intercalate_cons_cons] using hb

theorem render_ne_nil (absolute : Bool) {es : List Text} (h : ∀ e ∈ es, IsElement e) :
    render absolute es ≠ [] := by
  intro hnil
  have helements := elements_render absolute h
  rw [hnil, elements_nil] at helements
  subst helements
  cases absolute <;> cases hnil

/-- One more element is put behind a slash. -/
theorem render_concat (absolute : Bool) {es : List Text} (hes : es ≠ []) (e : Text) :
    render absolute (es ++ [e]) = render absolute es ++ Text.slash :: e := by
  have hjoin := Text.join_concat [Text.slash] hes e
  cases absolute with
  | true => simp [render, hjoin]
  | false => simp [render, hjoin, hes]

theorem render_append (absolute : Bool) {es more : List Text} (hes : es ≠ []) (hmore : more ≠ []) :
    render absolute (es ++ more) =
      render absolute es ++ Text.slash :: Text.join [Text.slash] more := by
  induction more using List.reverseRecOn with
  | nil => exact absurd rfl hmore
  | append_singleton more e ih =>
      by_cases hnil : more = []
      · simp [hnil, render_concat absolute hes, Text.join]
      · rw [← List.append_assoc, render_concat absolute (by simp [hes]), ih hnil,
          Text.join_concat _ hnil]
        simp

theorem render_initial (absolute : Bool) {es : List Text} (hes : es ≠ []) (more : List Text) :
    render absolute es <+: render absolute (es ++ more) := by
  by_cases hmore : more = []
  · rw [hmore, List.append_nil]
  · rw [render_append absolute hes hmore]
    exact List.prefix_append _ _

theorem getLast?_render {absolute : Bool} {es : List Text} (hes : es ≠ [])
    (h : ∀ e ∈ es, IsElement e) : (render absolute es).getLast? ≠ some Text.slash := by
  obtain ⟨init, last, rfl⟩ := (List.eq_nil_or_concat' es).resolve_left hes
  have hlast := h last (by simp)
  have hend : ∀ before : Text, (before ++ last).getLast? ≠ some Text.slash := by
    intro before heq
    rw [List.getLast?_append_of_ne_nil _ hlast.ne_nil] at heq
    exact hlast.slash (List.mem_of_getLast? heq)
  by_cases hinit : init = []
  · subst hinit
    cases absolute with
    | true => simpa [render, Text.join] using hend [Text.slash]
    | false => simpa [render, Text.join] using hend []
  · rw [render_concat absolute hinit, List.append_cons]
    exact hend _

/-- A path that was written from elements is followed along these elements. -/
theorem steps_render (absolute : Bool) {es : List Text} (hes : es ≠ [])
    (h : ∀ e ∈ es, IsElement e) : steps (render absolute es) = es := by
  have hsplit : (Text.join [Text.slash] es).splitOn Text.slash = es :=
    List.splitOn_intercalate _ (fun e he => (h e he).slash) hes
  have hfilter : (es.filter fun e => !e.isEmpty) = es := by
    rw [List.filter_eq_self]
    intro e he
    simp [(h e he).ne_nil]
  have hparts : ((render absolute es).splitOn Text.slash).filter (fun e => !e.isEmpty) = es := by
    cases absolute with
    | true => simp [render, List.splitOn_cons_eq_if_modifyHead, hsplit, hfilter]
    | false => simp [render, hes, hsplit, hfilter]
  rw [steps, hparts, if_neg (by simpa using getLast?_render hes h), List.append_nil]

/-- The elements of a path once it is cleaned. -/
def resolved (path : Text) : List Text :=
  ((elements path).foldl (descend (isAbsolute path)) []).reverse

theorem mem_foldl_descend {absolute : Bool} {es passed : List Text} {e : Text}
    (h : e ∈ es.foldl (descend absolute) passed) : e ∈ passed ∨ e ∈ es := by
  induction es generalizing passed with
  | nil => exact .inl h
  | cons e' rest ih =>
      rcases ih h with h | h
      · have hdescend : e = e' ∨ e ∈ passed := by
          unfold descend at h
          split at h
          next => exact List.mem_cons.mp h
          next =>
            split at h
            next last rest' =>
              split at h
              next => exact List.mem_cons.mp h
              next => exact .inr (List.mem_cons_of_mem _ h)
            next =>
              split at h
              next => cases h
              next => exact .inl (List.mem_singleton.mp h)
        rcases hdescend with rfl | hpassed
        · exact .inr List.mem_cons_self
        · exact .inl hpassed
      · exact .inr (List.mem_cons_of_mem _ h)

theorem isElement_of_mem_resolved {path e : Text} (h : e ∈ resolved path) : IsElement e := by
  rcases mem_foldl_descend (List.mem_reverse.mp h) with h | h
  · cases h
  · exact isElement_of_mem_elements h

/-- Elements that do not go up are kept. -/
theorem foldl_descend {absolute : Bool} {es : List Text} (h : ∀ e ∈ es, e ≠ parent)
    (passed : List Text) : es.foldl (descend absolute) passed = es.reverse ++ passed := by
  induction es generalizing passed with
  | nil => rfl
  | cons e rest ih =>
      rw [List.forall_mem_cons] at h
      have hstep : descend absolute passed e = e :: passed := if_pos (by simpa using h.1)
      rw [List.foldl_cons, hstep, ih h.2]
      simp

/-- The elements of a clean path: cleaning leaves them as they are. -/
structure Settled (absolute : Bool) (es : List Text) : Prop where
  isElement : ∀ e ∈ es, IsElement e
  foldl : es.foldl (descend absolute) [] = es.reverse

theorem settled_nil (absolute : Bool) : Settled absolute [] := ⟨fun _ he => (nomatch he), rfl⟩

/-- One step of cleaning keeps the elements passed so far settled. -/
theorem foldl_descend_step {absolute : Bool} {passed : List Text}
    (h : passed.reverse.foldl (descend absolute) [] = passed) (e : Text) :
    (descend absolute passed e).reverse.foldl (descend absolute) [] =
      descend absolute passed e := by
  have hpush : ∀ e', descend absolute passed e' = e' :: passed →
      (e' :: passed).reverse.foldl (descend absolute) [] = e' :: passed := by
    intro e' hstep
    rw [List.reverse_cons, List.foldl_append, h]
    exact hstep
  by_cases he : e = parent
  · cases passed with
    | nil => cases absolute <;> simp [descend, he]
    | cons last rest =>
        by_cases hlast : last = parent
        · have hstep : descend absolute (last :: rest) e = e :: last :: rest := by
            simp [descend, he, hlast]
          rw [hstep]
          exact hpush e hstep
        · have hstep : descend absolute (last :: rest) e = rest := by simp [descend, he, hlast]
          have hlast' : ∀ passed, descend absolute passed last = last :: passed :=
            fun _ => if_pos (by simpa using hlast)
          rw [List.reverse_cons, List.foldl_append, List.foldl_cons, List.foldl_nil, hlast'] at h
          rw [hstep]
          exact (List.cons.inj h).2
  · have hstep : descend absolute passed e = e :: passed := if_pos (by simpa using he)
    rw [hstep]
    exact hpush e hstep

/-- Cleaning settles the elements of a path. -/
theorem settled_resolved (path : Text) : Settled (isAbsolute path) (resolved path) := by
  have hfoldl : ∀ (es passed : List Text),
      passed.reverse.foldl (descend (isAbsolute path)) [] = passed →
      (es.foldl (descend (isAbsolute path)) passed).reverse.foldl (descend (isAbsolute path)) [] =
        es.foldl (descend (isAbsolute path)) passed := by
    intro es
    induction es with
    | nil => exact fun _ h => h
    | cons e rest ih => exact fun _ h => ih _ (foldl_descend_step h e)
  refine ⟨fun _ he => isElement_of_mem_resolved he, ?_⟩
  rw [resolved, hfoldl _ [] rfl, List.reverse_reverse]

/-- Elements that stay can be put behind settled ones. -/
theorem Settled.append {absolute : Bool} {es more : List Text} (h : Settled absolute es)
    (hmore : ∀ e ∈ more, Stays e) : Settled absolute (es ++ more) := by
  refine ⟨fun e he => ?_, ?_⟩
  · rcases List.mem_append.mp he with he | he
    · exact h.isElement e he
    · exact (hmore e he).toIsElement
  · rw [List.foldl_append, h.foldl, foldl_descend fun e he => (hmore e he).ne_parent,
      List.reverse_append]

theorem Settled.resolved_render {absolute : Bool} {es : List Text} (h : Settled absolute es) :
    resolved (render absolute es) = es := by
  rw [resolved, isAbsolute_render absolute h.isElement, elements_render absolute h.isElement,
    h.foldl, List.reverse_reverse]

/-- What comes behind a path and does not go up is put behind its elements. -/
theorem clean_append {a b : Text} (ha : a ≠ []) (hb : ∀ e ∈ elements b, e ≠ parent) :
    clean (a ++ Text.slash :: b) = render (isAbsolute a) (resolved a ++ elements b) := by
  have habsolute : isAbsolute (a ++ Text.slash :: b) = isAbsolute a := by
    obtain ⟨c, rest, rfl⟩ := List.exists_cons_of_ne_nil ha
    rfl
  rw [clean, habsolute, elements_append, List.foldl_append, foldl_descend hb,
    List.reverse_append, List.reverse_reverse]
  rfl

/-- The directory of a clean path is the path without its last element. -/
theorem Settled.directory_render {absolute : Bool} {es : List Text} (h : Settled absolute es)
    (hes : es ≠ []) {e : Text} (he : Text.slash ∉ e) :
    directory (render absolute (es ++ [e])) = render absolute es := by
  have hdrop : (e.reverse ++ Text.slash :: (render absolute es).reverse).dropWhile
      (· != Text.slash) = Text.slash :: (render absolute es).reverse := by
    rw [List.dropWhile_append_of_pos]
    · simp
    · intro b hb
      have : b ≠ Text.slash := fun heq => he (heq ▸ List.mem_reverse.mp hb)
      simpa using this
  rw [directory, render_concat absolute hes, List.reverse_append, List.reverse_cons,
    List.append_assoc, List.singleton_append, hdrop, List.reverse_cons, List.reverse_reverse,
    clean_append (render_ne_nil absolute h.isElement) (by simp [elements_nil]), elements_nil,
    List.append_nil, isAbsolute_render absolute h.isElement, h.resolved_render]

end Path

namespace Name

theorem ne_nil_of_validate {kind : NameKind} {name : Text} (h : validate kind name = .ok ()) :
    name ≠ [] := by
  rintro rfl
  cases h

theorem misplacedSlash_of_validate {name : Text} (h : validate .function name = .ok ()) :
    misplacedSlash name = false := by
  by_contra hslash
  rw [Bool.not_eq_false] at hslash
  unfold validate at h
  simp only [hslash] at h
  split at h
  next => cases h
  next =>
    split at h
    next => cases h
    next => cases h

/-- The parts of a checked function name are not empty. -/
theorem nil_not_mem_splitOn {name : Text} (h : validate .function name = .ok ()) :
    [] ∉ name.splitOn Text.slash := by
  intro hmem
  have hslash := misplacedSlash_of_validate h
  simp only [misplacedSlash, Bool.or_eq_false_iff, beq_eq_false_iff_ne] at hslash
  obtain ⟨⟨hhead, hlast⟩, htwo⟩ := hslash
  rcases Text.of_nil_mem_splitOn hmem with hnil | hfirst | hend | hinfix
  · exact ne_nil_of_validate h hnil
  · exact hhead hfirst
  · exact hlast hend
  · rw [Text.occursIn_iff.mpr hinfix] at htwo
    cases htwo

end Name

namespace Path

/-- Text without dots and slashes stays. -/
theorem stays_of_not_mem {e : Text} (hnil : e ≠ []) (hslash : Text.slash ∉ e) (hdot : 46 ∉ e) :
    Stays e := by
  refine ⟨⟨hnil, hslash, ?_⟩, ?_⟩
  · rintro rfl
    exact hdot (by decide)
  · rintro rfl
    exact hdot (by decide)

/-- The file name of a function consists of elements that stay. -/
theorem stays_of_function {name e : Text} (h : Name.validate .function name = .ok ())
    (he : e ∈ (name ++ Pack.functionExtension).splitOn Text.slash) : Stays e := by
  have hslash : Text.slash ∉ Pack.functionExtension := by decide
  obtain ⟨init, last, hname, happend⟩ := Text.splitOn_append_of_not_mem hslash name
  rw [happend] at he
  rcases List.mem_append.mp he with he | he
  · have hmem : e ∈ name.splitOn Text.slash := hname ▸ List.mem_append_left _ he
    obtain ⟨hcut, hsub⟩ := Text.of_mem_splitOn hmem
    refine stays_of_not_mem (fun hnil => ?_) hcut fun hdot => ?_
    · exact Name.nil_not_mem_splitOn h (hnil ▸ hmem)
    · exact absurd (Name.isNameByte_of_validate h 46 (hsub hdot)) (by decide)
  · obtain rfl := List.mem_singleton.mp he
    have hlong : ∀ w : Text, w.length < 11 → last ++ Pack.functionExtension ≠ w := by
      intro w hw heq
      have hlength : Pack.functionExtension.length = 11 := by decide
      rw [← heq, List.length_append, hlength] at hw
      omega
    have hlast : last ∈ name.splitOn Text.slash := hname ▸ List.mem_append_right _ (by simp)
    refine ⟨⟨hlong [] (by decide), ?_, hlong here (by decide)⟩, hlong parent (by decide)⟩
    rw [List.mem_append]
    exact fun hmem => hmem.elim (Text.of_mem_splitOn hlast).1 hslash

theorem stays_of_checked {ns : Namespace} (h : ns.Checked) : Stays ns.name :=
  stays_of_not_mem (Name.ne_nil_of_validate h) (h.not_mem (by decide)) (h.not_mem (by decide))

theorem stays_data : Stays (ascii "data") :=
  stays_of_not_mem (by decide) (by decide) (by decide)

theorem stays_functions : Stays (ascii "functions") :=
  stays_of_not_mem (by decide) (by decide) (by decide)

/-- The elements of the functions directory of a namespace, behind those of its pack. -/
def inPack (ns : Namespace) : List Text := [ascii "data", ns.name, ascii "functions"]

theorem stays_inPack {ns : Namespace} (h : ns.Checked) : ∀ e ∈ inPack ns, Stays e := by
  intro e he
  simp only [inPack, List.mem_cons, List.not_mem_nil, or_false] at he
  rcases he with rfl | rfl | rfl
  · exact stays_data
  · exact stays_of_checked h
  · exact stays_functions

theorem join_cons {a : Text} (ha : a ≠ []) {rest : List Text} (hrest : rest ≠ []) :
    join (a :: rest) = clean (a ++ Text.slash :: Text.join [Text.slash] rest) := by
  have hempty : a.isEmpty = false := by simpa using ha
  have hkeep : (a :: rest).dropWhile List.isEmpty = a :: rest := by
    rw [List.dropWhile_cons, hempty]
    rfl
  rw [join, hkeep]
  simp [Text.join, List.intercalate_cons_of_ne_nil hrest]

/-- Behind settled elements, joining puts what does not go up. -/
theorem Settled.join_render {absolute : Bool} {es : List Text} (h : Settled absolute es)
    {rest : List Text} (hrest : rest ≠ [])
    (hstay : ∀ e ∈ elements (Text.join [Text.slash] rest), e ≠ parent) :
    join (render absolute es :: rest) =
      render absolute (es ++ elements (Text.join [Text.slash] rest)) := by
  have hne := render_ne_nil absolute h.isElement
  rw [join_cons hne hrest, clean_append hne hstay, isAbsolute_render absolute h.isElement,
    h.resolved_render]

theorem dir_ne_nil {p : Pack} (h : p.name ≠ []) : p.dir ≠ [] := by
  rw [Pack.dir, join]
  split
  next hnil =>
    rw [List.dropWhile_eq_nil_iff] at hnil
    exact absurd (List.isEmpty_iff.mp (hnil p.name (by simp))) h
  next => exact render_ne_nil _ fun _ he => isElement_of_mem_resolved he

/-- The elements of a pack's directory. Where joining leaves no directory at all, the pack lies
where relative paths start. -/
structure Lies (p : Pack) (absolute : Bool) (above : List Text) : Prop where
  settled : Settled absolute above
  dir : p.dir ≠ [] → p.dir = render absolute above
  functionsDir : ∀ ns : Namespace, ns.pack = p → ns.Checked →
    ns.functionsDir = render absolute (above ++ inPack ns)

theorem exists_lies (p : Pack) : ∃ absolute above, Lies p absolute above := by
  have hinside : ∀ {ns : Namespace}, ns.Checked → ∀ rest : List Text, rest ⊆ inPack ns →
      elements (Text.join [Text.slash] rest) = rest ∧ ∀ e ∈ rest, e ≠ parent := by
    intro ns hns rest hsub
    refine ⟨elements_join fun e he => ?_, fun e he => ?_⟩
    · exact (stays_inPack hns e (hsub he)).toIsElement
    · exact (stays_inPack hns e (hsub he)).ne_parent
  by_cases hdir : p.dir = []
  · refine ⟨false, [], settled_nil false, fun h => absurd hdir h, fun ns hpack hns => ?_⟩
    obtain ⟨helements, hstay⟩ := hinside hns [ns.name, ascii "functions"]
      (List.subset_cons_of_subset _ (List.Subset.refl _))
    have hdata : Settled false ([] ++ [ascii "data"]) :=
      (settled_nil false).append (List.forall_mem_singleton.mpr stays_data)
    have hjoin : ns.functionsDir =
        join (render false ([] ++ [ascii "data"]) :: [ns.name, ascii "functions"]) := by
      rw [Namespace.functionsDir, hpack, hdir]
      rfl
    rw [hjoin, hdata.join_render (by simp) (helements.symm ▸ hstay), helements]
    rfl
  · obtain ⟨q, hq⟩ : ∃ q, p.dir = clean q := by
      rw [Pack.dir, join] at hdir ⊢
      split at hdir
      next => exact absurd rfl hdir
      next => exact ⟨_, rfl⟩
    refine ⟨isAbsolute q, resolved q, settled_resolved q, fun _ => hq, fun ns hpack hns => ?_⟩
    obtain ⟨helements, hstay⟩ := hinside hns (inPack ns) (List.Subset.refl _)
    have hjoin : ns.functionsDir = join (render (isAbsolute q) (resolved q) :: inPack ns) := by
      rw [Namespace.functionsDir, hpack, hq]
      rfl
    rw [hjoin, (settled_resolved q).join_render (by simp [inPack]) (helements.symm ▸ hstay),
      helements]

/-- Whatever the names of a pack and a namespace are, the path of the functions directory is a
settled one with the directory's own name at its end. -/
theorem exists_functionsDir (ns : Namespace) : ∃ absolute above, Settled absolute above ∧
    ns.functionsDir = render absolute (above ++ [ascii "functions"]) := by
  have hlast : ∀ (a : Text) (rest : List Text), a ≠ [] → rest ≠ [] →
      ∃ absolute above, Settled absolute above ∧
        join (a :: (rest ++ [ascii "functions"])) =
          render absolute (above ++ [ascii "functions"]) := by
    intro a rest ha hrest
    let q := a ++ Text.slash :: Text.join [Text.slash] rest
    have helements : elements (ascii "functions") = [ascii "functions"] := by decide
    have hclean : clean (q ++ Text.slash :: ascii "functions") =
        render (isAbsolute q) (resolved q ++ [ascii "functions"]) := by
      rw [clean_append (by simp [q]) (by rw [helements]; decide), helements]
    refine ⟨isAbsolute q, resolved q, settled_resolved q, ?_⟩
    rw [join_cons ha (by simp), Text.join_concat _ hrest, ← hclean]
    simp [q]
  rw [Namespace.functionsDir]
  by_cases hdir : ns.pack.dir = []
  · -- an empty path in front is left out
    rw [hdir]
    exact hlast (ascii "data") [ns.name] (by decide) (by simp)
  · exact hlast ns.pack.dir [ascii "data", ns.name] hdir (by simp)

/-- The elements of the file of a function, behind those of the functions directory. -/
def fileParts (name : Text) : List Text := (name ++ Pack.functionExtension).splitOn Text.slash

theorem fileParts_injective : Function.Injective fileParts := by
  intro name name' heq
  have hfile := congrArg [Text.slash].intercalate heq
  rw [fileParts, fileParts, List.intercalate_splitOn, List.intercalate_splitOn] at hfile
  exact List.append_cancel_right hfile

theorem functionPath_ok {ns : Namespace} {name path : Text} (h : ns.functionPath name = .ok path) :
    Name.validate .function name = .ok () ∧
      path = join [ns.functionsDir, name ++ Pack.functionExtension] := by
  unfold Namespace.functionPath at h
  cases hname : Name.validate .function name with
  | error error => simp [hname, bind, Except.bind] at h
  | ok =>
      simp only [hname, bind, Except.bind, pure, Except.pure, Except.ok.injEq] at h
      exact ⟨rfl, h.symm⟩

/-- The path of a function holds the elements of the pack, those in the pack and the parts of the
function's file name. -/
theorem Lies.functionPath {ns : Namespace} {absolute : Bool} {above : List Text}
    (h : Lies ns.pack absolute above) (hns : ns.Checked) {name path : Text}
    (hpath : ns.functionPath name = .ok path) :
    Name.validate .function name = .ok () ∧
      path = render absolute (above ++ inPack ns ++ fileParts name) := by
  obtain ⟨hname, rfl⟩ := functionPath_ok hpath
  refine ⟨hname, ?_⟩
  have hsingle : Text.join [Text.slash] [name ++ Pack.functionExtension] =
      name ++ Pack.functionExtension := by simp [Text.join]
  have hfile : elements (name ++ Pack.functionExtension) = fileParts name :=
    elements_eq_splitOn fun e he => (stays_of_function hname he).toIsElement
  have hsettled := h.settled.append (stays_inPack hns)
  rw [h.functionsDir ns rfl hns, hsettled.join_render (by simp), hsingle, hfile]
  rw [hsingle, hfile]
  exact fun e he => (stays_of_function hname he).ne_parent

/-- Different functions of a pack have different paths. -/
theorem functionPath_inj {ns ns' : Namespace} (hpack : ns.pack = ns'.pack) (hns : ns.Checked)
    (hns' : ns'.Checked) {name name' path : Text} (h : ns.functionPath name = .ok path)
    (h' : ns'.functionPath name' = .ok path) : ns.name = ns'.name ∧ name = name' := by
  obtain ⟨absolute, above, hlies⟩ := exists_lies ns'.pack
  obtain ⟨hname, hpath⟩ := (hpack ▸ hlies : Lies ns.pack absolute above).functionPath hns h
  obtain ⟨hname', hpath'⟩ := hlies.functionPath hns' h'
  have hall : ∀ {ns : Namespace} {name : Text}, ns.Checked → Name.validate .function name = .ok () →
      ∀ e ∈ above ++ inPack ns ++ fileParts name, IsElement e := fun hns hname =>
    ((hlies.settled.append (stays_inPack hns)).append fun _ he =>
      stays_of_function hname he).isElement
  -- both paths are rendered from elements, which can be read back
  have helements := congrArg elements (hpath.symm.trans hpath')
  rw [elements_render absolute (hall hns hname), elements_render absolute (hall hns' hname'),
    List.append_assoc, List.append_assoc, List.append_cancel_left_eq] at helements
  simp only [inPack, List.cons_append, List.nil_append, List.cons.injEq, true_and] at helements
  obtain ⟨hspace, hparts⟩ := helements
  exact ⟨hspace, fileParts_injective hparts⟩

end Path

end Packwright
