import Packwright.Proofs.FileTree.Shape

/-! # Where paths lead

On its way to a directory a path may go through links and upwards, so that where it leads depends on
much of the tree. Behind a directory that has no links below it, names lead straight down: whether
they lead anywhere, and what every operation finds there, depends on the names and on one place
(`Site.locate_cases`).
-/

namespace Packwright.FileTree

variable {t t' : FileTree} {links links' : Nat} {here place : Location}

/-! ## The way to a directory -/

/-- Steps that lead from one directory to another, with the number of links that may still be
followed before and after them. -/
inductive Leads (t : FileTree) : Nat → Location → List Text → Nat → Location → Prop
  | done {links : Nat} {here : Location} : Leads t links here [] links here
  | stay {links links' : Nat} {here place : Location} {step : Text} {rest : List Text}
      (hstep : step = [] ∨ step = Path.here) (hrest : Leads t links here rest links' place) :
      Leads t links here (step :: rest) links' place
  | up {links links' : Nat} {here place : Location} {rest : List Text}
      (hrest : Leads t links here.tail rest links' place) :
      Leads t links here (Path.parent :: rest) links' place
  | down {links links' : Nat} {here place : Location} {step : Text} {rest : List Text}
      (hstep : step ≠ [] ∧ step ≠ Path.here ∧ step ≠ Path.parent)
      (hlength : step.length ≤ nameLimit) (hnode : t.node? (step :: here) = some .directory)
      (hrest : Leads t links (step :: here) rest links' place) :
      Leads t links here (step :: rest) links' place
  | follow {links links' : Nat} {here place : Location} {step target : Text} {rest : List Text}
      (hstep : step ≠ [] ∧ step ≠ Path.here ∧ step ≠ Path.parent)
      (hlength : step.length ≤ nameLimit) (hnode : t.node? (step :: here) = some (.link target))
      (hrest : Leads t links (if Path.isAbsolute target then [] else here)
        (Path.steps target ++ rest) links' place) :
      Leads t (links + 1) here (step :: rest) links' place

theorem resolve_nil {purpose : Purpose} :
    t.resolve purpose links here [] = .ok (here, t.node? here) := by
  cases links <;> rw [resolve, resolveSteps]

theorem resolve_stay {purpose : Purpose} {step : Text} (hstep : step = [] ∨ step = Path.here)
    (rest : List Text) :
    t.resolve purpose links here (step :: rest) = t.resolve purpose links here rest := by
  have hstep : (step.isEmpty || step == Path.here) = true := by
    rcases hstep with rfl | rfl <;> rfl
  cases links <;> rw [resolve, resolveSteps, if_pos hstep]

theorem resolve_up {purpose : Purpose} (rest : List Text) :
    t.resolve purpose links here (Path.parent :: rest) =
      t.resolve purpose links here.tail rest := by
  cases links <;> rw [resolve, resolveSteps, if_neg (by decide), if_pos (by decide)]

/-- A step by name goes by what is found under the name. -/
theorem resolve_name {purpose : Purpose} {step : Text}
    (hstep : step ≠ [] ∧ step ≠ Path.here ∧ step ≠ Path.parent) {rest : List Text}
    (hrest : purpose = .target ∨ rest ≠ [[]]) (hlength : step.length ≤ nameLimit) :
    t.resolve purpose links here (step :: rest) =
      match t.node? (step :: here) with
      | none => if rest.isEmpty then .ok (step :: here, none) else .error .missing
      | some .directory => t.resolve purpose links (step :: here) rest
      | some (.file content) =>
        if rest.isEmpty then .ok (step :: here, some (.file content)) else .error .notDirectory
      | some (.link target) =>
        if rest.isEmpty && purpose == .entry then .ok (step :: here, some (.link target))
        else
          match links with
          | 0 => .error .tooManyLinks
          | n + 1 =>
            t.resolve purpose n (if Path.isAbsolute target then [] else here)
              (Path.steps target ++ rest) := by
  have hstay : ¬ (step.isEmpty || step == Path.here) = true := by simp [hstep]
  have hparent : ¬ (step == Path.parent) = true := by simp [hstep]
  have hcreation : ¬ (purpose == .creation && rest == [[]]) = true := by
    rcases hrest with rfl | hrest
    · exact Bool.false_ne_true
    · simp [hrest]
  cases links <;>
    exact (if_neg hstay).trans ((if_neg hparent).trans ((if_neg hcreation).trans
      (if_neg (Nat.not_lt.mpr hlength))))

theorem resolve_of_long (t : FileTree) (purpose : Purpose) (links : Nat) (here : Location)
    {step : Text} (hstep : step ≠ [] ∧ step ≠ Path.here ∧ step ≠ Path.parent)
    (hlength : nameLimit < step.length) (rest : List Text) :
    ∃ cause, t.resolve purpose links here (step :: rest) = .error cause := by
  cases links <;>
    rw [resolve, resolveSteps, if_neg (by simp [hstep]), if_neg (by simp [hstep]),
      if_pos hlength] <;>
    split <;>
    exact ⟨_, rfl⟩

/-- Behind a way to a directory, a path is resolved from that directory on. -/
theorem Leads.resolve_append {xs : List Text} (h : Leads t links here xs links' place)
    {purpose : Purpose} {ys : List Text}
    (hys : purpose = .target ∨ ∃ name more, ys = name :: more ∧ name ≠ []) :
    t.resolve purpose links here (xs ++ ys) = t.resolve purpose links' place ys := by
  have hlast : ∀ xs : List Text, purpose = .target ∨ xs ++ ys ≠ [[]] := by
    intro xs
    refine hys.imp id ?_
    rintro ⟨name, more, rfl, hname⟩ heq
    cases xs with
    | nil => exact hname (List.cons.inj heq).1
    | cons x xs => simp at heq
  have hentry : ∀ xs : List Text, ((xs ++ ys).isEmpty && purpose == .entry) = false := by
    intro xs
    rcases hys with rfl | ⟨name, more, rfl, -⟩
    · simp
    · simp
  induction h with
  | done => rfl
  | stay hstep _ ih => exact (resolve_stay hstep _).trans ih
  | up _ ih => exact (resolve_up _).trans ih
  | down hstep hlength hnode _ ih =>
      rw [List.cons_append, resolve_name hstep (hlast _) hlength, hnode]
      exact ih
  | follow hstep hlength hnode _ ih =>
      rw [List.cons_append, resolve_name hstep (hlast _) hlength, hnode]
      simp only [hentry]
      rw [← List.append_assoc]
      exact ih

/-- One way through a tree, up to the first link: a path that can be resolved leads to a directory
before its last steps if the rest of one does behind a link. -/
theorem exists_leads_of_follow {purpose : Purpose} {xs ys : List Text} (hys : ys ≠ [])
    {found : Location × Option Node}
    {follow : Location → List Text → Except FileCause (Location × Option Node)}
    (hfollow : ∀ here xs, follow here (xs ++ ys) = .ok found →
      ∃ n links' place, links = n + 1 ∧ Leads t n here xs links' place)
    (h : t.resolveSteps purpose follow here (xs ++ ys) = .ok found) :
    ∃ links' place, Leads t links here xs links' place := by
  generalize hpath : xs ++ ys = path at h
  -- as long as steps of `xs` are left, the path cannot end and the step is one on the way
  fun_induction resolveSteps t purpose follow here path generalizing xs with
  | case1 => exact absurd (List.append_eq_nil_iff.mp hpath).2 hys
  | case4 | case5 | case7 | case10 => cases h
  | case2 here step rest hstep ih =>
      rcases List.append_eq_cons_iff.mp hpath with ⟨rfl, -⟩ | ⟨xs, rfl, hrest⟩
      · exact ⟨links, here, .done⟩
      · obtain ⟨links', place, hleads⟩ := ih hrest.symm h
        exact ⟨links', place, .stay (by simpa using hstep) hleads⟩
  | case3 here step rest hstep hparent ih =>
      rcases List.append_eq_cons_iff.mp hpath with ⟨rfl, -⟩ | ⟨xs, rfl, hrest⟩
      · exact ⟨links, here, .done⟩
      · obtain ⟨links', place, hleads⟩ := ih hrest.symm h
        obtain rfl : step = Path.parent := by simpa using hparent
        exact ⟨links', place, .up hleads⟩
  | case6 here step rest | case9 here step rest =>
      rename_i hend
      rcases List.append_eq_cons_iff.mp hpath with ⟨rfl, -⟩ | ⟨xs, rfl, hrest⟩
      · exact ⟨links, here, .done⟩
      · rw [hrest, List.isEmpty_iff] at hend
        exact absurd (List.append_eq_nil_iff.mp hend).2 hys
  | case11 here step rest =>
      rename_i hend
      rcases List.append_eq_cons_iff.mp hpath with ⟨rfl, -⟩ | ⟨xs, rfl, hrest⟩
      · exact ⟨links, here, .done⟩
      · rw [hrest, Bool.and_eq_true, List.isEmpty_iff] at hend
        exact absurd (List.append_eq_nil_iff.mp hend.1).2 hys
  | case8 here step rest hstay hparent _ hlength _ hnode =>
      rename_i ih
      rcases List.append_eq_cons_iff.mp hpath with ⟨rfl, -⟩ | ⟨xs, rfl, hrest⟩
      · exact ⟨links, here, .done⟩
      · obtain ⟨links', place, hleads⟩ := ih hrest.symm h
        exact ⟨links', place, .down (by simpa [not_or, and_assoc] using And.intro hstay hparent)
          (Nat.not_lt.mp hlength) hnode hleads⟩
  | case12 here step rest hstay hparent _ hlength _ target hnode =>
      rcases List.append_eq_cons_iff.mp hpath with ⟨rfl, -⟩ | ⟨xs, rfl, rfl⟩
      · exact ⟨links, here, .done⟩
      · rw [← List.append_assoc] at h
        obtain ⟨n, links', place, rfl, hleads⟩ := hfollow _ _ h
        exact ⟨links', place, .follow (by simpa [not_or, and_assoc] using And.intro hstay hparent)
          (Nat.not_lt.mp hlength) hnode hleads⟩

/-- A path that can be resolved leads to a directory before its last steps. -/
theorem exists_leads {purpose : Purpose} {xs ys : List Text} (hys : ys ≠ [])
    {found : Location × Option Node}
    (h : t.resolve purpose links here (xs ++ ys) = .ok found) :
    ∃ links' place, Leads t links here xs links' place := by
  induction links generalizing here xs with
  | zero => exact exists_leads_of_follow hys (fun _ _ hfollow => by cases hfollow) h
  | succ n ih =>
      refine exists_leads_of_follow hys (fun here xs hfollow => ?_) h
      obtain ⟨links', place, hleads⟩ := ih hfollow
      exact ⟨n, links', place, rfl, hleads⟩

/-- A way goes on down into a directory. -/
theorem Leads.concat {xs : List Text} {step : Text} (h : Leads t links here xs links' place)
    (hstep : step ≠ [] ∧ step ≠ Path.here ∧ step ≠ Path.parent)
    (hlength : step.length ≤ nameLimit) (hnode : t.node? (step :: place) = some .directory) :
    Leads t links here (xs ++ [step]) links' (step :: place) := by
  induction h with
  | done => exact .down hstep hlength hnode .done
  | stay hmove _ ih => exact .stay hmove (ih hnode)
  | up _ ih => exact .up (ih hnode)
  | down hmove hshort hdirectory _ ih => exact .down hmove hshort hdirectory (ih hnode)
  | follow hmove hshort hlink _ ih =>
      rw [List.append_assoc] at ih
      exact .follow hmove hshort hlink (ih hnode)

/-- A path with a directory at its end leads there. -/
theorem exists_leads_to {xs : List Text} {step : Text}
    (hstep : step ≠ [] ∧ step ≠ Path.here ∧ step ≠ Path.parent)
    (h : t.resolve .entry links here (xs ++ [step]) = .ok (place, some .directory)) :
    t.node? place = some .directory ∧ ∃ links', Leads t links here (xs ++ [step]) links' place := by
  obtain ⟨links', dir, hleads⟩ := exists_leads (List.cons_ne_nil step []) h
  rw [hleads.resolve_append (.inr ⟨step, [], rfl, hstep.1⟩)] at h
  have hlength : step.length ≤ nameLimit := by
    by_contra hlong
    obtain ⟨cause, hcause⟩ := t.resolve_of_long .entry links' dir hstep (Nat.not_le.mp hlong) []
    rw [hcause] at h
    cases h
  rw [resolve_name hstep (.inr (by simp)) hlength] at h
  cases hnode : t.node? (step :: dir) with
  | none => simp [hnode] at h
  | some node =>
      cases node with
      | file | link => simp [hnode] at h
      | directory =>
          simp only [hnode, resolve_nil, Except.ok.injEq, Prod.mk.injEq] at h
          obtain ⟨rfl, -⟩ := h
          exact ⟨hnode, links', hleads.concat hstep hlength hnode⟩

/-- The way to a directory stays open in a tree that keeps directories and links. -/
theorem Leads.mono {xs : List Text} (h : Leads t links here xs links' place)
    (hdirectory : ∀ place, t.node? place = some .directory → t'.node? place = some .directory)
    (hlink : ∀ place target, t.node? place = some (.link target) →
      t'.node? place = some (.link target)) : Leads t' links here xs links' place := by
  induction h with
  | done => exact .done
  | stay hstep _ ih => exact .stay hstep ih
  | up _ ih => exact .up ih
  | down hstep hlength hnode _ ih => exact .down hstep hlength (hdirectory _ hnode) ih
  | follow hstep hlength hnode _ ih => exact .follow hstep hlength (hlink _ _ hnode) ih

/-! ## Names behind a directory without links -/

/-- Where there are no links, names lead down if they are short enough and the place before the last
one is a directory. -/
theorem WellFormed.resolve_names (h : t.WellFormed) {names : List Text} {name : Text}
    (hfree : ∀ below target, below ≠ [] → t.node? (below ++ here) ≠ some (.link target))
    (hhere : names = [] → t.node? here = some .directory)
    (hstays : ∀ e ∈ names ++ [name], Path.Stays e) {purpose : Purpose}
    {found : Location × Option Node} :
    t.resolve purpose links here (names ++ [name]) = .ok found ↔
      (∀ e ∈ names ++ [name], e.length ≤ nameLimit) ∧
        t.node? (names.reverse ++ here) = some .directory ∧
        found = (name :: (names.reverse ++ here), t.node? (name :: (names.reverse ++ here))) := by
  have hmoves : ∀ e ∈ names ++ [name], e ≠ [] ∧ e ≠ Path.here ∧ e ≠ Path.parent :=
    fun e he => ⟨(hstays e he).ne_nil, (hstays e he).ne_here, (hstays e he).ne_parent⟩
  clear hstays
  induction names generalizing here with
  | nil =>
      have hmoves := hmoves name (by simp)
      by_cases hlong : nameLimit < name.length
      · obtain ⟨cause, hcause⟩ := t.resolve_of_long purpose links here hmoves hlong []
        simp [hcause, Nat.not_le.mpr hlong]
      · rw [List.nil_append, resolve_name hmoves (.inr (by simp)) (Nat.not_lt.mp hlong)]
        have hlink := fun target => hfree [name] target (by simp)
        rw [List.singleton_append] at hlink
        cases hnode : t.node? (name :: here) with
        | none => simp [hhere, hnode, Nat.not_lt.mp hlong, eq_comm]
        | some node =>
            cases node with
            | link target => exact absurd hnode (hlink target)
            | file content => simp [hhere, hnode, Nat.not_lt.mp hlong, eq_comm]
            | directory =>
                simp [resolve_nil, hhere, hnode, Nat.not_lt.mp hlong, eq_comm]
  | cons first names ih =>
      rw [List.cons_append, List.forall_mem_cons] at hmoves
      have hplace : (first :: names).reverse ++ here = names.reverse ++ (first :: here) := by simp
      rw [hplace, List.cons_append]
      by_cases hlong : nameLimit < first.length
      · obtain ⟨cause, hcause⟩ :=
          t.resolve_of_long purpose links here hmoves.1 hlong (names ++ [name])
        simp [hcause, Nat.not_le.mpr hlong]
      · have hlength := Nat.not_lt.mp hlong
        have hlast : names ++ [name] ≠ [[]] := by
          intro heq
          obtain ⟨-, heq⟩ := List.append_eq_singleton_iff.mp heq |>.resolve_right (by simp)
          exact (hmoves.2 name (by simp)).1 (List.cons.inj heq).1
        rw [resolve_name hmoves.1 (.inr hlast) hlength]
        by_cases hnode : t.node? (first :: here) = some .directory
        · have hfree' : ∀ below target, below ≠ [] →
              t.node? (below ++ (first :: here)) ≠ some (.link target) := by
            intro below target _
            rw [List.append_cons]
            exact hfree (below ++ [first]) target (by simp)
          rw [hnode]
          refine (ih hfree' (fun _ => hnode) hmoves.2).trans ?_
          simp [hlength]
        · -- the place before the last name is a directory only if this one is
          have hdown : t.node? (names.reverse ++ (first :: here)) ≠ some .directory :=
            fun hdirectory => hnode (h.directory_of_append hdirectory)
          have hlink := fun target => hfree [first] target (by simp)
          rw [List.singleton_append] at hlink
          cases hfound : t.node? (first :: here) with
          | none => simp [hdown]
          | some node =>
              cases node with
              | link target => exact absurd hfound (hlink target)
              | file content => simp [hdown]
              | directory => exact absurd hfound hnode

/-- A directory with a way to it, and no links below it. -/
structure Site (t : FileTree) (absolute : Bool) (above : List Text) (root : Location) : Prop where
  wellFormed : t.WellFormed
  leads : ∃ links, Leads t linkLimit (if absolute then [] else t.start) above links root
  free : ∀ below target, below ≠ [] → t.node? (below ++ root) ≠ some (.link target)

/-- Whether no links lie below the directory that a path leads to. -/
def LinkFree (t : FileTree) (path : Text) : Prop :=
  ∀ place node, t.locate .target path = .ok (place, node) →
    ∀ below target, below ≠ [] → t.node? (below ++ place) ≠ some (.link target)

/-- Whether a link is found at a place. -/
def isLink (t : FileTree) (place : Location) : Bool :=
  match t.node? place with
  | some (.link _) => true
  | _ => false

theorem isLink_iff : t.isLink place = true ↔ ∃ target, t.node? place = some (.link target) := by
  unfold isLink
  split <;> simp_all

theorem linkFree_iff {path : Text} :
    t.LinkFree path ↔ ∀ found ∈ (t.locate .target path).toOption, ∀ e ∈ t.entries,
      found.1 <:+ e.1 → e.1 = found.1 ∨ t.isLink e.1 = false := by
  constructor
  · rintro h ⟨place, node⟩ hlocate e he ⟨below, heq⟩
    refine or_iff_not_imp_left.mpr fun hne => Bool.eq_false_iff.mpr fun hlink => ?_
    obtain ⟨target, hnode⟩ := isLink_iff.mp hlink
    refine h place node ?_ below target ?_ (heq ▸ hnode)
    · cases hresult : t.locate .target path <;> simp_all [Except.toOption]
    · rintro rfl
      exact hne heq.symm
  · intro h place node hlocate below target hbelow hnode
    have hentry := mem_entries_of_node? (by simp [hbelow]) hnode
    rcases h (place, node) (by rw [hlocate]; rfl) _ hentry ⟨below, rfl⟩ with heq | hlink
    · exact hbelow (List.append_left_eq_self.mp heq)
    · rw [isLink_iff.mpr ⟨target, hnode⟩] at hlink
      cases hlink

instance (t : FileTree) (path : Text) : Decidable (t.LinkFree path) :=
  decidable_of_iff _ linkFree_iff.symm

/-- A path that goes on behind a settled one along names that stay. -/
structure Down (absolute : Bool) (above names : List Text) (name path : Text) : Prop where
  settled : Path.Settled absolute above
  eq : path = Path.render absolute (above ++ names ++ [name])
  stays : ∀ e ∈ names ++ [name], Path.Stays e
  ne_nil : names ≠ []

theorem Down.directory_eq {absolute : Bool} {above names : List Text} {name path : Text}
    (h : Down absolute above names name path) :
    Path.directory path = Path.render absolute (above ++ names) := by
  have hnames : Path.Settled absolute (above ++ names) :=
    h.settled.append fun e he => h.stays e (List.mem_append_left _ he)
  rw [h.eq]
  exact hnames.directory_render (by simp [h.ne_nil]) (h.stays name (by simp)).slash

/-- Whether a path and the names in it are short enough. -/
def Fits (names : List Text) (name path : Text) : Prop :=
  pathFault? path = none ∧ ∀ e ∈ names ++ [name], e.length ≤ nameLimit

theorem pathFault?_eq_none {path : Text} :
    pathFault? path = none ↔ 0 ∉ path ∧ path ≠ [] ∧ path.length ≤ pathLimit := by
  unfold pathFault?
  split
  next hzero => simpa using fun hno => absurd (by simpa using hzero) hno
  next hzero =>
    have hzero : 0 ∉ path := by simpa using hzero
    split
    next hnil => simp [List.isEmpty_iff.mp hnil]
    next hnil =>
      have hnil : path ≠ [] := by simpa using hnil
      split
      next hlong => simp [Nat.not_le.mpr hlong]
      next hlong => simp [hzero, hnil, Nat.not_lt.mp hlong]

theorem pathFault?_of_initial {path longer : Text} (h : path <+: longer) (hpath : path ≠ [])
    (hlonger : pathFault? longer = none) : pathFault? path = none := by
  rw [pathFault?_eq_none] at hlonger ⊢
  exact ⟨fun hzero => hlonger.1 (h.subset hzero), hpath, h.length_le.trans hlonger.2.2⟩

/-- Before the names behind it, a path is short enough if it is with them. -/
theorem Down.pathFault?_above {absolute : Bool} {above names : List Text} {name path : Text}
    (h : Down absolute above names name path) (hfault : pathFault? path = none) :
    pathFault? (Path.render absolute above) = none := by
  by_cases habove : above = []
  · rw [habove]
    cases absolute <;> decide
  · refine pathFault?_of_initial ?_ (Path.render_ne_nil absolute h.settled.isElement) hfault
    rw [h.eq, List.append_assoc]
    exact Path.render_initial absolute habove _

/-- The directory of a settled path is found where the path leads. -/
theorem Leads.locate {absolute : Bool} {above : List Text} {links : Nat} {root : Location}
    (h : Leads t linkLimit (if absolute then [] else t.start) above links root)
    (hsettled : Path.Settled absolute above)
    (hfault : pathFault? (Path.render absolute above) = none) :
    t.locate .target (Path.render absolute above) = .ok (root, t.node? root) := by
  rw [FileTree.locate, hfault, Path.isAbsolute_render absolute hsettled.isElement]
  by_cases habove : above = []
  · -- no element is left, and what is written for none moves nowhere
    subst habove
    cases h
    cases absolute with
    | true => exact (resolve_stay (.inl rfl) []).trans resolve_nil
    | false => exact (resolve_stay (.inr rfl) []).trans resolve_nil
  · have hresolve : t.resolve .target linkLimit _ (above ++ []) = _ := h.resolve_append (.inl rfl)
    rw [List.append_nil] at hresolve
    rw [Path.steps_render absolute habove hsettled.isElement]
    exact hresolve.trans resolve_nil

/-- A path that fits leads to a place in a directory, or nothing is found at the place. -/
def Arrives (t : FileTree) (purpose : Purpose) (path : Text) (fits : Prop) (place : Location) :
    Prop :=
  (fits ∧ t.node? place.tail = some .directory ∧
      t.locate purpose path = .ok (place, t.node? place)) ∨
    ((fits → t.node? place = none) ∧ ∃ cause, t.locate purpose path = .error cause)

theorem Arrives.list_eq_ok {path : Text} {fits : Prop} (h : t.Arrives .target path fits place)
    {entries : List (Text × Node)} :
    t.list path = .ok entries ↔
      fits ∧ t.node? place = some .directory ∧ entries = t.children place := by
  unfold list
  rcases h with ⟨hfits, -, hlocate⟩ | ⟨hnone, cause, hlocate⟩
  · cases hnode : t.node? place with
    | none => simp [hlocate, hnode]
    | some node => cases node <;> simp [hlocate, hfits, hnode, eq_comm]
  · simp +contextual [hlocate, hnone]

theorem Arrives.read_eq_ok {path : Text} {fits : Prop} (h : t.Arrives .target path fits place)
    {content : Text} :
    t.read path = .ok content ↔ fits ∧ t.node? place = some (.file content) := by
  unfold read
  rcases h with ⟨hfits, -, hlocate⟩ | ⟨hnone, cause, hlocate⟩
  · cases hnode : t.node? place with
    | none => simp [hlocate, hnode]
    | some node => cases node <;> simp [hlocate, hfits, hnode]
  · simp +contextual [hlocate, hnone]

/-- What is found by a path is what its elements lead to. -/
theorem resolve_of_locate {purpose : Purpose} {absolute : Bool} {es : List Text} (hne : es ≠ [])
    (hes : ∀ e ∈ es, Path.IsElement e) {found : Location × Option Node}
    (h : t.locate purpose (Path.render absolute es) = .ok found) :
    pathFault? (Path.render absolute es) = none ∧
      t.resolve purpose linkLimit (if absolute then [] else t.start) es = .ok found := by
  unfold FileTree.locate at h
  split at h
  next => cases h
  next hfault =>
    rw [Path.isAbsolute_render absolute hes, Path.steps_render absolute hne hes] at h
    exact ⟨hfault, h⟩

namespace Site

variable {absolute : Bool} {above names : List Text} {name path : Text} {root : Location}

/-- A path that can be followed down from a directory without links goes through a site. -/
theorem exists_site (h : t.WellFormed) (hd : Down absolute above names name path)
    (hfree : t.LinkFree (Path.render absolute above)) {purpose : Purpose}
    {found : Location × Option Node} (hlocate : t.locate purpose path = .ok found) :
    ∃ root, Site t absolute above root := by
  have hes := (hd.settled.append hd.stays).isElement
  have heq : path = Path.render absolute (above ++ (names ++ [name])) := by
    rw [hd.eq, List.append_assoc]
  rw [heq] at hlocate
  obtain ⟨hfault, hresolve⟩ := resolve_of_locate (by simp) hes hlocate
  obtain ⟨links, root, hleads⟩ := exists_leads (by simp) hresolve
  exact ⟨root, h, ⟨links, hleads⟩,
    hfree _ _ (hleads.locate hd.settled (hd.pathFault?_above (heq ▸ hfault)))⟩

/-- No links lie below a site. -/
theorem linkFree (h : Site t absolute above root) (hsettled : Path.Settled absolute above)
    (hfault : pathFault? (Path.render absolute above) = none) :
    t.LinkFree (Path.render absolute above) := by
  intro place node hlocate
  obtain ⟨links, hleads⟩ := h.leads
  rw [hleads.locate hsettled hfault] at hlocate
  obtain ⟨rfl, -⟩ := Prod.mk.inj (Except.ok.inj hlocate)
  exact h.free

/-- Names behind a site lead to their place, or nothing is found there. -/
theorem arrives (h : Site t absolute above root) (hsettled : Path.Settled absolute above)
    (hstays : ∀ e ∈ names ++ [name], Path.Stays e)
    (hroot : names = [] → t.node? root = some .directory) (purpose : Purpose) :
    let path := Path.render absolute (above ++ names ++ [name])
    t.Arrives purpose path (Fits names name path) (name :: (names.reverse ++ root)) := by
  intro path
  have hes := (hsettled.append hstays).isElement
  rw [← List.append_assoc] at hes
  have hne : above ++ names ++ [name] ≠ [] := by simp
  by_cases hfault : pathFault? path = none
  · obtain ⟨links, hleads⟩ := h.leads
    have hlocate : t.locate purpose path = t.resolve purpose links root (names ++ [name]) := by
      obtain ⟨first, more, hnames⟩ := List.exists_cons_of_ne_nil
        (List.append_ne_nil_of_right_ne_nil names (List.cons_ne_nil name []))
      have hfirst : first ≠ [] := (hstays first (by simp [hnames])).ne_nil
      rw [locate, hfault, Path.isAbsolute_render absolute hes, Path.steps_render absolute hne hes,
        List.append_assoc]
      exact hleads.resolve_append (.inr ⟨first, more, hnames, hfirst⟩)
    have hiff : ∀ found, t.resolve purpose links root (names ++ [name]) = .ok found ↔ _ :=
      fun _ => h.wellFormed.resolve_names h.free hroot hstays
    rw [Arrives, hlocate]
    cases hresolve : t.resolve purpose links root (names ++ [name]) with
    | ok found =>
        obtain ⟨hlength, hdirectory, rfl⟩ := (hiff found).mp hresolve
        exact .inl ⟨⟨hfault, hlength⟩, hdirectory, rfl⟩
    | error cause =>
        refine .inr ⟨fun hfits => ?_, cause, rfl⟩
        by_contra hsome
        obtain ⟨node, hnode⟩ := Option.ne_none_iff_exists'.mp hsome
        have hok := (hiff _).mpr ⟨hfits.2, h.wellFormed.above hnode, rfl⟩
        rw [hresolve] at hok
        cases hok
  · refine .inr ⟨fun hfits => absurd hfits.1 hfault, ?_⟩
    obtain ⟨cause, hcause⟩ := Option.ne_none_iff_exists'.mp hfault
    exact ⟨cause, by rw [locate, hcause]⟩

theorem arrives_down (h : Site t absolute above root) (hd : Down absolute above names name path)
    (purpose : Purpose) :
    t.Arrives purpose path (Fits names name path) (name :: (names.reverse ++ root)) := by
  rw [hd.eq]
  exact h.arrives hd.settled hd.stays (fun hnil => absurd hnil hd.ne_nil) purpose

/-- A path that goes down from a site leads to the place of its names, or nothing is found there. -/
theorem locate_cases (h : Site t absolute above root) (hd : Down absolute above names name path)
    (purpose : Purpose) :
    let place := name :: (names.reverse ++ root)
    (Fits names name path ∧ t.node? (names.reverse ++ root) = some .directory ∧
        t.locate purpose path = .ok (place, t.node? place)) ∨
      ((Fits names name path → t.node? place = none) ∧
        ∃ cause, t.locate purpose path = .error cause) :=
  h.arrives_down hd purpose

theorem target?_eq_some (h : Site t absolute above root) (hd : Down absolute above names name path)
    {node : Node} :
    t.target? path = some node ↔
      Fits names name path ∧ t.node? (name :: (names.reverse ++ root)) = some node := by
  unfold target?
  rcases h.locate_cases hd .target with ⟨hfits, -, hlocate⟩ | ⟨hnone, cause, hlocate⟩
  · simp [hlocate, hfits]
  · simp +contextual [hlocate, hnone]

theorem inspect_eq_ok (h : Site t absolute above root) (hd : Down absolute above names name path)
    {node : Node} :
    t.inspect path = .ok node ↔
      Fits names name path ∧ t.node? (name :: (names.reverse ++ root)) = some node := by
  unfold inspect
  rcases h.locate_cases hd .entry with ⟨hfits, -, hlocate⟩ | ⟨hnone, cause, hlocate⟩
  · cases hnode : t.node? (name :: (names.reverse ++ root)) <;> simp [hlocate, hfits, hnode]
  · simp +contextual [hlocate, hnone]

theorem list_eq_ok (h : Site t absolute above root) (hd : Down absolute above names name path)
    {entries : List (Text × Node)} :
    t.list path = .ok entries ↔
      Fits names name path ∧ t.node? (name :: (names.reverse ++ root)) = some .directory ∧
        entries = t.children (name :: (names.reverse ++ root)) :=
  (h.arrives_down hd .target).list_eq_ok

theorem read_eq_ok (h : Site t absolute above root) (hd : Down absolute above names name path)
    {content : Text} :
    t.read path = .ok content ↔
      Fits names name path ∧
        t.node? (name :: (names.reverse ++ root)) = some (.file content) :=
  (h.arrives_down hd .target).read_eq_ok

/-- A file is written into a directory, in place of a file or where nothing was found. -/
theorem write_cases (h : Site t absolute above root) (hd : Down absolute above names name path)
    (content : Text) :
    let place := name :: (names.reverse ++ root)
    (Fits names name path ∧ t.node? (names.reverse ++ root) = some .directory ∧
        (∀ node, t.node? place = some node → ∃ old, node = .file old) ∧
        t.write path content = (t.set place (.file content), .ok ())) ∨
      ∃ error, t.write path content = (t, .error error) := by
  intro place
  unfold write
  rcases h.locate_cases hd .creation with ⟨hfits, hdirectory, hlocate⟩ | ⟨-, cause, hlocate⟩
  · rw [hlocate]
    cases hnode : t.node? place with
    | none => exact .inl ⟨hfits, hdirectory, nofun, rfl⟩
    | some node =>
        cases node with
        | directory => exact .inr ⟨_, rfl⟩
        | file old => exact .inl ⟨hfits, hdirectory, by simp, rfl⟩
        | link target => exact absurd hnode (h.free (name :: names.reverse) target (by simp))
  · rw [hlocate]
    exact .inr ⟨_, rfl⟩

/-- A directory is made in a directory, where nothing was found. -/
theorem make_cases (h : Site t absolute above root) (hd : Down absolute above names name path)
    (node : Node) :
    let place := name :: (names.reverse ++ root)
    (t.node? (names.reverse ++ root) = some .directory ∧ t.node? place = none ∧
        t.make path node = (t.set place node, .ok ())) ∨
      ∃ error, t.make path node = (t, .error error) := by
  intro place
  unfold make
  rcases h.locate_cases hd .entry with ⟨-, hdirectory, hlocate⟩ | ⟨-, cause, hlocate⟩
  · rw [hlocate]
    cases hnode : t.node? place with
    | none => exact .inl ⟨hdirectory, rfl, rfl⟩
    | some old => exact .inr ⟨_, rfl⟩
  · rw [hlocate]
    exact .inr ⟨_, rfl⟩

end Site

end Packwright.FileTree
