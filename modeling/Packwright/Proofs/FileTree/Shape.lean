import Mathlib.Data.List.Nodup
import Mathlib.Data.List.Perm.Subperm
import Packwright.FileTree.Basic
import Packwright.Proofs.Path

/-! # Well-formed file trees

A file tree lists its entries in no order, so it shows what a file system holds only if no place is
listed twice, every entry has a name that can stand in a path, and every entry lies in a directory.
What is found in a directory is then determined by what is found at each place (`mem_children`), and
two trees list the entries that they share in the same order (`filter_children`).
-/

namespace Packwright

theorem Text.le_iff (a b : Text) : Text.le a b = true ↔ a ≤ b := by
  induction a generalizing b with
  | nil => simp [Text.le]
  | cons x as ih =>
      cases b with
      | nil => simp [Text.le]
      | cons y bs =>
          rw [List.cons_le_cons_iff, ← ih]
          simp [Text.le]

namespace FileTree

variable {t t' : FileTree}

theorem node?_of_ne_nil (t : FileTree) {place : Location} (h : place ≠ []) :
    t.node? place = t.entries.lookup place := if_neg (by simpa using h)

/-! ## Putting something at a place -/

theorem lookup_replace (place : Location) (node : Node) (entries : List (Location × Node))
    (other : Location) :
    (entries.map fun e => if e.1 == place then (place, node) else e).lookup other =
      if other = place then (entries.lookup place).map fun _ => node
      else entries.lookup other := by
  simp only [beq_iff_eq]
  induction entries with
  | nil => simp
  | cons e rest ih =>
      obtain ⟨key, old⟩ := e
      by_cases hkey : key = place
      · subst hkey
        by_cases hother : other = key
        · simp [hother]
        · simp [hother, ih, List.lookup_cons, beq_eq_false_iff_ne.mpr hother]
      · by_cases hother : other = key
        · simp [hkey, hother]
        · simp [hkey, ih, List.lookup_cons, beq_eq_false_iff_ne.mpr hother,
            beq_eq_false_iff_ne.mpr (Ne.symm hkey)]

/-- What is put at a place is found there, and nothing changes elsewhere. -/
theorem node?_set (t : FileTree) {place : Location} (hplace : place ≠ []) (node : Node)
    (other : Location) :
    (t.set place node).node? other = if other = place then some node else t.node? other := by
  by_cases hother : other = []
  · rw [hother, if_neg (Ne.symm hplace)]
    rfl
  · rw [node?_of_ne_nil _ hother, node?_of_ne_nil _ hother, set]
    split
    next hsome =>
      obtain ⟨old, hold⟩ := Option.isSome_iff_exists.mp hsome
      rw [lookup_replace, hold]
      rfl
    next hnone =>
      rw [Bool.not_eq_true, Option.isSome_eq_false_iff, Option.isNone_iff_eq_none] at hnone
      rw [List.lookup_append]
      by_cases heq : other = place
      · rw [heq, hnone]
        simp
      · simp [heq, List.lookup_cons, beq_eq_false_iff_ne.mpr heq]

@[simp] theorem start_set (t : FileTree) (place : Location) (node : Node) :
    (t.set place node).start = t.start := by
  unfold set
  split <;> rfl

/-! ## Well-formed trees -/

/-- A tree that shows what a file system holds. -/
structure WellFormed (t : FileTree) : Prop where
  nodup : (t.entries.map Prod.fst).Nodup
  inside : ∀ e ∈ t.entries, ∃ name above, e.1 = name :: above ∧ Path.Stays name ∧
    t.node? above = some .directory

theorem wellFormed_iff :
    t.WellFormed ↔ (t.entries.map Prod.fst).Nodup ∧
      ∀ e ∈ t.entries, ∃ name ∈ e.1.head?, Path.Stays name ∧
        t.node? e.1.tail = some .directory := by
  refine ⟨fun h => ⟨h.nodup, fun e he => ?_⟩, fun h => ⟨h.1, fun e he => ?_⟩⟩
  · obtain ⟨name, above, heq, hinside⟩ := h.inside e he
    exact ⟨name, by simp [heq], by simpa [heq] using hinside⟩
  · obtain ⟨name, hname, hinside⟩ := h.2 e he
    exact ⟨name, e.1.tail, (List.cons_head?_tail hname).symm, hinside⟩

instance (t : FileTree) : Decidable t.WellFormed := decidable_of_iff _ wellFormed_iff.symm

theorem mem_entries_of_node? {place : Location} {node : Node} (hplace : place ≠ [])
    (h : t.node? place = some node) : (place, node) ∈ t.entries := by
  rw [node?_of_ne_nil t hplace] at h
  obtain ⟨before, after, hentries, -⟩ := List.lookup_eq_some_iff.mp h
  rw [hentries]
  simp

/-- An entry of a directory lies right in it. -/
theorem of_entry {dir place : Location} {name : Text} {node node' : Node}
    (h : ((nameIn? dir place).map fun name => (name, node')) = some (name, node)) :
    place = name :: dir ∧ node' = node := by
  obtain ⟨name', hname, heq⟩ := Option.map_eq_some_iff.mp h
  obtain ⟨rfl, rfl⟩ := Prod.mk.inj heq
  cases place with
  | nil => cases hname
  | cons first above =>
      by_cases habove : above = dir
      · simp only [nameIn?, habove, beq_self_eq_true, if_true, Option.some.injEq] at hname
        exact ⟨by rw [hname, habove], rfl⟩
      · simp [nameIn?, habove] at hname

theorem pairwise_children (t : FileTree) (dir : Location) :
    (t.children dir).Pairwise fun a b => a.1 ≤ b.1 := by
  simp only [← Text.le_iff]
  refine List.pairwise_mergeSort ?_ ?_ _
  · intro a b c hab hbc
    rw [Text.le_iff] at *
    exact List.le_trans hab hbc
  · intro a b
    rw [Bool.or_eq_true, Text.le_iff, Text.le_iff]
    exact List.le_total a.1 b.1

namespace WellFormed

/-- What is found at a place is what is listed for it. -/
theorem node?_eq_some (h : t.WellFormed) {place : Location} {node : Node} (hplace : place ≠ []) :
    t.node? place = some node ↔ (place, node) ∈ t.entries := by
  refine ⟨mem_entries_of_node? hplace, fun hmem => ?_⟩
  rw [node?_of_ne_nil t hplace]
  obtain ⟨before, after, hentries⟩ := List.append_of_mem hmem
  refine List.lookup_eq_some_iff.mpr ⟨before, after, hentries, fun e he => ?_⟩
  have hnodup := h.nodup
  rw [hentries, List.map_append, List.map_cons, List.nodup_append] at hnodup
  have hne := hnodup.2.2 e.1 (List.mem_map_of_mem he) place List.mem_cons_self
  simpa using Ne.symm hne

theorem stays (h : t.WellFormed) {name : Text} {above : Location} {node : Node}
    (hnode : t.node? (name :: above) = some node) : Path.Stays name := by
  obtain ⟨name', above', heq, hstays, -⟩ := h.inside _ (mem_entries_of_node? (by simp) hnode)
  cases heq
  exact hstays

/-- Where something is found, the place above it is a directory. -/
theorem above (h : t.WellFormed) {name : Text} {above : Location} {node : Node}
    (hnode : t.node? (name :: above) = some node) : t.node? above = some .directory := by
  obtain ⟨name', above', heq, -, habove⟩ := h.inside _ (mem_entries_of_node? (by simp) hnode)
  cases heq
  exact habove

theorem stays_of_append (h : t.WellFormed) {below place : Location} {node : Node}
    (hnode : t.node? (below ++ place) = some node) : ∀ e ∈ below, Path.Stays e := by
  induction below generalizing node with
  | nil => exact List.forall_mem_nil _
  | cons name below ih => exact List.forall_mem_cons.mpr ⟨h.stays hnode, ih (h.above hnode)⟩

theorem directory_of_append (h : t.WellFormed) {below place : Location}
    (hnode : t.node? (below ++ place) = some .directory) : t.node? place = some .directory := by
  induction below with
  | nil => exact hnode
  | cons name below ih => exact ih (h.above hnode)

/-- A tree stays well-formed if something with a proper name is put into a directory, and not in
place of a directory. -/
theorem set (h : t.WellFormed) {name : Text} {above : Location} {node : Node}
    (hname : Path.Stays name) (habove : t.node? above = some .directory)
    (hold : t.node? (name :: above) ≠ some .directory) :
    (t.set (name :: above) node).WellFormed := by
  have hkeep : ∀ {place}, t.node? place = some .directory →
      (t.set (name :: above) node).node? place = some .directory := by
    intro place hplace
    rw [node?_set t (by simp), if_neg, hplace]
    rintro rfl
    exact hold hplace
  have hinside : ∀ e ∈ (t.set (name :: above) node).entries,
      e ∈ t.entries ∨ e.1 = name :: above := by
    intro e he
    unfold FileTree.set at he
    split at he
    next =>
      obtain ⟨e', he', rfl⟩ := List.mem_map.mp he
      split
      next => exact .inr rfl
      next => exact .inl he'
    next =>
      rcases List.mem_append.mp he with he | he
      · exact .inl he
      · exact .inr (by rw [List.mem_singleton.mp he])
  constructor
  · unfold FileTree.set
    split
    next =>
      have hkeys : (t.entries.map fun e =>
          if e.1 == name :: above then (name :: above, node) else e).map Prod.fst =
          t.entries.map Prod.fst := by
        rw [List.map_map]
        refine List.map_congr_left fun e _ => ?_
        by_cases heq : e.1 = name :: above <;> simp [heq]
      rw [hkeys]
      exact h.nodup
    next hnone =>
      rw [Bool.not_eq_true, Option.isSome_eq_false_iff, Option.isNone_iff_eq_none] at hnone
      rw [List.map_append, List.nodup_append]
      refine ⟨h.nodup, by simp, fun place hplace place' hplace' heq => ?_⟩
      obtain ⟨e, he, rfl⟩ := List.mem_map.mp hplace
      obtain rfl := List.mem_singleton.mp hplace'
      have heq : e.1 = name :: above := heq
      have hfound := (h.node?_eq_some (by simp)).mpr (heq ▸ he : (name :: above, e.2) ∈ t.entries)
      rw [node?_of_ne_nil t (by simp), hnone] at hfound
      cases hfound
  · intro e he
    rcases hinside e he with he | heq
    · obtain ⟨name', above', heq, hstays, habove'⟩ := h.inside e he
      exact ⟨name', above', heq, hstays, hkeep habove'⟩
    · exact ⟨name, above, heq, hname, hkeep habove⟩

/-- What is put where it is found already changes nothing. -/
theorem set_eq_self (h : t.WellFormed) {place : Location} {node : Node} (hplace : place ≠ [])
    (hnode : t.node? place = some node) : t.set place node = t := by
  have hsome : (t.entries.lookup place).isSome = true := by
    rw [← node?_of_ne_nil t hplace, hnode]
    rfl
  have hentries : (t.entries.map fun e => if e.1 == place then (place, node) else e) =
      t.entries.map id := by
    refine List.map_congr_left fun e he => ?_
    by_cases heq : e.1 = place
    · subst heq
      have hfound := (h.node?_eq_some hplace).mpr he
      rw [hnode] at hfound
      obtain rfl := Option.some.inj hfound
      simp
    · simp [heq]
  rw [FileTree.set, if_pos hsome, hentries, List.map_id]

theorem exists_node_of_append (h : t.WellFormed) {below place : Location} {node : Node}
    (hnode : t.node? (below ++ place) = some node) : ∃ node', t.node? place = some node' := by
  cases below with
  | nil => exact ⟨node, hnode⟩
  | cons name below => exact ⟨.directory, h.directory_of_append (h.above hnode)⟩

/-- No place lies deeper than there are entries, since every place on the way to it is one. -/
theorem length_le (h : t.WellFormed) {place : Location} {node : Node}
    (hnode : t.node? place = some node) : place.length ≤ t.entries.length := by
  let way := (List.range place.length).map fun n => place.drop n
  have hway : way.Nodup := by
    refine List.Nodup.map_on (fun n hn m hm heq => ?_) List.nodup_range
    rw [List.mem_range] at hn hm
    have hlength := congrArg List.length heq
    simp only [List.length_drop] at hlength
    omega
  have hentries : way ⊆ t.entries.map Prod.fst := by
    intro above habove
    obtain ⟨n, hn, rfl⟩ := List.mem_map.mp habove
    have hne : place.drop n ≠ [] := by simpa using hn
    obtain ⟨node', hnode'⟩ := h.exists_node_of_append
      ((List.take_append_drop n place).symm ▸ hnode : t.node? (place.take n ++ place.drop n) = _)
    exact List.mem_map_of_mem (f := Prod.fst) (mem_entries_of_node? hne hnode')
  have hle := (hway.subperm hentries).length_le
  simpa [way] using hle

/-! ## Directories -/

theorem mem_children (h : t.WellFormed) {dir : Location} {name : Text} {node : Node} :
    (name, node) ∈ t.children dir ↔ t.node? (name :: dir) = some node := by
  rw [h.node?_eq_some (by simp), children, List.mem_mergeSort, List.mem_filterMap]
  constructor
  · rintro ⟨⟨place, node'⟩, hmem, hentry⟩
    obtain ⟨hplace, rfl⟩ := of_entry hentry
    exact hplace ▸ hmem
  · intro hmem
    exact ⟨_, hmem, by simp [nameIn?]⟩

/-- A place without a directory holds nothing. -/
theorem children_eq_nil (h : t.WellFormed) {dir : Location} (hdir : t.node? dir ≠ some .directory) :
    t.children dir = [] := by
  refine List.eq_nil_iff_forall_not_mem.mpr fun e he => hdir ?_
  exact h.above (h.mem_children.mp he)

theorem nodup_children (h : t.WellFormed) (dir : Location) : (t.children dir).Nodup := by
  rw [children, (List.mergeSort_perm _ _).nodup_iff]
  refine List.Nodup.filterMap ?_ (List.Nodup.of_map _ h.nodup)
  rintro ⟨place, node⟩ ⟨place', node'⟩ ⟨name, found⟩ he he'
  obtain ⟨rfl, rfl⟩ := of_entry he
  obtain ⟨rfl, rfl⟩ := of_entry he'
  rfl

/-- What a directory holds is listed by name, no name twice. -/
theorem pairwise_lt_children (h : t.WellFormed) (dir : Location) :
    (t.children dir).Pairwise fun a b => a.1 < b.1 := by
  refine ((t.pairwise_children dir).and (h.nodup_children dir)).imp_of_mem ?_
  rintro ⟨name, node⟩ ⟨name', node'⟩ ha hb ⟨hle, hne⟩
  refine List.not_le.mp fun hge => hne ?_
  obtain rfl : name = name' := List.le_antisymm hle hge
  rw [Option.some.inj ((h.mem_children.mp ha).symm.trans (h.mem_children.mp hb))]

/-- Two trees list what they share in the same order. -/
theorem filter_children (h : t.WellFormed) (h' : t'.WellFormed) {dir : Location}
    {keep : Text × Node → Bool}
    (hkeep : ∀ name node, keep (name, node) = true →
      (t.node? (name :: dir) = some node ↔ t'.node? (name :: dir) = some node)) :
    (t.children dir).filter keep = (t'.children dir).filter keep := by
  have hperm : ((t.children dir).filter keep).Perm ((t'.children dir).filter keep) := by
    refine (List.perm_ext_iff_of_nodup ((h.nodup_children dir).filter _)
      ((h'.nodup_children dir).filter _)).mpr fun ⟨name, node⟩ => ?_
    rw [List.mem_filter, List.mem_filter, h.mem_children, h'.mem_children]
    exact and_congr_left (hkeep name node)
  refine hperm.eq_of_pairwise ?_ ((t.pairwise_children dir).filter _)
    ((t'.pairwise_children dir).filter _)
  rintro ⟨name, node⟩ ⟨name', node'⟩ ha hb hle hle'
  obtain rfl : name = name' := List.le_antisymm hle hle'
  have hfound := h.mem_children.mp (List.mem_of_mem_filter ha)
  have hfound' := h.mem_children.mp (List.mem_of_mem_filter (hperm.mem_iff.mpr hb))
  rw [Option.some.inj (hfound.symm.trans hfound')]

end WellFormed

end FileTree

end Packwright
