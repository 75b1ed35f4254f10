import Mathlib.Data.List.Infix
import Packwright.Macro.Expansion

/-! # What functions mean

A function stands for the commands that running it issues. Where a line only calls a macro, or a
function made for a macro, it stands for the commands of the body; behind other text it is a command
of its own, whose target is a macro and its arguments. Macros may call themselves, so the commands
of a function need not come to an end: a listing shows a beginning of them, and more of it the
deeper it looks into bodies.

There are two ways to list commands. An `expansion` reads macro calls off the source and knows
nothing but the definitions. An `unfolding` reads function calls off compiled functions.
-/

namespace Packwright.Macro

/-- A command: a line as it stands, or one that ends in the call of a macro. -/
inductive Command where
  | plain (line : Text)
  | calling (lead ns callee : Text) (args : List Text)
  deriving DecidableEq, Repr

/-- The command behind white space. -/
def Command.behind (lead : Text) : Command → Command
  | .plain line => .plain (lead ++ line)
  | .calling lead' ns callee args => .calling (lead ++ lead') ns callee args

/-- The beginning of a list of commands, and whether it is the whole list. -/
structure Listing where
  shown : List Command
  whole : Bool
  deriving DecidableEq, Repr

namespace Listing

/-- Shows nothing yet. -/
def nothing : Listing := ⟨[], false⟩

/-- Goes on with a second listing where the first one is whole. -/
def append (a b : Listing) : Listing := if a.whole then ⟨a.shown ++ b.shown, b.whole⟩ else a

/-- Shows listings one after the other. -/
def concat (as : List Listing) : Listing := as.foldr append ⟨[], true⟩

/-- The commands behind white space. -/
def behind (lead : Text) (a : Listing) : Listing := ⟨a.shown.map (Command.behind lead), a.whole⟩

/-- A listing shows no more than another one, and is the same if it is whole. -/
structure Below (a b : Listing) : Prop where
  shown : a.shown <+: b.shown
  whole : a.whole = true → a = b

theorem Below.refl (a : Listing) : Below a a := ⟨List.prefix_rfl, fun _ => rfl⟩

theorem Below.trans {a b c : Listing} (h : Below a b) (h' : Below b c) : Below a c := by
  refine ⟨h.shown.trans h'.shown, fun hwhole => ?_⟩
  obtain rfl := h.whole hwhole
  exact h'.whole hwhole

theorem nothing_below (a : Listing) : Below nothing a :=
  ⟨List.nil_prefix, fun hwhole => nomatch hwhole⟩

theorem Below.append {a a' b b' : Listing} (ha : Below a a') (hb : Below b b') :
    Below (a.append b) (a'.append b') := by
  unfold Listing.append
  split
  next hwhole =>
    obtain rfl := ha.whole hwhole
    rw [if_pos hwhole]
    refine ⟨(List.prefix_append_right_inj a.shown).mpr hb.shown, fun hwhole' => ?_⟩
    rw [hb.whole hwhole']
  next hpart =>
    refine ⟨?_, fun hwhole => absurd hwhole hpart⟩
    split
    next => exact ha.shown.trans (List.prefix_append _ _)
    next => exact ha.shown

theorem Below.behind {a b : Listing} (h : Below a b) (lead : Text) :
    Below (a.behind lead) (b.behind lead) := by
  refine ⟨h.shown.map _, fun hwhole => ?_⟩
  rw [h.whole hwhole]

theorem append_assoc (a b c : Listing) : (a.append b).append c = a.append (b.append c) := by
  cases a with
  | mk shown whole =>
      cases whole with
      | false => rfl
      | true =>
          cases hb : b.whole <;> simp [append, hb]

theorem concat_append (as bs : List Listing) :
    concat (as ++ bs) = (concat as).append (concat bs) := by
  induction as with
  | nil => rfl
  | cons a as ih =>
      change a.append (concat (as ++ bs)) = (a.append (concat as)).append (concat bs)
      rw [ih, append_assoc]

theorem concat_singleton (a : Listing) : concat [a] = a := by
  cases ha : a.whole with
  | true =>
      obtain ⟨shown, whole⟩ := a
      obtain rfl : whole = true := ha
      simp [concat, append]
  | false => simp [concat, append, ha]

theorem behind_append (lead : Text) (a b : Listing) :
    (a.append b).behind lead = (a.behind lead).append (b.behind lead) := by
  cases ha : a.whole <;> simp [append, behind, ha]

theorem behind_concat (lead : Text) (as : List Listing) :
    (concat as).behind lead = concat (as.map (behind lead)) := by
  induction as with
  | nil => rfl
  | cons a as ih =>
      change (a.append (concat as)).behind lead = (a.behind lead).append (concat (as.map _))
      rw [behind_append, ih]

/-- Listings made of the members of a list show no more than others if each of them does. -/
theorem concat_below {α : Type} {f g : α → Listing} {as : List α}
    (h : ∀ a ∈ as, Below (f a) (g a)) : Below (concat (as.map f)) (concat (as.map g)) := by
  induction as with
  | nil => exact .refl _
  | cons a as ih =>
      exact (h a List.mem_cons_self).append (ih fun b hb => h b (List.mem_cons_of_mem _ hb))

end Listing

/-- What a line stands for: a command, a body behind white space, or nothing that is known. -/
inductive Reading where
  | command (c : Command)
  | body (lead : Text) (lines : List Text)
  | unknown
  deriving DecidableEq, Repr

/-- Lists the commands of a line, given a way to list those of a body. -/
def Reading.list (inner : List Text → Listing) : Reading → Listing
  | .command c => ⟨[c], true⟩
  | .body lead lines => (inner lines).behind lead
  | .unknown => .nothing

theorem Reading.list_below {f g : List Text → Listing} (h : ∀ lines, (f lines).Below (g lines))
    (r : Reading) : (r.list f).Below (r.list g) := by
  cases r with
  | command c => exact .refl _
  | body lead lines => exact (h lines).behind lead
  | unknown => exact .refl _

/-- Lists the commands of lines, looking less than `depth` bodies deep. -/
def list (read : Text → Reading) : (depth : Nat) → List Text → Listing
  | 0, _ => .nothing
  | depth + 1, lines => .concat (lines.map fun line => (read line).list (list read depth))

/-- The deeper a listing looks, the more it shows. -/
theorem list_below_succ (read : Text → Reading) (n : Nat) (lines : List Text) :
    (list read n lines).Below (list read (n + 1) lines) := by
  induction n generalizing lines with
  | zero => exact Listing.nothing_below _
  | succ n ih => exact Listing.concat_below fun line _ => Reading.list_below ih (read line)

theorem list_below {read : Text → Reading} {m n : Nat} (h : m ≤ n) (lines : List Text) :
    (list read m lines).Below (list read n lines) := by
  induction h with
  | refl => exact .refl _
  | step _ ih => exact ih.trans (list_below_succ read _ lines)

/-- Two ways to show commands show the same ones in the end: all of them, if they come to an end,
and each beginning of them if they do not. -/
structure Agree (f g : Nat → Listing) : Prop where
  whole : ∀ cs, (∃ n, f n = ⟨cs, true⟩) ↔ ∃ n, g n = ⟨cs, true⟩
  beginning : ∀ cs, (∃ n, cs <+: (f n).shown) ↔ ∃ n, cs <+: (g n).shown

theorem Agree.of_below {f g : Nat → Listing} (hf : ∀ n, ∃ m, (f n).Below (g m))
    (hg : ∀ n, ∃ m, (g n).Below (f m)) : Agree f g := by
  have hwhole : ∀ {f g : Nat → Listing}, (∀ n, ∃ m, (f n).Below (g m)) → ∀ cs,
      (∃ n, f n = ⟨cs, true⟩) → ∃ n, g n = ⟨cs, true⟩ := by
    rintro f g h cs ⟨n, hn⟩
    obtain ⟨m, hbelow⟩ := h n
    exact ⟨m, (hbelow.whole (by rw [hn])).symm.trans hn⟩
  have hbeginning : ∀ {f g : Nat → Listing}, (∀ n, ∃ m, (f n).Below (g m)) → ∀ cs,
      (∃ n, cs <+: (f n).shown) → ∃ n, cs <+: (g n).shown := by
    rintro f g h cs ⟨n, hn⟩
    obtain ⟨m, hbelow⟩ := h n
    exact ⟨m, hn.trans hbelow.shown⟩
  exact ⟨fun cs => ⟨hwhole hf cs, hwhole hg cs⟩,
    fun cs => ⟨hbeginning hf cs, hbeginning hg cs⟩⟩

/-! ## Reading sources -/

/-- What a macro call stands for. -/
def Reading.ofCall (find? : Text → Option Definition) (ns lead callee : Text) (args : List Text) :
    Reading :=
  if Text.isSpace lead then
    match find? callee with
    | some d => .body lead (d.expand args)
    | none => .unknown
  else .command (.calling lead ns callee args)

/-- Reads a line of a source or of a body. -/
def Reading.ofSource (find? : Text → Option Definition) (ns line : Text) : Reading :=
  match CallSite.parse? line with
  | none => .command (.plain line)
  | some site =>
    match Text.fields site.payload with
    | [] => .unknown
    | callee :: args => .ofCall find? ns site.lead callee args

/-- Lists the commands of lines that may call macros. -/
def expansion (find? : Text → Option Definition) (ns : Text) : Nat → List Text → Listing :=
  list (Reading.ofSource find? ns)

/-- The definitions in the lines of a source. -/
def definitionsIn (reference : Text) (lines : List Text) : List Definition :=
  match lines with
  | [] => []
  | line :: rest =>
    match Header.parse? line with
    | some ⟨some name, params⟩ =>
      let depth := Text.indent line
      let isBody (l : Text) : Bool := depth < Text.indent l
      .read reference name params depth (rest.takeWhile isBody) ::
        definitionsIn reference (rest.dropWhile isBody)
    | _ => definitionsIn reference rest
termination_by lines.length
decreasing_by
  · exact Nat.lt_succ_of_le (List.dropWhile_sublist _).length_le
  · exact Nat.lt_succ_self _

/-- The first definition of a macro. -/
def firstDefinition (ds : List Definition) (name : Text) : Option Definition :=
  ds.find? fun d => d.name == name

/-- The lines of a source that belong to no definition. -/
def commandsIn (lines : List Text) : List Text :=
  match lines with
  | [] => []
  | line :: rest =>
    match Header.parse? line with
    | some ⟨some _, _⟩ =>
      let depth := Text.indent line
      commandsIn (rest.dropWhile fun l => depth < Text.indent l)
    | _ => line :: commandsIn rest
termination_by lines.length
decreasing_by
  · exact Nat.lt_succ_of_le (List.dropWhile_sublist _).length_le
  · exact Nat.lt_succ_self _

theorem commandsIn_subset (lines : List Text) : commandsIn lines ⊆ lines := by
  fun_induction commandsIn lines with
  | case1 => exact List.Subset.refl _
  | case2 line rest =>
      rename_i ih
      exact fun l hl => List.mem_cons_of_mem _ ((List.dropWhile_sublist _).subset (ih hl))
  | case3 line rest _ ih => exact List.cons_subset_cons line ih

/-! ## Reading compiled functions -/

/-- Reads a line of a compiled function, given the functions made for calls. -/
def Reading.ofCompiled (functions : List (Call × Scope)) (line : Text) : Reading :=
  match functions.find? fun f => (callLine [] f.1.reference).isSuffixOf line with
  | none => .command (.plain line)
  | some (c, s) =>
    let lead := line.take (line.length - (callLine [] c.reference).length)
    if Text.isSpace lead then .body lead s.lines
    else .command (.calling lead c.ns.name c.callee c.args)

/-- Lists the commands of lines that may call functions made for calls. -/
def unfolding (functions : List (Call × Scope)) : Nat → List Text → Listing :=
  list (Reading.ofCompiled functions)

end Packwright.Macro
