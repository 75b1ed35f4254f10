import Packwright.Proofs.Block.Recovery
import Packwright.Proofs.Fault

/-! # Equal blocks share a function

Where blocks may share, a block that was extracted once can be lowered again by looking functions up
(`Reuses`), since the memory forgets none of them (`Memory.Retains`). So an equal block later on
adds nothing, however many blocks it holds. And as the function of a block is read back as its
lines, two blocks have one function only if they are equal (`run_shares_blocks`).
-/

namespace Packwright.Block

open Text (ascii)

/-! ## Looking blocks up -/

namespace Memory

variable {m m' m'' : Memory} {ns ns' : Namespace}

/-- The reference of the function that a memory knows for the lowered content of a block. -/
def share? (m : Memory) (ns : Namespace) (content : Text) : Option Text :=
  ((m.shared.getD []).lookup (ns.name, content)).map ns.reference

/-- Functions are known by the name of their namespace. -/
theorem share?_congr (h : ns.name = ns'.name) (m : Memory) : m.share? ns = m.share? ns' := by
  have hreference : ns.reference = ns'.reference := by
    funext name
    rw [Namespace.reference, Namespace.reference, h]
  funext content
  rw [share?, share?, h, hreference]

/-- A later memory knows the functions that an earlier one knows. -/
def Retains (m m' : Memory) : Prop :=
  ∀ (ns : Namespace) (content reference : Text),
    m.share? ns content = some reference → m'.share? ns content = some reference

theorem Retains.refl (m : Memory) : Retains m m := fun _ _ _ h => h

theorem Retains.trans (h : Retains m m') (h' : Retains m' m'') : Retains m m'' :=
  fun ns content reference hshare => h' ns content reference (h ns content reference hshare)

end Memory

namespace Lowering

variable {l l' : Lowering} {ns : Namespace} {parent name content reference reference' : Text}

/-- A block that is left is known from then on. -/
theorem share?_of_leave (hsharing : l.memory.shared ≠ none)
    (h : l.leave ns parent name content = (l', .ok reference)) :
    l'.memory.share? ns content = some reference ∧ l.memory.Retains l'.memory ∧
      l'.memory.shared ≠ none := by
  rcases leave_ok h with ⟨hnone, -⟩ | ⟨shared, hshared, hcases⟩
  · exact absurd hnone hsharing
  · rcases hcases with ⟨name, hlookup, hmemory, -, rfl⟩ | ⟨name, ids, hlookup, -, hmemory, -, rfl⟩
    · rw [hmemory]
      refine ⟨?_, .refl _, hsharing⟩
      rw [Memory.share?, hshared, Option.getD_some, hlookup]
      rfl
    · rw [hmemory]
      refine ⟨?_, fun ns' content' reference' hshare => ?_, nofun⟩
      · rw [Memory.share?, Option.getD_some, List.lookup_append, hlookup]
        simp
      · rw [Memory.share?, hshared, Option.getD_some] at hshare
        obtain ⟨name', hname', hreference⟩ := Option.map_eq_some_iff.mp hshare
        rw [Memory.share?, Option.getD_some, List.lookup_append, hname']
        exact congrArg some hreference

/-- A block that is known is left without a change. -/
theorem leave_of_share? (hshare : l.memory.share? ns content = some reference)
    (h : l.leave ns parent name content = (l', .ok reference')) :
    l'.memory = l.memory ∧ l'.made = l.made ∧ reference' = reference := by
  rcases leave_ok h with ⟨hnone, -⟩ | ⟨shared, hshared, hcases⟩
  · rw [Memory.share?, hnone] at hshare
    cases hshare
  · rw [Memory.share?, hshared, Option.getD_some] at hshare
    rcases hcases with ⟨name, hlookup, hmemory, hmade, rfl⟩ | ⟨name, ids, hlookup, -⟩
    · rw [hlookup] at hshare
      exact ⟨hmemory, hmade, Option.some.inj hshare⟩
    · rw [hlookup] at hshare
      cases hshare

/-- Where blocks may share, nothing happens when one is entered. -/
theorem eq_of_enter (hsharing : l.memory.shared ≠ none)
    (h : l.enter parent = (l', .ok name)) : l' = l := by
  rcases enter_ok h with ⟨hnone, -⟩ | ⟨-, heq⟩
  · exact absurd hnone hsharing
  · exact heq

end Lowering

/-- Groups are lowered by looking up the functions of all their blocks. -/
inductive Reuses (share? : Text → Option Text) : List Group → List Text → Prop where
  | nil : Reuses share? [] []
  | line {g : Group} {gs : List Group} {lines : List Text} (hblock : g.block = [])
      (hrest : Reuses share? gs lines) : Reuses share? (g :: gs) (g.head.toList ++ lines)
  | block {g : Group} {gs : List Group} {body lines : List Text} {reference : Text}
      (hblock : g.block ≠ []) (hbody : Reuses share? (groups (Text.lines g.text)) body)
      (hshare : share? (Text.unlines body) = some reference) (hrest : Reuses share? gs lines) :
      Reuses share? (g :: gs) (g.calling reference :: lines)

namespace Reuses

variable {share? share?' : Text → Option Text} {gs : List Group} {lines lines' : List Text}

theorem mono (h : Reuses share? gs lines)
    (hshare : ∀ content reference, share? content = some reference →
      share?' content = some reference) : Reuses share?' gs lines := by
  induction h with
  | nil => exact .nil
  | line hblock _ ih => exact .line hblock ih
  | block hblock _ hfound _ ihbody ihrest =>
      exact .block hblock ihbody (hshare _ _ hfound) ihrest

theorem unique (h : Reuses share? gs lines) (h' : Reuses share? gs lines') : lines = lines' := by
  induction h generalizing lines' with
  | nil => cases h'; rfl
  | line hblock _ ih =>
      cases h' with
      | line _ hrest => rw [ih hrest]
      | block hne => exact absurd hblock hne
  | block hblock _ hfound _ ihbody ihrest =>
      cases h' with
      | line hnil => exact absurd hnil hblock
      | block _ hbody hfound' hrest =>
          obtain rfl := ihbody hbody
          obtain rfl := Option.some.inj (hfound.symm.trans hfound')
          rw [ihrest hrest]

/-- Where all functions can be looked up, lowering changes nothing. -/
theorem unchanged {ns : Namespace} {parent : Text} {l l' : Lowering}
    (h : Reuses (l.memory.share? ns) gs lines) (hsharing : l.memory.shared ≠ none)
    (hlowers : Lowers ns parent l gs l' lines') :
    l'.memory = l.memory ∧ l'.made = l.made ∧ lines' = lines := by
  generalize hshare : l.memory.share? ns = share? at h
  induction h generalizing parent l l' lines' with
  | nil =>
      cases hlowers
      exact ⟨rfl, rfl, rfl⟩
  | line hblock _ ih =>
      cases hlowers with
      | line _ hrest =>
          obtain ⟨hmemory, hmade, hlines⟩ := ih hsharing hrest hshare
          exact ⟨hmemory, hmade, by rw [hlines]⟩
      | block hne => exact absurd hblock hne
  | block hblock _ hfound _ ihbody ihrest =>
      cases hlowers with
      | line hnil => exact absurd hnil hblock
      | block _ henter hbody hleave hrest =>
          obtain rfl := Lowering.eq_of_enter hsharing henter
          obtain ⟨hmemory₂, hmade₂, rfl⟩ := ihbody hsharing hbody hshare
          rw [← hshare, ← hmemory₂] at hfound
          obtain ⟨hmemory₃, hmade₃, rfl⟩ := Lowering.leave_of_share? hfound hleave
          have hmemory := hmemory₃.trans hmemory₂
          obtain ⟨hmemory', hmade', rfl⟩ :=
            ihrest (hmemory ▸ hsharing) hrest (by rw [hmemory, hshare])
          exact ⟨hmemory'.trans hmemory, hmade'.trans (hmade₃.trans hmade₂), rfl⟩

end Reuses

/-- What was lowered can be looked up from then on, and nothing is forgotten. -/
theorem Lowers.reuses {ns : Namespace} {parent : Text} {l l' : Lowering} {gs : List Group}
    {lines : List Text} (h : Lowers ns parent l gs l' lines) (hsharing : l.memory.shared ≠ none) :
    Reuses (l'.memory.share? ns) gs lines ∧ l.memory.Retains l'.memory ∧
      l'.memory.shared ≠ none := by
  induction h with
  | nil => exact ⟨.nil, .refl _, hsharing⟩
  | line hblock _ ih =>
      obtain ⟨hreuses, hretains, hsharing'⟩ := ih hsharing
      exact ⟨.line hblock hreuses, hretains, hsharing'⟩
  | block hblock henter _ hleave _ ihbody ihrest =>
      obtain rfl := Lowering.eq_of_enter hsharing henter
      obtain ⟨hbody, hretains₂, hsharing₂⟩ := ihbody hsharing
      obtain ⟨hshare, hretains₃, hsharing₃⟩ := Lowering.share?_of_leave hsharing₂ hleave
      obtain ⟨hrest, hretains, hsharing'⟩ := ihrest hsharing₃
      refine ⟨.block hblock ?_ (hretains _ _ _ hshare) hrest,
        hretains₂.trans (hretains₃.trans hretains), hsharing'⟩
      exact hbody.mono fun content reference hfound =>
        hretains _ _ _ (hretains₃ _ _ _ hfound)

/-! ## Blocks that were extracted -/

/-- A memory holds a block: the block and all blocks inside it can be looked up, and this is the
reference found. -/
def Memory.Holds (m : Memory) (ns : Namespace) (block : List Text) (reference : Text) : Prop :=
  ∃ body, Reuses (m.share? ns) (groups (Text.lines (Text.unlines block))) body ∧
    m.share? ns (Text.unlines body) = some reference

namespace Memory.Holds

variable {m m' : Memory} {ns ns' : Namespace} {block : List Text} {reference reference' : Text}

theorem mono (h : m.Holds ns block reference) (hretains : m.Retains m') :
    m'.Holds ns block reference := by
  obtain ⟨body, hbody, hshare⟩ := h
  exact ⟨body, hbody.mono (hretains ns), hretains _ _ _ hshare⟩

theorem congr (h : m.Holds ns block reference) (hname : ns.name = ns'.name) :
    m.Holds ns' block reference := by
  rw [Holds, ← Memory.share?_congr hname]
  exact h

theorem unique (h : m.Holds ns block reference) (h' : m.Holds ns block reference') :
    reference = reference' := by
  obtain ⟨body, hbody, hshare⟩ := h
  obtain ⟨body', hbody', hshare'⟩ := h'
  obtain rfl := hbody.unique hbody'
  exact Option.some.inj (hshare.symm.trans hshare')

/-- A reference that is found is one in the namespace of the block. -/
theorem exists_name (h : m.Holds ns block reference) : ∃ name, reference = ns.reference name := by
  obtain ⟨body, -, hshare⟩ := h
  obtain ⟨name, -, hname⟩ := Option.map_eq_some_iff.mp hshare
  exact ⟨name, hname.symm⟩

end Memory.Holds

/-- A block was extracted between two memories. It is held from then on, and had it been held
before, nothing would have changed. -/
structure Extraction.Fits (m m' : Memory) (x : Extraction) : Prop where
  since : m.Retains x.before.memory
  finish : x.after.memory.Retains m'
  held : x.after.memory.Holds x.ns x.block x.reference
  reused : ∀ reference, x.before.memory.Holds x.ns x.block reference →
    x.after.memory = x.before.memory ∧ x.after.made = x.before.made

theorem Extraction.Fits.widen {m m' m₀ m₁ : Memory} {x : Extraction} (h : x.Fits m m')
    (hsince : m₀.Retains m) (hfinish : m'.Retains m₁) : x.Fits m₀ m₁ :=
  ⟨hsince.trans h.since, h.finish.trans hfinish, h.held, h.reused⟩

/-- One block was extracted before another one was entered, or it is smaller. -/
def Extraction.Precedes (x y : Extraction) : Prop :=
  x.after.memory.Retains y.before.memory ∨
    (Text.unlines x.block).length < (Text.unlines y.block).length

section

variable {ns : Namespace} {parent name reference : Text} {l l₁ l₂ l₃ l' : Lowering} {g : Group}
  {gs : List Group} {body lines : List Text}

/-- A block that is entered, lowered and left fits between the memories before and after. -/
theorem fits_block (hsharing : l.memory.shared ≠ none)
    (hbody : Lowers ns (ns.reference name) l (groups (Text.lines g.text)) l₂ body)
    (hleave : l₂.leave ns parent name (Text.unlines body) = (l₃, .ok reference)) :
    Extraction.Fits l.memory l₃.memory ⟨ns, g.block, l, l₃, reference⟩ := by
  obtain ⟨hreuses, -, hsharing₂⟩ := hbody.reuses hsharing
  obtain ⟨hshare, hretains, -⟩ := Lowering.share?_of_leave hsharing₂ hleave
  refine ⟨.refl _, .refl _, ⟨body, hreuses.mono (hretains ns), hshare⟩, ?_⟩
  -- had the block been held before, its body would have been looked up, and so would its content
  rintro reference' ⟨body', hreuses', hshare'⟩
  obtain ⟨hmemory, hmade, rfl⟩ := hreuses'.unchanged hsharing hbody
  have hfound : l₂.memory.share? ns (Text.unlines body) = some reference' := by
    rw [hmemory]
    exact hshare'
  obtain ⟨hmemory', hmade', -⟩ := Lowering.leave_of_share? hfound hleave
  exact ⟨hmemory'.trans hmemory, hmade'.trans hmade⟩

theorem Lowers.fits (h : Lowers ns parent l gs l' lines) (hsharing : l.memory.shared ≠ none) :
    ∀ x ∈ extractions ns parent l gs, x.Fits l.memory l'.memory := by
  induction h with
  | nil =>
      rw [extractions_nil]
      exact fun _ hx => (nomatch hx)
  | line hblock _ ih =>
      rw [extractions_line hblock]
      exact ih hsharing
  | block hblock henter hbody hleave hrest ihbody ihrest =>
      rw [extractions_block hblock henter hbody hleave, List.forall_mem_append,
        List.forall_mem_cons]
      obtain rfl := Lowering.eq_of_enter hsharing henter
      obtain ⟨-, hretains₂, hsharing₂⟩ := hbody.reuses hsharing
      obtain ⟨-, hretains₃, hsharing₃⟩ := Lowering.share?_of_leave hsharing₂ hleave
      obtain ⟨-, hretains, -⟩ := hrest.reuses hsharing₃
      refine ⟨fun x hx => ?_, ?_, fun x hx => ?_⟩
      · exact (ihbody hsharing x hx).widen (.refl _) (hretains₃.trans hretains)
      · exact (fits_block hsharing hbody hleave).widen (.refl _) hretains
      · exact (ihrest hsharing₃ x hx).widen (hretains₂.trans hretains₃) (.refl _)

/-- What a block holds is smaller than the block. -/
theorem weight_inside (g : Group) :
    weight (groups (Text.lines g.text)) ≤ g.text.length + 1 :=
  (weight_groups_le _).trans (Text.extent_lines_le g.text)

/-- The blocks of groups are no larger than the groups. -/
theorem Lowers.length_block_le (h : Lowers ns parent l gs l' lines) :
    ∀ x ∈ extractions ns parent l gs, (Text.unlines x.block).length + 2 ≤ weight gs := by
  induction h with
  | nil =>
      rw [extractions_nil]
      exact fun _ hx => (nomatch hx)
  | line hblock _ ih =>
      rw [extractions_line hblock, weight_cons]
      exact fun x hx => (ih x hx).trans (Nat.le_add_left _ _)
  | @block parent name reference l l₁ l₂ l₃ l' g gs body lines hblock henter hbody hleave hrest
      ihbody ihrest =>
      have hinside := weight_inside g
      have hempty : ¬ g.block.isEmpty = true := fun hempty => hblock (List.isEmpty_iff.mp hempty)
      rw [extractions_block hblock henter hbody hleave, List.forall_mem_append,
        List.forall_mem_cons, weight_cons, if_neg hempty]
      refine ⟨fun x hx => ?_, Nat.le_add_right _ _, fun x hx => ?_⟩
      · have hle := ihbody x hx
        omega
      · have hle := ihrest x hx
        omega

/-- Blocks are extracted one after the other, but for those inside a block, which are smaller. -/
theorem Lowers.precedes (h : Lowers ns parent l gs l' lines) (hsharing : l.memory.shared ≠ none) :
    (extractions ns parent l gs).Pairwise Extraction.Precedes := by
  induction h with
  | nil =>
      rw [extractions_nil]
      exact .nil
  | line hblock _ ih =>
      rw [extractions_line hblock]
      exact ih hsharing
  | @block parent name reference l l₁ l₂ l₃ l' g gs body lines hblock henter hbody hleave hrest
      ihbody ihrest =>
      rw [extractions_block hblock henter hbody hleave, List.pairwise_append, List.pairwise_cons]
      obtain rfl := Lowering.eq_of_enter hsharing henter
      obtain ⟨-, -, hsharing₂⟩ := hbody.reuses hsharing
      obtain ⟨-, hretains₃, hsharing₃⟩ := Lowering.share?_of_leave hsharing₂ hleave
      have hbehind := hrest.fits hsharing₃
      refine ⟨ihbody hsharing, ⟨fun y hy => .inl (hbehind y hy).since, ihrest hsharing₃⟩, ?_⟩
      intro x hx
      rw [List.forall_mem_cons]
      -- a block inside was entered after its own block, but it is smaller
      refine ⟨.inr ?_, fun y hy => .inl ?_⟩
      · have hle := hbody.length_block_le x hx
        have hinside := weight_inside g
        change (Text.unlines x.block).length < g.text.length
        omega
      · have hfinish := (hbody.fits hsharing x hx).finish
        exact hfinish.trans (hretains₃.trans (hbehind y hy).since)

/-- The blocks extracted from groups of legible lines are the blocks in the lines. -/
theorem Lowers.blocks (h : Lowers ns parent l gs l' lines) (hfine : ∀ g ∈ gs, g.Fine) :
    (extractions ns parent l gs).map Extraction.site =
      (gs.flatMap fun g => if g.block = [] then [] else blocksIn g.block ++ [g.block]).map
        (ns, ·) := by
  induction h with
  | nil =>
      rw [extractions_nil]
      rfl
  | line hblock _ ih =>
      rw [List.forall_mem_cons] at hfine
      rw [extractions_line hblock, List.flatMap_cons, if_pos hblock]
      exact ih hfine.2
  | @block parent name reference l l₁ l₂ l₃ l' g gs body lines hblock henter hbody hleave hrest
      ihbody ihrest =>
      rw [List.forall_mem_cons] at hfine
      have hlines : Text.lines g.text = g.block :=
        Text.lines_unlines fun line hline => (hfine.1.block line hline).isLine
      rw [hlines] at ihbody
      have hinside := ihbody (groups_fine hfine.1.block).1
      rw [← blocksIn_eq_flatMap_groups] at hinside
      rw [extractions_block hblock henter hbody hleave, hlines, List.map_append, hinside,
        List.map_cons, ihrest hfine.2, List.flatMap_cons, if_neg hblock]
      simp only [Extraction.site, List.map_append, List.map_cons, List.append_assoc,
        List.cons_append, List.nil_append]

end

/-! ## Runs -/

section

variable {m m' : Memory} {s z : Scope} {l : Lowering} {sources rest : List Scope}
  {outs : List Output}

theorem extractionsOf_cons (h : lower m s = (l, .ok z)) (rest : List Scope) :
    extractionsOf m (s :: rest) =
      extractions s.ns s.reference ⟨m, [], []⟩ (groups s.lines) ++ extractionsOf l.memory rest := by
  rw [extractionsOf, h]

theorem Runs.fits (h : Runs m sources m' outs) (hsharing : m.shared ≠ none) :
    m.Retains m' ∧ ∀ x ∈ extractionsOf m sources, x.Fits m m' := by
  induction h with
  | nil m => exact ⟨.refl m, fun _ hx => (nomatch hx)⟩
  | cons hlower _ ih =>
      obtain ⟨lines, hlowers, -⟩ := lowers_of_lower hlower
      obtain ⟨-, hretains, hsharing'⟩ := hlowers.reuses hsharing
      obtain ⟨hretains', hrest⟩ := ih hsharing'
      rw [extractionsOf_cons hlower, List.forall_mem_append]
      refine ⟨hretains.trans hretains', fun x hx => ?_, fun x hx => ?_⟩
      · exact (hlowers.fits hsharing x hx).widen (.refl _) hretains'
      · exact (hrest x hx).widen hretains (.refl _)

theorem Runs.precedes (h : Runs m sources m' outs) (hsharing : m.shared ≠ none) :
    (extractionsOf m sources).Pairwise Extraction.Precedes := by
  induction h with
  | nil m => exact .nil
  | cons hlower hruns ih =>
      obtain ⟨lines, hlowers, -⟩ := lowers_of_lower hlower
      obtain ⟨-, -, hsharing'⟩ := hlowers.reuses hsharing
      rw [extractionsOf_cons hlower, List.pairwise_append]
      refine ⟨hlowers.precedes hsharing, ih hsharing', fun x hx y hy => .inl ?_⟩
      exact (hlowers.fits hsharing x hx).finish.trans ((hruns.fits hsharing').2 y hy).since

/-- The blocks extracted in a run over legible scopes are the blocks in their lines. -/
theorem Runs.blocks (h : Runs m sources m' outs)
    (hlines : ∀ s ∈ sources, ∀ line ∈ s.lines, Legible line) :
    (extractionsOf m sources).map Extraction.site =
      sources.flatMap fun s => (blocksIn s.lines).map (s.ns, ·) := by
  induction h with
  | nil m => rfl
  | cons hlower _ ih =>
      rw [List.forall_mem_cons] at hlines
      obtain ⟨lines, hlowers, -⟩ := lowers_of_lower hlower
      rw [extractionsOf_cons hlower, List.map_append, hlowers.blocks (groups_fine hlines.1).1,
        ← blocksIn_eq_flatMap_groups, ih hlines.2, List.flatMap_cons]

/-- The references found for blocks are those of functions that are read as the blocks. -/
theorem Runs.stands {generated : List Scope} (hgen : Distinct generated)
    (h : Runs m sources m' outs) (hknown : Known m generated)
    (hmade : outs.flatMap Output.made ⊆ generated)
    (hlines : ∀ s ∈ sources, ∀ line ∈ s.lines, Legible line) :
    ∀ x ∈ extractionsOf m sources, x.Stands generated := by
  induction h with
  | nil m => exact fun _ hx => (nomatch hx)
  | cons hlower _ ih =>
      rw [List.forall_mem_cons] at hlines
      rw [List.flatMap_cons, List.append_subset] at hmade
      obtain ⟨lines, hlowers, -⟩ := lowers_of_lower hlower
      obtain ⟨-, hknown', -, hstands⟩ := hlowers.lowered hgen hknown hmade.1
        (fun _ hz => (nomatch hz)) (groups_fine hlines.1).1
      rw [extractionsOf_cons hlower, List.forall_mem_append]
      exact ⟨hstands, ih hknown' hmade.2 hlines.2⟩

end

/-- A run of the block stage ends without a fault unless the ids are used up. -/
theorem verdict_of_not_exhausted {settings : Settings} {sources : List Scope}
    (h : ∀ scope, (Stage.blocks.run settings sources).verdict ≠ .fail (.blocksExhausted scope)) :
    (Stage.blocks.run settings sources).verdict = .more := by
  obtain ⟨-, hverdict, -⟩ := Stage.run_eq .blocks settings sources
  cases hfault : (Stage.transform .blocks (Stage.blocks.start settings) none
      (sources.map .scope)).2.fault with
  | none =>
      rw [hfault] at hverdict
      exact hverdict
  | some fault =>
      rcases fault_of_transform _ _ _ hfault with hnone | ⟨scope, rfl⟩
      · cases hnone
      · rw [hfault] at hverdict
        exact absurd hverdict (h scope)

theorem exists_indent_lt (ls : List Text) : ∃ n, ∀ l ∈ ls, Text.indent l < n := by
  induction ls with
  | nil => exact ⟨0, fun _ hl => (nomatch hl)⟩
  | cons line rest ih =>
      obtain ⟨n, hn⟩ := ih
      refine ⟨n + (Text.indent line + 1), List.forall_mem_cons.mpr ⟨?_, fun l hl => ?_⟩⟩
      · omega
      · have hlt := hn l hl
        omega

/-- Functions that stand for blocks are the same only for equal blocks. -/
theorem Extraction.Stands.block_eq {generated : List Scope} (hgen : Distinct generated)
    {x y : Extraction} (hx : x.Stands generated) (hy : y.Stands generated)
    (h : x.reference = y.reference) : x.block = y.block := by
  obtain ⟨f, hf, hfx, hread⟩ := hx
  obtain ⟨f', hf', hfy, hread'⟩ := hy
  obtain rfl := hgen.eq_of_reference hf hf' (hfy.trans (h.symm.trans hfx.symm))
  obtain ⟨n, hn⟩ := exists_indent_lt (x.block ++ y.block)
  rw [List.forall_mem_append] at hn
  rw [← hread n hn.1, hread' n hn.2]

theorem legible_of_mem_lines {s : Scope} {line : Text} (hline : line ∈ s.lines)
    (h : (∃ b ∈ line, b ≠ Text.tab) ∧ line.getLast? ≠ some Text.carriageReturn ∧
      Text.occursIn Anonymous.mark line = false) : Legible line := by
  obtain ⟨hink, hending, hmark⟩ := h
  refine ⟨hink, Text.newline_not_mem_lines hline, hending, fun hinfix => ?_⟩
  rw [Text.occursIn_iff.mpr hinfix] at hmark
  cases hmark

/-- Where blocks may share, a run of the block stage extracts the blocks in the lines of its
sources, at any depth. Two of them have the same reference if and only if they are equal blocks of
one namespace, and a block that is equal to one before it leaves the functions made, the ids and
the shared functions as they are. -/
theorem run_shares_blocks (settings : Settings) (hshare : settings.shareBlocks = true)
    (sources : List Scope) (hns : ∀ s ∈ sources, s.ns.Checked)
    (hids : ∀ scope, (Stage.blocks.run settings sources).verdict ≠ .fail (.blocksExhausted scope))
    (hlines : ∀ s ∈ sources, ∀ line ∈ s.lines, (∃ b ∈ line, b ≠ Text.tab) ∧
      line.getLast? ≠ some Text.carriageReturn ∧ Text.occursIn Anonymous.mark line = false) :
    let xs := extractionsOf (Stage.blocks.start settings) sources
    xs.map Extraction.site = sources.flatMap (fun s => (blocksIn s.lines).map (s.ns, ·)) ∧
    (∀ x ∈ xs, ∃ f ∈ (Stage.blocks.run settings sources).state.2.scopes,
      f.reference = x.reference) ∧
    (∀ x ∈ xs, ∀ y ∈ xs,
      x.reference = y.reference ↔ x.ns.name = y.ns.name ∧ x.block = y.block) ∧
    xs.Pairwise fun x y => x.ns.name = y.ns.name → x.block = y.block →
      y.after.made = y.before.made ∧ y.after.memory = y.before.memory := by
  intro xs
  obtain ⟨m, outs, hruns, hscopes⟩ := run_blocks (verdict_of_not_exhausted hids)
  have hlegible : ∀ s ∈ sources, ∀ line ∈ s.lines, Legible line := fun s hs line hline =>
    legible_of_mem_lines hline (hlines s hs line hline)
  have hgen := hruns.distinct hns
  have hsharing : Memory.shared (Stage.blocks.start settings) ≠ none := by
    simp [Stage.start, hshare]
  have hfits := (hruns.fits hsharing).2
  have hblocks := hruns.blocks hlegible
  have hstands := hruns.stands hgen (known_start settings _) (List.Subset.refl _) hlegible
  have hchecked : ∀ x ∈ xs, x.ns.Checked := by
    intro x hx
    have hmem := hblocks ▸ List.mem_map_of_mem (f := Extraction.site) hx
    obtain ⟨s, hs, hpair⟩ := List.mem_flatMap.mp hmem
    obtain ⟨block, -, heq⟩ := List.mem_map.mp hpair
    rw [← (Prod.mk.inj heq).1]
    exact hns s hs
  refine ⟨hblocks, fun x hx => ?_, fun x hx y hy => ⟨fun heq => ⟨?_, ?_⟩, ?_⟩, ?_⟩
  · obtain ⟨f, hf, hreference, -⟩ := hstands x hx
    obtain ⟨out, hout, hmade⟩ := List.mem_flatMap.mp hf
    rw [hscopes]
    exact ⟨f, List.mem_flatMap.mpr ⟨out, hout, List.mem_append_left _ hmade⟩, hreference⟩
  · obtain ⟨name, hname⟩ := (hfits x hx).held.exists_name
    obtain ⟨name', hname'⟩ := (hfits y hy).held.exists_name
    rw [hname, hname'] at heq
    exact ((Namespace.reference_inj (hchecked x hx) (hchecked y hy)).mp heq).1
  · exact (hstands x hx).block_eq hgen (hstands y hy) heq
  · -- at the end of the run both blocks are held, and a block is held under one reference
    rintro ⟨hname, hblock⟩
    have hheld := (hfits x hx).held.mono (hfits x hx).finish
    rw [hblock] at hheld
    exact (hheld.congr hname).unique ((hfits y hy).held.mono (hfits y hy).finish)
  · refine (hruns.precedes hsharing).imp_of_mem fun {x y} hx hy hprecedes hname hblock => ?_
    rcases hprecedes with hretains | hsmaller
    · have hheld := (hfits x hx).held.mono hretains
      rw [hblock] at hheld
      exact ((hfits y hy).reused _ (hheld.congr hname)).symm
    · rw [hblock] at hsmaller
      exact absurd hsmaller (Nat.lt_irrefl _)

/-- The inner block of the first scope and the one of the second scope are equal. -/
theorem run_shares_blocks_nested :
    let settings : Settings := { shareBlocks := true }
    let xs := extractionsOf (Stage.blocks.start settings) nested
    settings.shareBlocks = true ∧ (∀ s ∈ nested, s.ns.Checked) ∧
    (∀ scope, (Stage.blocks.run settings nested).verdict ≠ .fail (.blocksExhausted scope)) ∧
    (∀ s ∈ nested, ∀ line ∈ s.lines, (∃ b ∈ line, b ≠ Text.tab) ∧
      line.getLast? ≠ some Text.carriageReturn ∧ Text.occursIn Anonymous.mark line = false) ∧
    xs.map (fun x => (x.block, x.reference)) =
      [([ascii "say hi"], ascii "ns:_/00/00/00/00"),
        ([ascii "execute at @s run", ascii "\tsay hi"], ascii "ns:_/00/00/00/01"),
        ([ascii "say hi"], ascii "ns:_/00/00/00/00"),
        ([ascii "\tsay hi", ascii "say there"], ascii "ns:_/00/00/00/02")] ∧
    (∀ x ∈ xs, ∀ y ∈ xs,
      x.reference = y.reference ↔ x.ns.name = y.ns.name ∧ x.block = y.block) ∧
    xs.Pairwise fun x y => x.ns.name = y.ns.name → x.block = y.block →
      y.after.made = y.before.made ∧ y.after.memory = y.before.memory := by
  intro settings xs
  have hns : ∀ s ∈ nested, s.ns.Checked := by
    unfold Namespace.Checked
    decide +kernel
  have hmore : (Stage.blocks.run settings nested).verdict = .more := by decide +kernel
  have hids : ∀ scope, (Stage.blocks.run settings nested).verdict ≠
      .fail (.blocksExhausted scope) := by
    intro scope
    rw [hmore]
    exact Verdict.noConfusion
  have hlines : ∀ s ∈ nested, ∀ line ∈ s.lines, (∃ b ∈ line, b ≠ Text.tab) ∧
      line.getLast? ≠ some Text.carriageReturn ∧ Text.occursIn Anonymous.mark line = false := by
    decide +kernel
  obtain ⟨-, -, hshared, hrepeated⟩ := run_shares_blocks settings rfl nested hns hids hlines
  exact ⟨rfl, hns, hids, hlines, by decide +kernel, hshared, hrepeated⟩

end Packwright.Block
