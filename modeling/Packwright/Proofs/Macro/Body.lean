import Packwright.Proofs.Line
import Packwright.Proofs.Macro.CallSite
import Packwright.Proofs.Macro.Move

/-! # Lines of bodies

The body of a macro is cut out of a source and gets arguments that were cut out of a line. Lines
that show something and hold no control bytes stay so on the way (`Inked`), and the calls in a table
are made of words (`Word`), so bodies can be put together to a text whose lines are theirs again.
-/

namespace Packwright.Macro

open Text (IsField IsLine)

/-- NUL and the bytes that end a line. -/
def isControl (b : UInt8) : Bool := b == 0 || b == Text.newline || b == Text.carriageReturn

/-- A line that holds more than tabs, and no control bytes. -/
structure Inked (line : Text) : Prop where
  ink : ∃ b ∈ line, b ≠ Text.tab
  clean : ∀ b ∈ line, isControl b = false

theorem Inked.isLine {line : Text} (h : Inked line) : IsLine line := by
  refine ⟨?_, fun hmem => (nomatch h.clean _ hmem), fun hlast => ?_⟩
  · rintro rfl
    obtain ⟨b, hb, -⟩ := h.ink
    cases hb
  · exact nomatch h.clean _ (List.mem_of_getLast? hlast)

/-- A field without control bytes. -/
structure Word (w : Text) : Prop where
  field : IsField w
  clean : ∀ b ∈ w, isControl b = false

theorem Word.nul_not_mem {w : Text} (h : Word w) : 0 ∉ w := fun hmem => nomatch h.clean 0 hmem

theorem Word.ink {w : Text} (h : Word w) : ∃ b ∈ w, b ≠ Text.tab := by
  obtain ⟨b, rest, rfl⟩ := List.exists_cons_of_ne_nil h.field.ne_nil
  refine ⟨b, List.mem_cons_self, ?_⟩
  rintro rfl
  exact nomatch h.field.blank Text.tab List.mem_cons_self

/-- The fields of a call in a line are words. -/
theorem Inked.words {line : Text} {site : CallSite} (h : Inked line)
    (hsite : CallSite.parse? line = some site) : ∀ w ∈ Text.fields site.payload, Word w := by
  have hpayload : site.payload ⊆ line := by
    rw [(Lead.of_parse? hsite).1]
    exact List.subset_append_right _ _
  intro w hw
  obtain ⟨hfield, hsub⟩ := Text.isField_of_mem_fields hw
  refine ⟨hfield, ?_⟩
  intro b hb
  exact h.clean b (hpayload (hsub hb))

/-! ## Passing arguments -/

/-- The parameter that is found is one of those that the text starts with. -/
theorem matchParam_mem_filter {α : Type} {text : Text} {pairs : List (Text × α)}
    {pair : Text × α} (h : matchParam text pairs = some pair) :
    pair ∈ pairs.filter fun candidate => startsWithToken candidate.1 text := by
  have hfold : ∀ (candidates : List (Text × α)) (best : Option (Text × α)),
      (candidates.foldl longer best = some pair) → best = some pair ∨ pair ∈ candidates := by
    intro candidates
    induction candidates with
    | nil => exact fun best hbest => .inl hbest
    | cons c rest ih =>
        intro best hbest
        rcases ih (longer best c) hbest with hlonger | hrest
        · unfold longer at hlonger
          split at hlonger
          next => exact .inr (by simp [Option.some.inj hlonger])
          next =>
            split at hlonger
            next => exact .inr (by simp [Option.some.inj hlonger])
            next => exact .inl hlonger
        · exact .inr (List.mem_cons_of_mem _ hrest)
  rcases hfold _ none h with hnone | hmem
  · cases hnone
  · exact hmem

theorem matchParam_mem {α : Type} {text : Text} {pairs : List (Text × α)} {pair : Text × α}
    (h : matchParam text pairs = some pair) : pair ∈ pairs :=
  List.mem_of_mem_filter (matchParam_mem_filter h)

/-- A line with arguments passed to it is made of its own bytes and those of the arguments. -/
theorem mem_passFrom {pairs : List (Text × Text)} {afterWord : Bool} {pending : Nat} {t : Text}
    {b : UInt8} (h : b ∈ passFrom pairs afterWord pending t) :
    b ∈ t ∨ ∃ pair ∈ pairs, b ∈ pair.2 := by
  fun_induction passFrom pairs afterWord pending t with
  | case1 => cases h
  | case2 _ c rest n ih => exact (ih h).imp_left (List.mem_cons_of_mem _)
  | case3 afterWord c rest param arg hmatch ih =>
      rcases List.mem_append.mp h with harg | hrest
      · split at hmatch
        next => cases hmatch
        next => exact .inr ⟨_, matchParam_mem hmatch, harg⟩
      · exact (ih hrest).imp_left (List.mem_cons_of_mem _)
  | case4 afterWord c rest hmatch ih =>
      rcases List.mem_cons.mp h with rfl | hrest
      · exact .inl List.mem_cons_self
      · exact (ih hrest).imp_left (List.mem_cons_of_mem _)

/-- A line that holds a byte of some kind still does if all arguments do. -/
theorem exists_mem_passFrom {good : UInt8 → Prop} {pairs : List (Text × Text)}
    (hpairs : ∀ pair ∈ pairs, ∃ b ∈ pair.2, good b) (afterWord : Bool) {t : Text}
    (h : ∃ b ∈ t, good b) : ∃ b ∈ passFrom pairs afterWord 0 t, good b := by
  induction t generalizing afterWord with
  | nil => exact h
  | cons c rest ih =>
      rw [passFrom]
      split
      next param arg hmatch =>
        split at hmatch
        next => cases hmatch
        next =>
          obtain ⟨b, hb, hgood⟩ := hpairs _ (matchParam_mem hmatch)
          exact ⟨b, List.mem_append_left _ hb, hgood⟩
      next =>
        obtain ⟨b, hb, hgood⟩ := h
        rcases List.mem_cons.mp hb with rfl | hrest
        · exact ⟨b, List.mem_cons_self, hgood⟩
        · obtain ⟨b', hb', hgood'⟩ := ih (Text.isWord c) ⟨b, hrest, hgood⟩
          exact ⟨b', List.mem_cons_of_mem _ hb', hgood'⟩

theorem Inked.passArguments {line : Text} (h : Inked line) (params : List Text) {args : List Text}
    (hargs : ∀ a ∈ args, Word a) : Inked (passArguments params args line) := by
  have hpairs : ∀ pair ∈ params.zip args, Word pair.2 :=
    fun pair hpair => hargs _ (List.of_mem_zip hpair).2
  refine ⟨exists_mem_passFrom (fun pair hpair => (hpairs pair hpair).ink) false h.ink,
    fun b hb => ?_⟩
  rcases mem_passFrom hb with hb | ⟨pair, hpair, hb⟩
  · exact h.clean b hb
  · exact (hpairs pair hpair).clean b hb

theorem Definition.inked_expand {d : Definition} {args : List Text}
    (hbody : ∀ line ∈ d.body, Inked line) (hargs : ∀ a ∈ args, Word a) :
    ∀ line ∈ d.expand args, Inked line := by
  intro line hline
  obtain ⟨l, hl, rfl⟩ := List.mem_map.mp hline
  exact (hbody l hl).passArguments d.params hargs

/-! ## Reading definitions -/

/-- Taking away tabs at the front leaves what a line shows. -/
theorem Inked.drop {line : Text} (h : Inked line) {n : Nat} (hn : n ≤ Text.indent line) :
    Inked (line.drop n) := by
  obtain ⟨b, hb, hne⟩ := h.ink
  exact ⟨⟨b, Text.mem_drop_of_le_indent hn hb hne, hne⟩,
    fun b hb => h.clean b (List.drop_subset n line hb)⟩

/-- What holds of the lines that a definition is read off, and is kept when tabs are taken away,
holds of the lines of the body. -/
theorem Definition.forall_mem_read {good : Text → Prop}
    (hdrop : ∀ {line : Text} {n : Nat}, n ≤ Text.indent line → good line → good (line.drop n))
    {definedIn name : Text} {params : List Text} {depth : Nat} {raw : List Text}
    (h : ∀ line ∈ raw, good line) :
    ∀ line ∈ (Definition.read definedIn name params depth raw).body, good line := by
  have hbody : ∀ line ∈ raw.map fun line => line.drop (min (depth + 1) (Text.indent line)),
      good line := by
    intro line hline
    obtain ⟨l, hl, rfl⟩ := List.mem_map.mp hline
    exact hdrop (Nat.min_le_right _ _) (h l hl)
  unfold Definition.read
  dsimp only
  split
  next => exact fun line hline => hbody line (List.mem_of_mem_drop hline)
  next => exact hbody

/-! ## Tables -/

namespace Table

variable {t t' : Table} {s : Scope}

/-- A table whose bodies show something on every line, and whose calls are made of words. -/
structure Clean (t : Table) : Prop where
  definitions : ∀ d ∈ t.definitions, ∀ line ∈ d.body, Inked line
  calls : ∀ c ∈ t.calls, Word c.callee ∧ ∀ a ∈ c.args, Word a

theorem clean_define (h : Clean t) {d : Definition} (hd : ∀ line ∈ d.body, Inked line) :
    Clean (t.define d) := by
  obtain ⟨hdefinitions, hcalls, -⟩ := t.entries_define d
  refine ⟨fun d' hd' => ?_, fun c hc => ?_⟩
  · rcases hdefinitions d' hd' with hold | rfl
    · exact h.definitions d' hold
    · exact hd
  · obtain ⟨c', hc', hbare⟩ := hcalls c hc
    obtain ⟨hcallee, hargs, -⟩ := Call.fields_of_bare hbare
    rw [← hcallee, ← hargs]
    exact h.calls c' hc'

theorem clean_record {callee : Text} {args : List Text} {c : Call} (h : Clean t)
    (hcallee : Word callee) (hargs : ∀ a ∈ args, Word a)
    (hrecord : t.record s callee args = (t', .ok c)) : Clean t' := by
  obtain ⟨hdefinitions, hcalls, -⟩ := entries_record hrecord
  obtain ⟨-, -, hc, -⟩ := record_eq hrecord
  refine ⟨hdefinitions ▸ h.definitions, fun c' hc' => ?_⟩
  rcases hcalls c' hc' with hold | hbare
  · exact h.calls c' hold
  · obtain ⟨hcallee', hargs', -⟩ := Call.fields_of_bare hbare
    rw [hcallee', hargs', hc]
    exact ⟨hcallee, hargs⟩

/-- Resolving a call in a line that shows something keeps a table clean. -/
theorem clean_resolve {line : Text} {site : CallSite} {answer : Except Fault Expanded}
    (h : Clean t) (hline : Inked line) (hsite : CallSite.parse? line = some site)
    (hresolve : t.resolve s site = (t', answer)) : Clean t' := by
  cases resolves_of_resolve hresolve with
  | empty | known | inlined => exact h
  | recorded hfields _ hrecord =>
      have hwords := hline.words hsite
      rw [hfields, List.forall_mem_cons] at hwords
      exact clean_record h hwords.1 hwords.2 hrecord
  | exhausted _ hrecord =>
      obtain rfl : t' = t := record_error hrecord
      exact h

end Table

end Packwright.Macro
