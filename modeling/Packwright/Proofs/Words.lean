import Packwright.Proofs.Macro.CallSite
import Packwright.Proofs.Plain

/-! # Substitution goes word by word

Reserved tokens are replaced in each word as if it stood alone, and the words that the compiler
writes itself hold none. So the calls that the macro stage and the block stage write stand as they
are behind the substitution stage, whatever is written around them, and the lines of a scope stay
its lines (`substitutions_wordwise`).
-/

namespace Packwright

open Text (ascii)

namespace Substitution

/-- A text without the bytes that reserved tokens are marked with stays as it is. -/
theorem apply_unmarked (s : Scope) {t : Text} (h : 36 ∉ t ∧ 35 ∉ t ∧ 64 ∉ t) :
    apply (s.withContent t) = t := by
  have hdollar : ∀ word : Text, 36 ∈ word → ¬ word <:+: t := by
    intro word hword hoccurs
    exact h.1 (hoccurs.subset hword)
  have hhash : ¬ ∃ value, value ≠ [] ∧ (∀ b ∈ value, isValueByte b = true) ∧
      ascii "#[" ++ value ++ ascii "]" <:+: t := by
    rintro ⟨value, -, -, hoccurs⟩
    exact h.2.1 (hoccurs.subset
      (List.mem_append_left _ (List.mem_append_left _ (by decide))))
  have hscores : ∀ t', t' <:+ Text.newline :: t → ¬ startsScore t' = true := by
    intro t' ht' hstarts
    obtain ⟨a, b, rest, rfl, -, -⟩ := startsScore_iff.mp hstarts
    have hmem : 64 ∈ Text.newline :: t := ht'.subset (by simp)
    exact h.2.2 ((List.mem_cons.mp hmem).resolve_left (by decide))
  rw [apply_eq_replaceScores (s.withContent t) (hdollar _ (by decide)) (hdollar _ (by decide))
    hhash]
  exact replaceScoresFrom_eq_self (fun houtside => absurd rfl houtside) hscores

theorem apply_functionWord (s : Scope) :
    apply (s.withContent Macro.functionWord) = Macro.functionWord :=
  apply_unmarked s (by decide)

theorem apply_reference (s : Scope) {ns : Namespace} (h : ns.Checked) (id : UInt32) :
    apply (s.withContent (ns.reference (Anonymous.name id))) =
      ns.reference (Anonymous.name id) := by
  apply apply_unmarked
  refine ⟨?_, ?_, ?_⟩
  · exact h.not_mem_reference (by decide) (by decide) (by decide)
  · exact h.not_mem_reference (by decide) (by decide) (by decide)
  · exact h.not_mem_reference (by decide) (by decide) (by decide)

/-! ## Around words -/

@[simp] theorem apply_nil (s : Scope) : apply (s.withContent []) = [] := rfl

theorem apply_append_of_ends (s : Scope) {a : Text}
    (h : ∀ b, a.getLast? = some b → isSeparator b = true) (b : Text) :
    apply (s.withContent (a ++ b)) = apply (s.withContent a) ++ apply (s.withContent b) := by
  rcases List.eq_nil_or_concat' a with rfl | ⟨a, c, rfl⟩
  · simp
  · have hc : isSeparator c = true := h c (by simp)
    have hlast := apply_append hc s a []
    rw [List.append_assoc, List.singleton_append, apply_append hc, hlast]
    simp

theorem apply_append_of_starts (s : Scope) (a : Text) {b : Text}
    (h : ∀ c, b.head? = some c → isSeparator c = true) :
    apply (s.withContent (a ++ b)) = apply (s.withContent a) ++ apply (s.withContent b) := by
  cases b with
  | nil => simp
  | cons c b =>
      have hc : isSeparator c = true := h c rfl
      have hfirst := apply_append hc s [] b
      rw [apply_append hc, ← List.nil_append (c :: b), hfirst]
      simp

section Calls

variable (s : Scope) {ns : Namespace} (hns : ns.Checked) (id : UInt32)

include hns

/-- A call stays as it is among other words. -/
theorem apply_call (before after : Text)
    (hbefore : ∀ b, before.getLast? = some b → isSeparator b = true)
    (hafter : ∀ b, after.head? = some b → isSeparator b = true) :
    apply (s.withContent (Macro.callLine before (ns.reference (Anonymous.name id)) ++ after)) =
      Macro.callLine (apply (s.withContent before)) (ns.reference (Anonymous.name id)) ++
        apply (s.withContent after) := by
  have hword : apply (s.withContent (Macro.functionWord ++ ascii " ")) =
      Macro.functionWord ++ ascii " " := apply_unmarked s (by decide)
  have hends : ∀ b, (Macro.functionWord ++ ascii " ").getLast? = some b →
      isSeparator b = true := by
    have hlast : (Macro.functionWord ++ ascii " ").getLast? = some Text.space := by decide
    intro b hb
    rw [hlast] at hb
    cases hb
    rfl
  rw [apply_append_of_starts s _ hafter, Macro.callLine, List.append_assoc, List.append_assoc,
    apply_append_of_ends s hbefore, ← List.append_assoc Macro.functionWord,
    apply_append_of_ends s hends, hword, apply_reference s hns]
  simp [Macro.callLine]

/-- The call that stands in place of a macro call stays as it is behind what stood before it. -/
theorem apply_callLine {line : Text} {site : Macro.CallSite}
    (hsite : Macro.CallSite.parse? line = some site) :
    apply (s.withContent (Macro.callLine site.lead (ns.reference (Anonymous.name id)))) =
      Macro.callLine (apply (s.withContent site.lead)) (ns.reference (Anonymous.name id)) := by
  have hends : ∀ b, site.lead.getLast? = some b → isSeparator b = true := by
    intro b hb
    simp [isSeparator, (Macro.Lead.of_parse? hsite).2.ends b hb]
  simpa using apply_call s hns id site.lead [] hends (by simp)

/-- The call of a block stays as it is behind the line above the block. -/
theorem apply_calling (g : Block.Group) :
    apply (s.withContent (g.calling (ns.reference (Anonymous.name id)))) =
      Block.Group.calling { g with head := g.head.map fun line => apply (s.withContent line) }
        (ns.reference (Anonymous.name id)) := by
  have hblank : ascii " " = [Text.space] := by decide
  have hspace : isSeparator Text.space = true := rfl
  obtain ⟨head, block⟩ := g
  cases head with
  | none =>
      have hcall := apply_call s hns id [] [] (by simp) (by simp)
      simpa [Block.Group.calling, Macro.callLine] using hcall
  | some line =>
      have hends : ∀ b, (line ++ ascii " ").getLast? = some b → isSeparator b = true := by
        simp [hblank, hspace]
      have hcall := apply_call s hns id (line ++ ascii " ") [] hends (by simp)
      have hline : apply (s.withContent (line ++ ascii " ")) =
          apply (s.withContent line) ++ ascii " " := by
        rw [hblank, apply_append hspace, apply_nil]
      rw [hline] at hcall
      simpa [Block.Group.calling, Macro.callLine] using hcall

end Calls

/-! ## Lines -/

theorem mem_replaceAll {old new t : Text} {b : UInt8} (h : b ∈ Text.replaceAll old new t) :
    b ∈ t ∨ b ∈ new := by
  rcases Text.mem_replaceMatches h with h | ⟨t', more, replacement, hfound, h⟩
  · exact .inl h
  · obtain ⟨-, hfound⟩ := Option.ite_none_right_eq_some.mp hfound
    obtain ⟨-, rfl⟩ := Prod.mk.inj (Option.some.inj hfound)
    exact .inr h

theorem mem_replaceScoresFrom {position : ScorePosition} {t : Text} {b : UInt8}
    (h : b ∈ replaceScoresFrom position t) : b ∈ t ∨ b = Text.space := by
  fun_induction replaceScoresFrom position t with
  | case1 => cases h
  | case2 position c rest _ ih | case4 position c rest _ _ ih =>
      rcases List.mem_cons.mp h with rfl | h
      · exact .inl List.mem_cons_self
      · exact (ih h).imp_left (List.mem_cons_of_mem _)
  | case3 position c rest _ _ ih =>
      rcases List.mem_cons.mp h with rfl | h
      · exact .inr rfl
      · exact (ih h).imp_left (List.mem_cons_of_mem _)

/-- Replacing reserved tokens in a line makes no end of a line. -/
theorem newline_not_mem_apply {s : Scope} (hns : s.ns.Checked) (hname : Text.newline ∉ s.name)
    {line : Text} (h : Text.newline ∉ line) : Text.newline ∉ apply (s.withContent line) := by
  have hspace : Text.newline ∉ s.ns.name := hns.not_mem (by decide)
  have hreference : Text.newline ∉ s.reference := by
    have hcolon : Text.newline ∉ ascii ":" := by decide
    simp [Scope.reference, Namespace.reference, hcolon, hspace, hname]
  intro hmem
  rcases mem_replaceScoresFrom hmem with hmem | hmem
  · rcases Text.mem_replaceMatches hmem with hmem | ⟨t, more, replacement, hfound, hmem⟩
    · rcases mem_replaceAll hmem with hmem | hmem
      · exact (mem_replaceAll hmem).elim h hreference
      · exact hspace hmem
    · exact (token_of_hashToken? hfound).newline hmem
  · exact absurd hmem (by decide)

/-- The lines of a scope are replaced one by one. -/
theorem splitOn_apply {s : Scope} (hns : s.ns.Checked) (hname : Text.newline ∉ s.name) :
    (apply s).splitOn Text.newline =
      (s.content.splitOn Text.newline).map fun line => apply (s.withContent line) := by
  have hcontent : Text.unlines (s.content.splitOn Text.newline) = s.content :=
    List.intercalate_splitOn Text.newline
  have happly : apply s = Text.unlines
      ((s.content.splitOn Text.newline).map fun line => apply (s.withContent line)) := by
    rw [← apply_unlines, hcontent]
    rfl
  rw [happly, Text.unlines, Text.join, List.splitOn_intercalate]
  · intro line hline
    obtain ⟨line, hmem, rfl⟩ := List.mem_map.mp hline
    exact newline_not_mem_apply hns hname (Text.of_mem_splitOn hmem).1
  · simp

/-- The substitution stage changes the content of each scope and nothing else. -/
theorem run_substitutions (settings : Settings) (sources : List Scope) :
    (Stage.substitutions.run settings sources).state.2.scopes =
      sources.map fun s => s.withContent (apply s) := by
  have hpass : ∀ m s, Stage.substitutions.accept m s = .pass m (s.withContent (apply s)) :=
    fun _ _ => rfl
  obtain ⟨hscopes, -⟩ := Stage.run_eq .substitutions settings sources
  obtain ⟨htransform, -⟩ := Stage.transform_pass hpass (fun _ => rfl)
    (Stage.substitutions.start settings) none (sources.map .scope)
  rw [hscopes, htransform]
  exact congrArg _ (Flow.scopes_ofScopes sources)

/-- The substitution stage replaces the reserved tokens in each scope. They are replaced separately
on both sides of a space, a tab or the end of a line, whatever the scope. The word `function` and
the references of generated functions stay as they are; so do calls among other words, and behind
what stood before a macro call or above a block. Where the name of a scope holds no end of a line,
its lines are replaced one by one. -/
theorem substitutions_wordwise :
    (∀ settings sources, (Stage.substitutions.run settings sources).state.2.scopes =
      sources.map fun s => s.withContent (apply s)) ∧
    ∀ s : Scope,
      (∀ a b : Text, ∀ c ∈ [Text.space, Text.tab, Text.newline],
        apply (s.withContent (a ++ c :: b)) =
          apply (s.withContent a) ++ c :: apply (s.withContent b)) ∧
      apply (s.withContent Macro.functionWord) = Macro.functionWord ∧
      (∀ ns : Namespace, ns.Checked → ∀ id,
        let reference := ns.reference (Anonymous.name id)
        apply (s.withContent reference) = reference ∧
        (∀ before after : Text, (∀ b, before.getLast? = some b → isSeparator b = true) →
          (∀ b, after.head? = some b → isSeparator b = true) →
          apply (s.withContent (Macro.callLine before reference ++ after)) =
            Macro.callLine (apply (s.withContent before)) reference ++
              apply (s.withContent after)) ∧
        (∀ line site, Macro.CallSite.parse? line = some site →
          apply (s.withContent (Macro.callLine site.lead reference)) =
            Macro.callLine (apply (s.withContent site.lead)) reference) ∧
        ∀ g : Block.Group, apply (s.withContent (g.calling reference)) =
          Block.Group.calling
            { g with head := g.head.map fun line => apply (s.withContent line) } reference) ∧
      (s.ns.Checked → Text.newline ∉ s.name → (apply s).splitOn Text.newline =
        (s.content.splitOn Text.newline).map fun line => apply (s.withContent line)) := by
  have hseparator : ∀ c ∈ [Text.space, Text.tab, Text.newline], isSeparator c = true :=
    List.all_eq_true.mp (by decide)
  refine ⟨run_substitutions, fun s => ⟨fun a b c hc => apply_append (hseparator c hc) s a b,
    apply_functionWord s, fun ns hns id => ⟨apply_reference s hns id, ?_, ?_, ?_⟩,
    splitOn_apply⟩⟩
  · exact apply_call s hns id
  · exact fun line site hsite => apply_callLine s hns id hsite
  · exact apply_calling s hns id

/-- A call behind a score, in a scope of two lines whose name is written into the second one. -/
theorem substitutions_wordwise_score :
    let ns : Namespace := ⟨{ path := ascii "packs", name := ascii "p" }, ascii "ns"⟩
    let s : Scope := ⟨ns, ascii "main", ascii "as a@b call hi\nsay $this"⟩
    let reference := ns.reference (Anonymous.name 0xFFFFFFFF)
    ns.Checked ∧ Text.newline ∉ s.name ∧
    Macro.CallSite.parse? (ascii "as a@b call hi") = some ⟨ascii "as a@b ", ascii " hi"⟩ ∧
    apply (s.withContent (Macro.callLine (ascii "as a@b ") reference)) =
      Macro.callLine (ascii "as a b ") reference ∧
    (apply s).splitOn Text.newline = [ascii "as a b call hi", ascii "say ns:main"] := by
  intro ns s reference
  have hns : ns.Checked := by
    unfold Namespace.Checked
    decide +kernel
  have hname : Text.newline ∉ s.name := by decide
  have hsite : Macro.CallSite.parse? (ascii "as a@b call hi") =
      some ⟨ascii "as a@b ", ascii " hi"⟩ := by decide +kernel
  obtain ⟨-, -, hcalls, hlines⟩ := substitutions_wordwise.2 s
  obtain ⟨-, -, hline, -⟩ := hcalls ns hns 0xFFFFFFFF
  refine ⟨hns, hname, hsite, (hline _ _ hsite).trans ?_, (hlines hns hname).trans ?_⟩
  · have hlead : apply (s.withContent (ascii "as a@b ")) = ascii "as a b " := by decide +kernel
    rw [hlead]
  · decide +kernel

end Substitution

end Packwright
