import Packwright.Proofs.Causality
import Packwright.Proofs.Layout
import Packwright.Proofs.Macro.CallSite
import Packwright.Proofs.Substitution

/-! # Plain sources pass through

Every stage has a syntax of its own: comments, definitions and calls, blocks, reserved tokens and
continuation lines. A source that holds none of it is plain. Each stage takes such a source apart
and puts it together again as it was, so the compiler hands on plain sources as they are
(`compile_plain`).
-/

namespace Packwright

open Text (ascii)

/-- A line of code that holds nothing of the syntax of any stage. -/
structure PlainLine (line : Text) : Prop extends IsCode line where
  margin : line.head? ≠ some Text.tab
  call : ¬ ∃ before after, line = before ++ Macro.callWord ++ after ∧ Text.EndsBlank before ∧
    Macro.endsWord after = true
  definition : ¬ ∃ rest, Text.fields line = Macro.generateWord :: Macro.functionWord :: rest
  continuation : ¬ ∃ lead rest, line = lead ++ Continuation.keyword ++ rest ∧
    (∀ b ∈ lead, Text.isBlank b = true) ∧ Macro.endsWord rest = true
  this : ¬ ascii "$this" <:+: line
  ns : ¬ ascii "$namespace" <:+: line
  hash : ¬ ∃ value, value ≠ [] ∧ (∀ b ∈ value, Substitution.isValueByte b = true) ∧
    ascii "#[" ++ value ++ ascii "]" <:+: line
  score : ¬ ∃ name board, name ≠ [] ∧ board ≠ [] ∧
    (∀ b ∈ name ++ board, Substitution.isScoreByte b = true) ∧ name ++ ascii "@" ++ board <:+: line

/-- A text of plain lines, or no text at all. An end of a line at the end of the text would leave an
empty line behind it, which is not plain. -/
def PlainText (content : Text) : Prop :=
  content = [] ∨ ∀ line ∈ content.splitOn Text.newline, PlainLine line

/-! ## Lines -/

theorem IsCode.isLine {line : Text} (h : IsCode line) : Text.IsLine line := by
  refine ⟨?_, h.newline, fun hlast => h.carriageReturn (List.mem_of_getLast? hlast)⟩
  rintro rfl
  exact h.ink rfl

/-- A plain text is read as plain lines, and is these lines put together. -/
theorem PlainText.lines {content : Text} (h : PlainText content) :
    Text.unlines (Text.lines content) = content ∧ ∀ line ∈ Text.lines content, PlainLine line := by
  rcases h with rfl | h
  · exact ⟨rfl, fun _ hline => absurd hline List.not_mem_nil⟩
  · have hjoin : Text.unlines (content.splitOn Text.newline) = content :=
      List.intercalate_splitOn Text.newline
    have hlines : Text.lines content = content.splitOn Text.newline := by
      have hall : ∀ line ∈ content.splitOn Text.newline, Text.IsLine line :=
        fun line hline => (h line hline).isLine
      have hread := Text.lines_unlines hall
      rwa [hjoin] at hread
    rw [hlines]
    exact ⟨hjoin, h⟩

/-! ## The stages -/

theorem Comment.strip_plain {content : Text} (h : PlainText content) :
    strip content = content := by
  obtain ⟨hjoin, hplain⟩ := h.lines
  have hkeep : (Text.lines content).filter (fun line => !isIdle line) = Text.lines content := by
    rw [List.filter_eq_self]
    intro line hline
    rw [Bool.not_eq_true', ← Bool.not_eq_true, isIdle_iff, not_or]
    exact ⟨(hplain line hline).ink, (hplain line hline).comment⟩
  rw [strip, hkeep, hjoin]

namespace Macro

theorem Table.expandLines_plain (t : Table) (s : Scope) {lines : List Text}
    (h : ∀ line ∈ lines, PlainLine line) : t.expandLines s lines = (t, .ok ⟨lines, false⟩) := by
  induction lines with
  | nil => rw [expandLines]
  | cons line rest ih =>
      rw [List.forall_mem_cons] at h
      have hheader : Header.parse? line = none := by
        rw [← Option.isNone_iff_eq_none, ← Option.not_isSome, Bool.not_eq_true',
          ← Bool.not_eq_true, Header.isSome_parse?_iff]
        exact h.1.definition
      have hcall : CallSite.parse? line = none := CallSite.parse?_eq_none_iff.mpr h.1.call
      rw [expandLines]
      simp only [hheader, hcall, ih h.2]
      rfl

/-- A macro table with nothing to tell hands on a plain scope and learns nothing. -/
theorem Table.accept_plain {t : Table} (hjournal : t.journal = []) {s : Scope}
    (h : PlainText s.content) : t.accept s = .pass t s := by
  obtain ⟨hjoin, hplain⟩ := h.lines
  have hprocess : t.process ⟨s, 0⟩ = (t, .ok (some s)) := by
    have hlines : t.expandLines s s.lines = (t, .ok ⟨s.lines, false⟩) :=
      t.expandLines_plain s hplain
    have hcontent : s.withContent (Text.unlines s.lines) = s := by
      rw [Scope.lines, hjoin]
      rfl
    simp only [process, hlines, hcontent]
    rfl
  have ht : { t with journal := [] } = t := by rw [← hjournal]
  simp only [accept, hprocess, reaction, hjournal, ht]
  rfl

end Macro

namespace Block

theorem lowerGroups_plain (ns : Namespace) (parent : Text) (l : Lowering) {lines : List Text}
    (h : ∀ line ∈ lines, PlainLine line) :
    lowerGroups ns parent l (groups lines) = (l, .ok lines) := by
  have hgroups : groups lines = lines.map fun line => ⟨some line, []⟩ := by
    induction lines with
    | nil => rfl
    | cons line rest ih =>
        rw [List.forall_mem_cons] at h
        have hindent : isIndented line = false := by
          simpa [isIndented] using h.1.margin
        rw [groups, hindent, ih h.2]
        cases rest <;> rfl
  rw [hgroups]
  clear hgroups h
  induction lines with
  | nil => rw [List.map_nil, lowerGroups]
  | cons line rest ih =>
      rw [List.map_cons, lowerGroups, ih]
      rfl

/-- A plain scope has no blocks. -/
theorem accept_plain (m : Memory) {s : Scope} (h : PlainText s.content) :
    accept m s = .pass m s := by
  obtain ⟨hjoin, hplain⟩ := h.lines
  have hlower : lower m s = (⟨m, [], []⟩, .ok s) := by
    have hlines : lowerGroups s.ns s.reference ⟨m, [], []⟩ (groups s.lines) =
        (⟨m, [], []⟩, .ok s.lines) := lowerGroups_plain s.ns s.reference ⟨m, [], []⟩ hplain
    have hcontent : s.withContent (Text.unlines s.lines) = s := by
      rw [Scope.lines, hjoin]
      rfl
    rw [lower, hlines]
    exact congrArg (fun z => ((⟨m, [], []⟩ : Lowering), Except.ok z)) hcontent
  rw [accept, hlower]
  rfl

end Block

/-- Where nothing matches, nothing is replaced. -/
theorem Text.replaceMatches_eq_self {match? : Text → Option (Nat × Text)} {t : Text}
    (h : ∀ t', t' <:+ t → match? t' = none) : replaceMatches match? 0 t = t := by
  induction t with
  | nil => rfl
  | cons b rest ih =>
      rw [replaceMatches, h _ List.suffix_rfl]
      exact congrArg (b :: ·) (ih fun t' ht' => h t' (ht'.trans (List.suffix_cons b rest)))

theorem Text.replaceAll_eq_self {old t : Text} (h : ¬ old <:+: t) (new : Text) :
    replaceAll old new t = t := by
  refine replaceMatches_eq_self fun t' ht' => if_neg fun hstart => h ?_
  exact (List.isPrefixOf_iff_prefix.mp hstart).isInfix.trans ht'.isInfix

namespace Substitution

theorem isSome_hashToken?_iff {t : Text} :
    (hashToken? t).isSome = true ↔ ∃ value, value ≠ [] ∧ (∀ b ∈ value, isValueByte b = true) ∧
      ascii "#[" ++ value ++ ascii "]" <+: t := by
  have htoken : ∀ value after,
      ascii "#[" ++ value ++ ascii "]" ++ after = 35 :: 91 :: (value ++ 93 :: after) := by
    have hopen : ascii "#[" = [35, 91] := by decide
    have hclose : ascii "]" = [93] := by decide
    simp [hopen, hclose]
  constructor
  · intro hsome
    unfold hashToken? at hsome
    split at hsome
    next rest =>
      let value := rest.takeWhile isValueByte
      have hclosed := Option.isSome_ite.mp hsome
      simp only [Bool.and_eq_true, Bool.not_eq_true', List.isEmpty_eq_false_iff, beq_iff_eq]
        at hclosed
      refine ⟨value, hclosed.1, fun b hb => List.mem_takeWhile_imp hb, ?_⟩
      obtain ⟨after, hafter⟩ := List.head?_eq_some_iff.mp hclosed.2
      refine ⟨after, ?_⟩
      rw [htoken, ← hafter]
      exact congrArg (35 :: 91 :: ·)
        (List.prefix_iff_eq_append.mp (List.takeWhile_prefix isValueByte))
    next => cases hsome
  · rintro ⟨value, hne, hvalue, after, rfl⟩
    have htake : (value ++ 93 :: after).takeWhile isValueByte = value := by
      rw [takeWhile_value_append (by decide), List.takeWhile_eq_self_iff.mpr hvalue]
    rw [htoken, hashToken?, htake, List.drop_left]
    simp [hne]

theorem exists_hash_iff {line : Text} :
    (∃ value, value ≠ [] ∧ (∀ b ∈ value, isValueByte b = true) ∧
      ascii "#[" ++ value ++ ascii "]" <:+: line) ↔
      ∃ t ∈ line.tails, (hashToken? t).isSome = true := by
  simp only [isSome_hashToken?_iff, List.mem_tails, List.infix_iff_prefix_suffix]
  constructor
  · rintro ⟨value, hne, hvalue, t, hstart, ht⟩
    exact ⟨t, ht, value, hne, hvalue, hstart⟩
  · rintro ⟨t, ht, value, hne, hvalue, hstart⟩
    exact ⟨value, hne, hvalue, t, hstart, ht⟩

/-- Whether a text starts with the last byte of a name, the sign behind it and the first byte of a
board. -/
def startsScore : Text → Bool
  | a :: 64 :: b :: _ => isScoreByte a && isScoreByte b
  | _ => false

theorem startsScore_iff {t : Text} :
    startsScore t = true ↔ ∃ a b rest, t = a :: 64 :: b :: rest ∧ isScoreByte a = true ∧
      isScoreByte b = true := by
  constructor
  · intro h
    unfold startsScore at h
    split at h
    next a b rest => exact ⟨a, b, rest, rfl, Bool.and_eq_true_iff.mp h⟩
    next => cases h
  · rintro ⟨a, b, rest, rfl, ha, hb⟩
    simp [startsScore, ha, hb]

theorem exists_score_iff {line : Text} :
    (∃ name board, name ≠ [] ∧ board ≠ [] ∧ (∀ b ∈ name ++ board, isScoreByte b = true) ∧
      name ++ ascii "@" ++ board <:+: line) ↔ ∃ t ∈ line.tails, startsScore t = true := by
  simp only [startsScore_iff, List.mem_tails]
  constructor
  · rintro ⟨name, board, hname, hboard, hbytes, before, after, rfl⟩
    obtain ⟨b, board, rfl⟩ := List.exists_cons_of_ne_nil hboard
    rw [← List.dropLast_append_getLast hname] at hbytes ⊢
    refine ⟨name.getLast hname :: 64 :: b :: (board ++ after), ⟨before ++ name.dropLast, ?_⟩,
      _, _, _, rfl, hbytes _ (by simp), hbytes _ (by simp)⟩
    have hsign : ascii "@" = [64] := by decide
    simp [hsign]
  · rintro ⟨_, hline, a, b, rest, rfl, ha, hb⟩
    refine ⟨[a], [b], by simp, by simp, by simp [ha, hb], ?_⟩
    exact List.IsInfix.trans ⟨[], rest, rfl⟩ hline.isInfix

/-- Scores are replaced only where a score byte stands before the sign and one behind it. -/
theorem replaceScoresFrom_eq_self {position : ScorePosition} {before : UInt8} {t : Text}
    (hbefore : position ≠ .outside → isScoreByte before = true)
    (h : ∀ t', t' <:+ before :: t → ¬ startsScore t' = true) :
    replaceScoresFrom position t = t := by
  induction t generalizing position before with
  | nil => rfl
  | cons b rest ih =>
      have hrest : ∀ t', t' <:+ b :: rest → ¬ startsScore t' = true :=
        fun t' ht' => h t' (ht'.trans (List.suffix_cons before _))
      rw [replaceScoresFrom]
      split
      next hb => rw [ih (fun _ => hb) hrest]
      next hb =>
        split
        next hat =>
          simp only [Bool.and_eq_true, beq_iff_eq] at hat
          obtain ⟨⟨rfl, rfl⟩, hnext⟩ := hat
          cases rest with
          | nil => cases hnext
          | cons c rest =>
              have hstarts : startsScore (before :: 64 :: c :: rest) = true :=
                startsScore_iff.mpr ⟨before, c, rest, rfl, hbefore (by decide), hnext⟩
              exact absurd hstarts (h _ List.suffix_rfl)
        next => rw [ih (fun houtside => absurd rfl houtside) hrest]

/-- Where no other token is found, only scores are replaced. -/
theorem apply_eq_replaceScores (s : Scope) (hthis : ¬ ascii "$this" <:+: s.content)
    (hns : ¬ ascii "$namespace" <:+: s.content)
    (hhash : ¬ ∃ value, value ≠ [] ∧ (∀ b ∈ value, isValueByte b = true) ∧
      ascii "#[" ++ value ++ ascii "]" <:+: s.content) :
    apply s = replaceScores s.content := by
  have hhashes : replaceHashes s.content = s.content := by
    refine Text.replaceMatches_eq_self fun t ht => ?_
    by_contra hsome
    exact hhash (exists_hash_iff.mpr
      ⟨t, (List.mem_tails _ _).mpr ht, Option.isSome_iff_ne_none.mpr hsome⟩)
  rw [apply, Text.replaceAll_eq_self hthis, Text.replaceAll_eq_self hns, hhashes]

theorem apply_plain_line (s : Scope) {line : Text} (h : PlainLine line) :
    apply (s.withContent line) = line := by
  have hscores : ∀ t, t <:+ Text.newline :: line → ¬ startsScore t = true := by
    intro t ht hstarts
    rcases List.suffix_cons_iff.mp ht with rfl | ht
    · -- no name ends with the end of a line
      obtain ⟨a, b, rest, heq, ha, -⟩ := startsScore_iff.mp hstarts
      obtain rfl := (List.cons.inj heq).1
      cases ha
    · exact h.score (exists_score_iff.mpr ⟨t, (List.mem_tails _ _).mpr ht, hstarts⟩)
  rw [apply_eq_replaceScores (s.withContent line) h.this h.ns h.hash]
  exact replaceScoresFrom_eq_self (fun houtside => absurd rfl houtside) hscores

theorem apply_plain {s : Scope} (h : PlainText s.content) : apply s = s.content := by
  obtain ⟨hjoin, hplain⟩ := h.lines
  have hlines := apply_unlines s (Text.lines s.content)
  have hkeep : ((Text.lines s.content).map fun line => apply (s.withContent line)) =
      (Text.lines s.content).map id :=
    List.map_congr_left fun line hline => apply_plain_line s (hplain line hline)
  rw [hkeep, List.map_id, hjoin] at hlines
  exact hlines

end Substitution

namespace Continuation

theorem continues_iff {line : Text} :
    continues line = true ↔ ∃ lead rest, line = lead ++ keyword ++ rest ∧
      (∀ b ∈ lead, Text.isBlank b = true) ∧ Macro.endsWord rest = true := by
  rw [continues, beq_iff_eq, Text.firstWord]
  constructor
  · intro hfirst
    let word := line.dropWhile Text.isBlank
    refine ⟨line.takeWhile Text.isBlank, word.dropWhile fun b => !Text.isBlank b, ?_,
      fun b hb => List.mem_takeWhile_imp hb, ?_⟩
    · rw [← hfirst, List.append_assoc, List.takeWhile_append_dropWhile,
        List.takeWhile_append_dropWhile]
    · have hend := List.head?_dropWhile_not (fun b => !Text.isBlank b) word
      cases hrest : word.dropWhile fun b => !Text.isBlank b with
      | nil => rfl
      | cons b rest =>
          rw [hrest] at hend
          simpa [Macro.endsWord] using hend
  · rintro ⟨lead, rest, rfl, hlead, hend⟩
    have hword : (keyword ++ rest).dropWhile Text.isBlank = keyword ++ rest := rfl
    have hletters : ∀ b ∈ keyword, (!Text.isBlank b) = true := List.all_eq_true.mp (by decide)
    have hrest : rest.takeWhile (fun b => !Text.isBlank b) = [] := by
      cases rest with
      | nil => rfl
      | cons b rest => simpa [Macro.endsWord] using hend
    rw [List.append_assoc, List.dropWhile_append_of_pos hlead, hword,
      List.takeWhile_append_of_pos hletters, hrest, List.append_nil]

theorem join_plain {content : Text} (h : PlainText content) : join content = content := by
  obtain ⟨hjoin, hplain⟩ := h.lines
  have habsorb : ∀ (rest : List Text) (current : Text), (∀ line ∈ rest, PlainLine line) →
      absorb current rest = current :: rest := by
    intro rest
    induction rest with
    | nil => exact fun _ _ => rfl
    | cons line rest ih =>
        intro current hrest
        rw [List.forall_mem_cons] at hrest
        rw [absorb, if_neg (mt continues_iff.mp hrest.1.continuation), ih line hrest.2]
  have hlines : joinLines (Text.lines content) = Text.lines content := by
    cases hcontent : Text.lines content with
    | nil => rfl
    | cons first rest =>
        rw [hcontent, List.forall_mem_cons] at hplain
        exact habsorb rest first hplain.2
  rw [join, hlines, hjoin]

end Continuation

/-! ## Deciding

The syntax of each stage is what the stage itself looks for. -/

theorem plain_iff {line : Text} :
    PlainLine line ↔ Text.newline ∉ line ∧ Text.carriageReturn ∉ line ∧
      ¬ Comment.isIdle line = true ∧ line.head? ≠ some Text.tab ∧
      Macro.CallSite.parse? line = none ∧ ¬ (Macro.Header.parse? line).isSome = true ∧
      ¬ Continuation.continues line = true ∧ ¬ ascii "$this" <:+: line ∧
      ¬ ascii "$namespace" <:+: line ∧
      (¬ ∃ t ∈ line.tails, (Substitution.hashToken? t).isSome = true) ∧
      ¬ ∃ t ∈ line.tails, Substitution.startsScore t = true := by
  rw [Comment.isIdle_iff, not_or, Macro.CallSite.parse?_eq_none_iff, Macro.Header.isSome_parse?_iff,
    Continuation.continues_iff, ← Substitution.exists_hash_iff, ← Substitution.exists_score_iff]
  constructor
  · rintro ⟨⟨hnewline, hreturn, hink, hcomment⟩, hmargin, hcall, hdef, hback, hthis, hns, hhash,
      hscore⟩
    exact ⟨hnewline, hreturn, ⟨hink, hcomment⟩, hmargin, hcall, hdef, hback, hthis, hns, hhash,
      hscore⟩
  · rintro ⟨hnewline, hreturn, ⟨hink, hcomment⟩, hmargin, hcall, hdef, hback, hthis, hns, hhash,
      hscore⟩
    exact ⟨⟨hnewline, hreturn, hink, hcomment⟩, hmargin, hcall, hdef, hback, hthis, hns, hhash,
      hscore⟩

instance : DecidablePred PlainLine := fun _ => decidable_of_iff _ plain_iff.symm

instance : DecidablePred PlainText := fun content =>
  inferInstanceAs
    (Decidable (content = [] ∨ ∀ line ∈ content.splitOn Text.newline, PlainLine line))

/-! ## Runs -/

namespace Stage

/-- A stage that answers each scope with itself and has no work of its own hands on what it gets. -/
theorem transform_of_accept_pass {stage : Stage} {m : stage.Memory} {ss : List Scope}
    (haccept : ∀ s ∈ ss, stage.accept m s = .pass m s) (hadvance : stage.advance? m = none) :
    stage.transform m none (ss.map .scope) = (m, Flow.ofScopes ss) := by
  induction ss with
  | nil => exact drain_of_none hadvance
  | cons s rest ih =>
      rw [List.forall_mem_cons] at haccept
      have hfault : (stage.accept m s).fault = none := by rw [haccept.1]; rfl
      rw [List.map_cons, transform_scope_of_none hfault, haccept.1]
      have hrest : stage.transform (Reaction.pass m s).memory none (rest.map .scope) =
          (m, Flow.ofScopes rest) := ih haccept.2
      rw [hrest]
      rfl

theorem accept_start_of_plain (stage : Stage) (settings : Settings) {s : Scope}
    (h : PlainText s.content) :
    stage.accept (stage.start settings) s = .pass (stage.start settings) s := by
  have hkeep : ∀ content, content = s.content → s.withContent content = s := by
    rintro _ rfl
    rfl
  cases stage with
  | comments => exact congrArg (Reaction.pass ()) (hkeep _ (Comment.strip_plain h))
  | macros => exact Macro.Table.accept_plain rfl h
  | blocks => exact Block.accept_plain _ h
  | substitutions => exact congrArg (Reaction.pass ()) (hkeep _ (Substitution.apply_plain h))
  | back => exact congrArg (Reaction.pass ()) (hkeep _ (Continuation.join_plain h))

theorem advance?_start (stage : Stage) (settings : Settings) :
    stage.advance? (stage.start settings) = none := by
  cases stage <;> rfl

end Stage

/-- Stages in any order hand on plain scopes as they are, and have nothing to add. -/
theorem Pipeline.flow_plain (settings : Settings) (stages : List Stage) {ss : List Scope}
    (h : ∀ s ∈ ss, PlainText s.content) :
    flow stages (start settings stages) (Flow.ofScopes ss) =
      (start settings stages, Flow.ofScopes ss) := by
  induction stages with
  | nil => rfl
  | cons stage rest ih =>
      have hstage : stage.transform (stage.start settings) none (ss.map .scope) =
          (stage.start settings, Flow.ofScopes ss) :=
        Stage.transform_of_accept_pass
          (fun s hs => stage.accept_start_of_plain settings (h s hs))
          (stage.advance?_start settings)
      simp only [flow, start, Flow.ofScopes] at hstage ih ⊢
      rw [hstage]
      simp only [ih]

theorem takeEach_collected_scopes {c : Collected} (hwanted : c.wanted = none) (ss : List Scope) :
    takeEach Collected.receive c (ss.map .scope) =
      ({ c with scopes := c.scopes ++ ss }, .more) := by
  induction ss generalizing c with
  | nil => rw [List.append_nil]; rfl
  | cons s rest ih =>
      have hreceive : Collected.receive c (.scope s) =
          ({ c with scopes := c.scopes ++ [s] }, .more) := by
        rw [Collected.receive, hwanted]
        rfl
      rw [List.map_cons, takeEach, hreceive]
      exact (ih (c := { c with scopes := c.scopes ++ [s] }) hwanted).trans
        (by rw [List.append_assoc, List.singleton_append])

namespace Compiler

/-- Plain sources are compiled to themselves, without a fault and without a note. -/
theorem compile_plain (settings : Settings) (ss : List Scope)
    (h : ∀ s ∈ ss, PlainText s.content) :
    (compile settings none (ss.map .ok)).state = { scopes := ss } ∧
      (compile settings none (ss.map .ok)).verdict = .more := by
  have hflow : flow settings (ss.map .ok) = Flow.ofScopes ss := by
    rw [flow, Flow.ofSource_map_ok, Pipeline.flow_plain settings Stage.standard h]
  have hfeed := compile_eq_feed settings none (ss.map .ok)
  have htake := takeEach_collected_scopes (c := {}) rfl ss
  rw [hflow, Flow.feed] at hfeed
  simp only [Flow.ofScopes, htake, Prod.mk.injEq] at hfeed
  exact hfeed

/-- Lines that come close to each syntax, an empty source, and bytes that are no text. -/
theorem compile_plain_near_misses :
    let ns : Namespace := ⟨{ path := ascii "packs/p", name := ascii "p" }, ascii "ns"⟩
    let misses : Scope := ⟨ns, ascii "misses", ascii
      " \tcaller recall\ngenerate functions\nbackup\nsay back # $th$is @a x@ #[] #[A] #[b c]"⟩
    let bytes : Scope := ⟨ns, ascii "bytes", [255, 32, 194, 10, 194, 133, 12, 128, 32]⟩
    let ss := [misses, ⟨ns, ascii "empty", []⟩, bytes]
    (∀ s ∈ ss, PlainText s.content) ∧
      (compile {} none (ss.map .ok)).state = { scopes := ss } ∧
      (compile {} none (ss.map .ok)).verdict = .more := by
  intro ns misses bytes ss
  have hplain : ∀ s ∈ ss, PlainText s.content := by decide +kernel
  exact ⟨hplain, compile_plain {} ss hplain⟩

end Compiler

end Packwright
