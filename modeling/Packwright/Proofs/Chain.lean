import Packwright.Proofs.Plain

/-! # Chains of score names

Score names with single at signs between them make a chain. A board ends its token, so it is not the
name of a further one: of the signs in a chain the first, the third, the fifth and so on turn into
spaces, and the others stay. A chain is read from its first byte on whatever stands before it
(`replaceScores_append`), and nothing behind it counts (`replaceScoresFrom_eq_of_closed`), so each
chain is replaced as if it stood alone (`Chain.replaceScores_eq`). Every sign that is replaced
stands in a chain (`exists_chain_of_link`), and so nothing else is (`apply_rewrites_chains`).
-/

namespace Packwright.Substitution

open Text (ascii)

/-- The sign between a name and a board. -/
abbrev atSign : UInt8 := 64

/-- A name on a scoreboard. -/
structure ScoreName (w : Text) : Prop where
  ne_nil : w ≠ []
  byte : ∀ b ∈ w, isScoreByte b = true

/-- Whether no score name goes on at the end of a text, nor behind a sign at its end. -/
def ClosedBehind (before : Text) : Prop :=
  ¬ ∃ init b, isScoreByte b = true ∧ (before = init ++ [b] ∨ before = init ++ [b, atSign])

/-- Whether no score name goes on at the beginning of a text, nor behind a sign there. -/
def ClosedAhead (after : Text) : Prop :=
  ¬ ∃ b rest, isScoreByte b = true ∧ (after = b :: rest ∨ after = atSign :: b :: rest)

/-- A chain in a text: two or more score names with single signs between them, which cannot be
extended on either side. -/
structure Chain (t before : Text) (words : List Text) (after : Text) : Prop where
  eq : t = before ++ Text.join [atSign] words ++ after
  two : 2 ≤ words.length
  word : ∀ w ∈ words, ScoreName w
  closedBehind : ClosedBehind before
  closedAhead : ClosedAhead after

theorem closedAhead_iff {after : Text} :
    ClosedAhead after ↔ ¬ ((after.head?.map isScoreByte).getD false = true ∨
      after.head? = some atSign ∧ (after.tail.head?.map isScoreByte).getD false = true) := by
  refine not_congr ⟨?_, fun h => ?_⟩
  · rintro ⟨b, rest, hb, rfl | rfl⟩
    · exact .inl hb
    · exact .inr ⟨rfl, hb⟩
  · match after with
    | [] => simp at h
    | [b] =>
        have hb : isScoreByte b = true := by simpa using h
        exact ⟨b, [], hb, .inl rfl⟩
    | b :: c :: rest =>
        rcases h with hb | ⟨hsign, hc⟩
        · exact ⟨b, c :: rest, hb, .inl rfl⟩
        · exact ⟨c, rest, hc, .inr (by rw [Option.some.inj hsign])⟩

/-- No name goes on behind a text exactly if none goes on before it read backwards. -/
theorem closedBehind_iff {before : Text} : ClosedBehind before ↔ ClosedAhead before.reverse := by
  refine not_congr ⟨?_, ?_⟩
  · rintro ⟨init, b, hb, rfl | rfl⟩
    · exact ⟨b, init.reverse, hb, .inl (by simp)⟩
    · exact ⟨b, init.reverse, hb, .inr (by simp)⟩
  · rintro ⟨b, rest, hb, heq | heq⟩
    · exact ⟨rest.reverse, b, hb, .inl (by simpa using congrArg List.reverse heq)⟩
    · exact ⟨rest.reverse, b, hb, .inr (by simpa using congrArg List.reverse heq)⟩

instance : DecidablePred ScoreName := fun w =>
  decidable_of_iff (w ≠ [] ∧ w.all isScoreByte = true)
    ⟨fun h => ⟨h.1, List.all_eq_true.mp h.2⟩, fun h => ⟨h.ne_nil, List.all_eq_true.mpr h.byte⟩⟩

instance : DecidablePred ClosedAhead := fun _ => decidable_of_iff _ closedAhead_iff.symm

instance : DecidablePred ClosedBehind := fun _ => decidable_of_iff _ closedBehind_iff.symm

instance (t before : Text) (words : List Text) (after : Text) :
    Decidable (Chain t before words after) :=
  decidable_of_iff (t = before ++ Text.join [atSign] words ++ after ∧ 2 ≤ words.length ∧
      (∀ w ∈ words, ScoreName w) ∧ ClosedBehind before ∧ ClosedAhead after)
    ⟨fun ⟨heq, htwo, hword, hbehind, hahead⟩ => ⟨heq, htwo, hword, hbehind, hahead⟩,
      fun h => ⟨h.eq, h.two, h.word, h.closedBehind, h.closedAhead⟩⟩

/-! ## Inside a chain -/

/-- Words with separators between them that take turns. -/
def interleave (this that : UInt8) : List Text → Text
  | [] => []
  | [w] => w
  | w :: next :: rest => w ++ this :: interleave that this (next :: rest)

theorem length_interleave (this that separator : UInt8) (words : List Text) :
    (interleave this that words).length = (Text.join [separator] words).length := by
  fun_induction interleave this that words with
  | case1 => rfl
  | case2 => simp [Text.join]
  | case3 this that w next rest ih =>
      rw [Text.join, List.intercalate_cons_cons]
      simp only [List.length_append, List.length_cons, ih, List.length_nil, Text.join]
      omega

/-- Behind an odd number of words stands the separator that comes first. -/
theorem exists_interleave_append (this that : UInt8) {front back : List Text} (hfront : front ≠ [])
    (hback : back ≠ []) :
    ∃ rest, interleave this that (front ++ back) =
      interleave this that front ++ (if front.length % 2 = 1 then this else that) :: rest := by
  fun_induction interleave this that front with
  | case1 => exact absurd rfl hfront
  | case2 this that w =>
      obtain ⟨next, more, rfl⟩ := List.exists_cons_of_ne_nil hback
      exact ⟨interleave that this (next :: more), rfl⟩
  | case3 this that w next more ih =>
      obtain ⟨rest, hrest⟩ := ih (List.cons_ne_nil _ _)
      refine ⟨rest, ?_⟩
      rw [List.cons_append, List.cons_append, interleave, ← List.cons_append, hrest]
      have hturn : (if (next :: more).length % 2 = 1 then that else this) =
          if (w :: next :: more).length % 2 = 1 then this else that := by
        simp only [List.length_cons]
        rcases Nat.mod_two_eq_zero_or_one more.length with heven | hodd
        · rw [if_pos (by omega), if_neg (by omega)]
        · rw [if_neg (by omega), if_pos (by omega)]
      rw [hturn]
      simp

theorem join_cons (w : Text) {words : List Text} (h : words ≠ []) :
    Text.join [atSign] (w :: words) = w ++ atSign :: Text.join [atSign] words := by
  simp [Text.join, List.intercalate_cons_of_ne_nil h]

theorem next_next (position : ScorePosition) : position.next.next = position.next := by
  cases position <;> rfl

theorem replaceScoresFrom_word (position : ScorePosition) {w : Text} (h : ScoreName w)
    (rest : Text) :
    replaceScoresFrom position (w ++ rest) = w ++ replaceScoresFrom position.next rest := by
  obtain ⟨hne, hbyte⟩ := h
  induction w generalizing position with
  | nil => exact absurd rfl hne
  | cons b w ih =>
      rw [List.forall_mem_cons] at hbyte
      rw [List.cons_append, replaceScoresFrom, if_pos hbyte.1]
      by_cases hw : w = []
      · rw [hw]
        rfl
      · rw [ih position.next hw hbyte.2, next_next]
        rfl

/-- Where no score name goes on, it does not matter whether one ended there. -/
theorem replaceScoresFrom_eq_of_closed {after : Text} (h : ClosedAhead after)
    (position : ScorePosition) : replaceScoresFrom position after = replaceScores after := by
  cases after with
  | nil => rfl
  | cons b rest =>
      have hb : ¬ isScoreByte b = true := fun hb => h ⟨b, rest, hb, .inl rfl⟩
      have hsign : ∀ position : ScorePosition,
          ¬ (b == 64 && position == .name && (rest.head?.map isScoreByte).getD false) = true := by
        intro position hat
        simp only [Bool.and_eq_true, beq_iff_eq] at hat
        obtain ⟨⟨rfl, -⟩, hnext⟩ := hat
        cases rest with
        | nil => cases hnext
        | cons c rest => exact h ⟨c, rest, hnext, .inr rfl⟩
      rw [replaceScores, replaceScoresFrom, replaceScoresFrom, if_neg hb, if_neg hb,
        if_neg (hsign _), if_neg (hsign _)]

/-- In a chain the signs are replaced in turn. The first one is, unless the first word is already a
board. -/
theorem replaceScoresFrom_chain (position : ScorePosition) {words : List Text}
    (hne : words ≠ []) (hwords : ∀ w ∈ words, ScoreName w) {after : Text}
    (hafter : ClosedAhead after) :
    replaceScoresFrom position (Text.join [atSign] words ++ after) =
      (if position = .board then interleave atSign Text.space words
        else interleave Text.space atSign words) ++ replaceScores after := by
  induction words generalizing position with
  | nil => exact absurd rfl hne
  | cons w rest ih =>
      rw [List.forall_mem_cons] at hwords
      cases rest with
      | nil =>
          rw [Text.join, List.intercalate_singleton, replaceScoresFrom_word _ hwords.1,
            replaceScoresFrom_eq_of_closed hafter]
          simp [interleave]
      | cons next more =>
          have hnext := (List.forall_mem_cons.mp hwords.2).1
          obtain ⟨b, bs, rfl⟩ := List.exists_cons_of_ne_nil hnext.ne_nil
          have hb : isScoreByte b = true := hnext.byte b List.mem_cons_self
          have hhead : (Text.join [atSign] ((b :: bs) :: more) ++ after).head? = some b := by
            cases more <;> simp [Text.join, List.intercalate_cons_cons]
          have hsign : ¬ isScoreByte atSign = true := by decide
          rw [join_cons w (List.cons_ne_nil _ _), List.append_assoc, List.cons_append,
            replaceScoresFrom_word _ hwords.1, replaceScoresFrom, if_neg hsign, hhead]
          cases position with
          | board =>
              rw [if_neg (by simp [ScorePosition.next]), ih .outside (by simp) hwords.2]
              simp [interleave]
          | outside | name =>
              rw [if_pos (by simp [ScorePosition.next, hb]), ih .board (by simp) hwords.2]
              simp [interleave]

/-! ## Around a chain -/

/-- A text is replaced as if nothing followed, if no score name can go on behind it. -/
theorem replaceScoresFrom_append_of_closed {position : ScorePosition} {before : Text}
    (h : ClosedBehind before)
    (hposition : position ≠ .outside → before ≠ [] ∧ before ≠ [atSign]) (t : Text) :
    replaceScoresFrom position (before ++ t) =
      replaceScoresFrom position before ++ replaceScores t := by
  induction before generalizing position with
  | nil =>
      obtain rfl : position = .outside := by
        by_contra houtside
        exact (hposition houtside).1 rfl
      rfl
  | cons c rest ih =>
      have hrest : ClosedBehind rest := by
        rintro ⟨init, d, hd, heq⟩
        exact h ⟨c :: init, d, hd, heq.imp (congrArg (c :: ·)) (congrArg (c :: ·))⟩
      rw [List.cons_append, replaceScoresFrom, replaceScoresFrom]
      by_cases hc : isScoreByte c = true
      · have hmore : rest ≠ [] ∧ rest ≠ [atSign] := by
          constructor
          · rintro rfl
            exact h ⟨[], c, hc, .inl rfl⟩
          · rintro rfl
            exact h ⟨[], c, hc, .inr rfl⟩
        rw [if_pos hc, if_pos hc, ih hrest fun _ => hmore]
        rfl
      · rw [if_neg hc, if_neg hc]
        cases rest with
        | nil =>
            -- a sign at the end follows no name, so it does not matter what follows the sign
            have hname : ¬ (c == 64 && position == .name) = true := by
              rw [Bool.and_eq_true, beq_iff_eq, beq_iff_eq]
              rintro ⟨rfl, rfl⟩
              exact (hposition (by decide)).2 rfl
            rw [if_neg (by simp [hname]), if_neg (by simp)]
            rfl
        | cons d rest =>
            have hhead : (d :: rest ++ t).head? = (d :: rest).head? := rfl
            rw [hhead]
            split
            next hat =>
              have hd : isScoreByte d = true := by simpa using (Bool.and_eq_true_iff.mp hat).2
              have hmore : d :: rest ≠ [] ∧ d :: rest ≠ [atSign] := by
                refine ⟨List.cons_ne_nil _ _, fun heq => ?_⟩
                rw [(List.cons.inj heq).1] at hd
                cases hd
              rw [ih hrest fun _ => hmore]
              rfl
            next =>
              rw [ih hrest fun houtside => absurd rfl houtside]
              rfl

theorem replaceScores_append {before : Text} (h : ClosedBehind before) (t : Text) :
    replaceScores (before ++ t) = replaceScores before ++ replaceScores t :=
  replaceScoresFrom_append_of_closed h (fun houtside => absurd rfl houtside) t

theorem length_replaceScoresFrom (position : ScorePosition) (t : Text) :
    (replaceScoresFrom position t).length = t.length :=
  (forall₂_replaceScoresFrom position t).length_eq.symm

namespace Chain

variable {t before after : Text} {words front back : List Text}

/-- A chain is replaced as if it stood alone. -/
theorem replaceScores_eq (h : Chain t before words after) :
    replaceScores t = replaceScores before ++ interleave Text.space atSign words ++
      replaceScores after := by
  have hne : words ≠ [] := by
    rintro rfl
    exact absurd h.two (by decide)
  rw [h.eq, List.append_assoc, replaceScores_append h.closedBehind, List.append_assoc]
  exact congrArg (replaceScores before ++ ·)
    (replaceScoresFrom_chain .outside hne h.word h.closedAhead)

/-- The sign behind an odd number of words is replaced, and the one behind an even number stays. -/
theorem getElem?_replaceScores (h : Chain t before (front ++ back) after) (hfront : front ≠ [])
    (hback : back ≠ []) :
    (replaceScores t)[before.length + (Text.join [atSign] front).length]? =
      some (if front.length % 2 = 1 then Text.space else atSign) := by
  obtain ⟨rest, hrest⟩ := exists_interleave_append Text.space atSign hfront hback
  have hlength : before.length + (Text.join [atSign] front).length =
      (replaceScores before ++ interleave Text.space atSign front).length := by
    rw [List.length_append, length_interleave _ _ atSign, replaceScores, length_replaceScoresFrom]
  rw [h.replaceScores_eq, hrest, hlength]
  simp

end Chain

/-! ## Every sign that is replaced -/

/-- What is replaced is a sign between two bytes of score names. -/
theorem exists_link_of_ne {position : ScorePosition} {t : Text} {i : Nat}
    (h : (replaceScoresFrom position t)[i]? ≠ t[i]?) :
    ∃ x b y, t = x ++ atSign :: b :: y ∧ x.length = i ∧ isScoreByte b = true ∧
      (x = [] ∧ position = .name ∨ ∃ init a, x = init ++ [a] ∧ isScoreByte a = true) := by
  induction t generalizing position i with
  | nil => exact absurd rfl h
  | cons c rest ih =>
      -- a link further on is one of the rest, and a byte before it may be this one
      have hlater : ∀ position' j, (position' = .name → isScoreByte c = true) →
          (replaceScoresFrom position' rest)[j]? ≠ rest[j]? → i = j + 1 →
          ∃ x b y, c :: rest = x ++ atSign :: b :: y ∧ x.length = i ∧ isScoreByte b = true ∧
            (x = [] ∧ position = .name ∨ ∃ init a, x = init ++ [a] ∧ isScoreByte a = true) := by
        rintro position' j hc hne rfl
        obtain ⟨x, b, y, rfl, rfl, hb, hx⟩ := ih hne
        refine ⟨c :: x, b, y, rfl, rfl, hb, .inr ?_⟩
        rcases hx with ⟨rfl, hname⟩ | ⟨init, a, rfl, ha⟩
        · exact ⟨[], c, rfl, hc hname⟩
        · exact ⟨c :: init, a, rfl, ha⟩
      rw [replaceScoresFrom] at h
      split at h
      next hc =>
        cases i with
        | zero => exact absurd rfl h
        | succ j => exact hlater _ j (fun _ => hc) h rfl
      next =>
        split at h
        next hat =>
          cases i with
          | zero =>
              simp only [Bool.and_eq_true, beq_iff_eq] at hat
              obtain ⟨⟨rfl, hname⟩, hnext⟩ := hat
              cases rest with
              | nil => cases hnext
              | cons b y => exact ⟨[], b, y, rfl, rfl, hnext, .inl ⟨rfl, hname⟩⟩
          | succ j => exact hlater .board j (fun hname => absurd hname (by decide)) h rfl
        next =>
          cases i with
          | zero => exact absurd rfl h
          | succ j => exact hlater .outside j (fun hname => absurd hname (by decide)) h rfl

/-- A text that starts with a score name starts with a chain of names that cannot be extended. -/
theorem exists_words_ahead {b : UInt8} (hb : isScoreByte b = true) (t : Text) :
    ∃ words after, b :: t = Text.join [atSign] words ++ after ∧ words ≠ [] ∧
      (∀ w ∈ words, ScoreName w) ∧ ClosedAhead after := by
  induction hlength : t.length using Nat.strong_induction_on generalizing b t with
  | _ n ih =>
      let w := (b :: t).takeWhile isScoreByte
      have hw : ScoreName w := by
        refine ⟨?_, fun c hc => List.mem_takeWhile_imp hc⟩
        simp [w, hb]
      have hsplit : b :: t = w ++ (b :: t).dropWhile isScoreByte :=
        List.takeWhile_append_dropWhile.symm
      have hend : ∀ c rest, (b :: t).dropWhile isScoreByte = c :: rest →
          ¬ isScoreByte c = true := by
        intro c rest hrest hc
        have hhead := List.head?_dropWhile_not isScoreByte (b :: t)
        rw [hrest] at hhead
        exact Bool.false_ne_true (hhead.symm.trans hc)
      by_cases hclosed : ClosedAhead ((b :: t).dropWhile isScoreByte)
      · refine ⟨[w], _, ?_, List.cons_ne_nil _ _, List.forall_mem_singleton.mpr hw, hclosed⟩
        rw [Text.join, List.intercalate_singleton]
        exact hsplit
      · -- the word is followed by a sign and a further word
        obtain ⟨c, rest, hc, hrest | hrest⟩ := not_not.mp hclosed
        · exact absurd hc (hend c rest hrest)
        · have hshorter : rest.length < n := by
            have hall := congrArg List.length hsplit
            rw [hrest, List.length_append, List.length_cons, List.length_cons, List.length_cons]
              at hall
            omega
          obtain ⟨words, after, heq, hne, hwords, hafter⟩ := ih _ hshorter hc rest rfl
          refine ⟨w :: words, after, ?_, List.cons_ne_nil _ _,
            List.forall_mem_cons.mpr ⟨hw, hwords⟩, hafter⟩
          rw [hsplit, hrest, heq, join_cons w hne, List.append_assoc, List.cons_append]

/-- A text that ends with a score name ends with a chain of names that cannot be extended. -/
theorem exists_words_behind {b : UInt8} (hb : isScoreByte b = true) (t : Text) :
    ∃ before words, t ++ [b] = before ++ Text.join [atSign] words ∧ words ≠ [] ∧
      (∀ w ∈ words, ScoreName w) ∧ ClosedBehind before := by
  obtain ⟨words, after, heq, hne, hwords, hafter⟩ := exists_words_ahead hb t.reverse
  refine ⟨after.reverse, (words.map List.reverse).reverse, ?_, by simpa using hne, ?_, ?_⟩
  · have hreverse := congrArg List.reverse heq
    rw [List.reverse_append, Text.reverse_join] at hreverse
    simpa using hreverse
  · intro w hw
    obtain ⟨w, hmem, rfl⟩ := List.mem_map.mp (List.mem_reverse.mp hw)
    obtain ⟨hwne, hbyte⟩ := hwords w hmem
    exact ⟨by simpa using hwne, fun c hc => hbyte c (List.mem_reverse.mp hc)⟩
  · rw [closedBehind_iff, List.reverse_reverse]
    exact hafter

/-- A sign between two bytes of score names stands in a chain. -/
theorem exists_chain_of_link {a b : UInt8} (ha : isScoreByte a = true) (hb : isScoreByte b = true)
    (x y : Text) :
    ∃ before front back after,
      Chain (x ++ [a] ++ atSign :: b :: y) before (front ++ back) after ∧ front ≠ [] ∧ back ≠ [] ∧
      (x ++ [a]).length = before.length + (Text.join [atSign] front).length := by
  obtain ⟨before, front, hx, hfront, hfrontWords, hbefore⟩ := exists_words_behind ha x
  obtain ⟨back, after, hy, hback, hbackWords, hafter⟩ := exists_words_ahead hb y
  refine ⟨before, front, back, after, ⟨?_, ?_, ?_, hbefore, hafter⟩, hfront, hback, ?_⟩
  · rw [hx, hy, Text.join_append _ hfront hback]
    simp
  · have := List.length_pos_iff.mpr hfront
    have := List.length_pos_iff.mpr hback
    rw [List.length_append]
    omega
  · rw [List.forall_mem_append]
    exact ⟨hfrontWords, hbackWords⟩
  · rw [hx, List.length_append]

theorem exists_chain_of_ne {t : Text} {i : Nat} (h : (replaceScores t)[i]? ≠ t[i]?) :
    ∃ before front back after, Chain t before (front ++ back) after ∧ front ≠ [] ∧ back ≠ [] ∧
      front.length % 2 = 1 ∧ i = before.length + (Text.join [atSign] front).length := by
  obtain ⟨x, b, y, rfl, rfl, hb, hx⟩ := exists_link_of_ne h
  obtain ⟨init, a, rfl, ha⟩ := hx.resolve_left fun hname => absurd hname.2 (by decide)
  obtain ⟨before, front, back, after, hchain, hfront, hback, hlength⟩ :=
    exists_chain_of_link ha hb init y
  refine ⟨before, front, back, after, hchain, hfront, hback, ?_, hlength⟩
  by_contra heven
  have hstays := hchain.getElem?_replaceScores hfront hback
  rw [if_neg heven, ← hlength] at hstays
  exact h (by rw [hstays]; simp)

/-- In a scope without other tokens, replacing reserved tokens changes nothing but signs in chains
of score names. The first, third, fifth and so on of every chain turn into spaces and the others
stay, so the length stays too. -/
theorem apply_rewrites_chains (s : Scope) (hthis : ¬ ascii "$this" <:+: s.content)
    (hns : ¬ ascii "$namespace" <:+: s.content)
    (hhash : ¬ ∃ value, value ≠ [] ∧ (∀ b ∈ value, isValueByte b = true) ∧
      ascii "#[" ++ value ++ ascii "]" <:+: s.content) :
    (apply s).length = s.content.length ∧
    (∀ before front back after, Chain s.content before (front ++ back) after → front ≠ [] →
      back ≠ [] →
      let i := before.length + (Text.join [atSign] front).length
      s.content[i]? = some atSign ∧
        (apply s)[i]? = some (if front.length % 2 = 1 then Text.space else atSign)) ∧
    ∀ i, (¬ ∃ before front back after, Chain s.content before (front ++ back) after ∧
        front ≠ [] ∧ back ≠ [] ∧ front.length % 2 = 1 ∧
        i = before.length + (Text.join [atSign] front).length) →
      (apply s)[i]? = s.content[i]? := by
  rw [apply_eq_replaceScores s hthis hns hhash]
  refine ⟨length_replaceScoresFrom _ _, fun before front back after hchain hfront hback => ⟨?_, ?_⟩,
    fun i hi => ?_⟩
  · rw [hchain.eq, Text.join_append _ hfront hback, ← List.length_append]
    simp
  · exact hchain.getElem?_replaceScores hfront hback
  · by_contra hne
    exact hi (exists_chain_of_ne hne)

/-- Selectors, two signs in a row, a byte that is no text before a sign, and a chain of four names
with a fourth sign behind it. -/
theorem apply_rewrites_chains_selectors :
    let ns : Namespace := ⟨{ path := ascii "packs/p", name := ascii "p" }, ascii "ns"⟩
    let after := ascii "@ e@@f " ++ 255 :: ascii "@g"
    let s : Scope := ⟨ns, ascii "main", ascii "as @s a@b@c@d" ++ after⟩
    (¬ ascii "$this" <:+: s.content) ∧ (¬ ascii "$namespace" <:+: s.content) ∧
    (¬ ∃ value, value ≠ [] ∧ (∀ b ∈ value, isValueByte b = true) ∧
      ascii "#[" ++ value ++ ascii "]" <:+: s.content) ∧
    Chain s.content (ascii "as @s ") [ascii "a", ascii "b", ascii "c", ascii "d"] after ∧
    (apply s).length = s.content.length ∧ (apply s)[7]? = some Text.space ∧
    (apply s)[9]? = some atSign ∧ (apply s)[11]? = some Text.space ∧
    apply s = ascii "as @s a b@c d" ++ after := by
  intro ns after s
  have hthis : ¬ ascii "$this" <:+: s.content := by decide +kernel
  have hns : ¬ ascii "$namespace" <:+: s.content := by decide +kernel
  have hhash : ¬ ∃ value, value ≠ [] ∧ (∀ b ∈ value, isValueByte b = true) ∧
      ascii "#[" ++ value ++ ascii "]" <:+: s.content := by
    rw [exists_hash_iff]
    decide +kernel
  have hchain : Chain s.content (ascii "as @s ") [ascii "a", ascii "b", ascii "c", ascii "d"]
      after := by decide +kernel
  obtain ⟨hlength, hsigns, -⟩ := apply_rewrites_chains s hthis hns hhash
  refine ⟨hthis, hns, hhash, hchain, hlength, ?_, ?_, ?_, by decide +kernel⟩
  · exact (hsigns _ [ascii "a"] _ _ hchain (by decide) (by decide)).2
  · exact (hsigns _ [ascii "a", ascii "b"] _ _ hchain (by decide) (by decide)).2
  · exact (hsigns _ [ascii "a", ascii "b", ascii "c"] [ascii "d"] _ hchain (by decide)
      (by decide)).2

end Packwright.Substitution
