import Packwright.Proofs.Line
import Packwright.Substitution

/-! # Reserved tokens are words

No reserved token reaches across a separator: a space, a tab or the end of a line. So each word is
replaced as if it stood alone (`apply_append`), and so is each line (`apply_unlines`). What stands
in place of a token shows something, and a line that is not indented starts with the byte that it
starts with or with what stands in place of a token (`flush_apply`).
-/

namespace Packwright

namespace Text

/-! ## Replacing matches -/

/-- A search that does not look across a byte, and matches nothing behind it. -/
structure Local (c : UInt8) (match? : Text → Option (Nat × Text)) : Prop where
  stops : ∀ x y, match? (x ++ c :: y) = match? x
  inside : ∀ x more replacement, match? x = some (more, replacement) → more < x.length

theorem Local.replaceMatches_append {c : UInt8} {match? : Text → Option (Nat × Text)}
    (h : Local c match?) {pending : Nat} {x : Text} (hpending : pending ≤ x.length) (y : Text) :
    replaceMatches match? pending (x ++ c :: y) =
      replaceMatches match? pending x ++ c :: replaceMatches match? 0 y := by
  induction x generalizing pending with
  | nil =>
      obtain rfl : pending = 0 := Nat.le_zero.mp hpending
      have hnone : match? (c :: y) = none := by
        have hstops : match? (c :: y) = match? [] := h.stops [] y
        rw [hstops]
        by_contra hsome
        obtain ⟨⟨more, replacement⟩, hmatch⟩ := Option.ne_none_iff_exists'.mp hsome
        exact Nat.not_lt_zero _ (h.inside _ _ _ hmatch)
      simp only [List.nil_append, replaceMatches, hnone]
  | cons b x ih =>
      cases pending with
      | succ n => exact ih (Nat.le_of_succ_le_succ hpending)
      | zero =>
          have hstops : match? (b :: (x ++ c :: y)) = match? (b :: x) := h.stops (b :: x) y
          simp only [List.cons_append, replaceMatches, hstops]
          cases hmatch : match? (b :: x) with
          | none => exact congrArg (b :: ·) (ih (Nat.zero_le _))
          | some found =>
              obtain ⟨more, replacement⟩ := found
              have hmore := Nat.le_of_lt_succ (h.inside _ _ _ hmatch)
              simp only [ih hmore, List.append_assoc]

/-- Looking for a text does not look across a byte that the text does not hold. -/
theorem local_replaceAll {c : UInt8} {old : Text} (hold : c ∉ old) (hne : old ≠ []) (new : Text) :
    Local c fun t => if old.isPrefixOf t then some (old.length - 1, new) else none := by
  have hiff : ∀ x y : Text, old.isPrefixOf (x ++ c :: y) = old.isPrefixOf x := by
    intro x y
    rw [Bool.eq_iff_iff, List.isPrefixOf_iff_prefix, List.isPrefixOf_iff_prefix]
    refine ⟨fun hstart => ?_, fun hstart => hstart.trans (List.prefix_append _ _)⟩
    rcases List.prefix_or_prefix_of_prefix hstart (List.prefix_append x (c :: y)) with h | h
    · exact h
    · -- the text is longer than what stands before the byte, so it holds the byte
      obtain ⟨z, rfl⟩ := h
      obtain ⟨u, hu⟩ := hstart
      rw [List.append_assoc, List.append_cancel_left_eq] at hu
      cases z with
      | nil => rw [List.append_nil]
      | cons d z =>
          obtain ⟨rfl, -⟩ := List.cons.inj hu
          exact absurd (List.mem_append_right _ List.mem_cons_self) hold
  refine ⟨fun x y => by rw [hiff], fun x more replacement hmatch => ?_⟩
  obtain ⟨hstart, hmatch⟩ := Option.ite_none_right_eq_some.mp hmatch
  obtain ⟨rfl, -⟩ := Prod.mk.inj (Option.some.inj hmatch)
  have hle := (List.isPrefixOf_iff_prefix.mp hstart).length_le
  have hpos := List.length_pos_iff.mpr hne
  omega

theorem replaceAll_append {c : UInt8} {old : Text} (hold : c ∉ old) (hne : old ≠ [])
    (new x y : Text) :
    replaceAll old new (x ++ c :: y) = replaceAll old new x ++ c :: replaceAll old new y :=
  (local_replaceAll hold hne new).replaceMatches_append (Nat.zero_le _) y

/-! ## What is written in place of matches -/

section Replaced

variable {match? : Text → Option (Nat × Text)}

theorem mem_replaceMatches {pending : Nat} {t : Text} {b : UInt8}
    (h : b ∈ replaceMatches match? pending t) :
    b ∈ t ∨ ∃ t' more replacement, match? t' = some (more, replacement) ∧ b ∈ replacement := by
  fun_induction replaceMatches match? pending t with
  | case1 => cases h
  | case2 c rest n ih => exact (ih h).imp_left (List.mem_cons_of_mem _)
  | case3 c rest more replacement hmatch ih =>
      rcases List.mem_append.mp h with h | h
      · exact .inr ⟨_, _, _, hmatch, h⟩
      · exact (ih h).imp_left (List.mem_cons_of_mem _)
  | case4 c rest _ ih =>
      rcases List.mem_cons.mp h with rfl | h
      · exact .inl List.mem_cons_self
      · exact (ih h).imp_left (List.mem_cons_of_mem _)

variable (hmatch : ∀ t more replacement, match? t = some (more, replacement) → Token replacement)

include hmatch

theorem ink_replaceMatches {t : Text} (h : ∃ b ∈ t, isMargin b = false) :
    ∃ b ∈ replaceMatches match? 0 t, isMargin b = false := by
  induction t with
  | nil => exact h
  | cons c rest ih =>
      rw [replaceMatches]
      split
      next more replacement hfound =>
        obtain ⟨b, hb, hink⟩ := (hmatch _ _ _ hfound).ink
        exact ⟨b, List.mem_append_left _ hb, hink⟩
      next =>
        obtain ⟨b, hb, hink⟩ := h
        rcases List.mem_cons.mp hb with rfl | hb
        · exact ⟨b, List.mem_cons_self, hink⟩
        · obtain ⟨b', hb', hink'⟩ := ih ⟨b, hb, hink⟩
          exact ⟨b', List.mem_cons_of_mem _ hb', hink'⟩

/-- A line stays flush where what is written into it shows something. -/
theorem Flush.replaceMatches {line : Text} (h : Flush line) :
    Flush (Text.replaceMatches match? 0 line) := by
  refine ⟨⟨fun hmem => ?_, ink_replaceMatches hmatch h.ink⟩, ?_⟩
  · rcases mem_replaceMatches hmem with hline | ⟨t, more, replacement, hfound, hb⟩
    · exact h.newline hline
    · exact (hmatch _ _ _ hfound).newline hb
  · cases line with
    | nil => nofun
    | cons b rest =>
        rw [Text.replaceMatches]
        split
        next more replacement hfound =>
          have htoken := hmatch _ _ _ hfound
          rw [List.head?_append_of_ne_nil _ htoken.ne_nil]
          exact fun hhead => nomatch htoken.plain _ (List.mem_of_head? hhead)
        next => exact h.head

end Replaced

theorem Flush.replaceAll {line old new : Text} (h : Flush line) (hnew : Token new) :
    Flush (Text.replaceAll old new line) := by
  refine h.replaceMatches fun t more replacement hfound => ?_
  obtain ⟨-, hfound⟩ := Option.ite_none_right_eq_some.mp hfound
  obtain ⟨-, rfl⟩ := Prod.mk.inj (Option.some.inj hfound)
  exact hnew

/-- A line stays flush where single bytes of it are replaced by others that show something. -/
theorem Flush.of_forall₂ {line line' : Text} (h : Flush line)
    (hbytes : List.Forall₂ (fun b b' => b' = b ∨ isMargin b' = false) line line') :
    Flush line' := by
  have hnewline : Text.newline ∉ line' := by
    have hline := h.newline
    clear h
    induction hbytes with
    | nil => exact List.not_mem_nil
    | cons hb _ ih =>
        rw [List.mem_cons, not_or] at hline ⊢
        refine ⟨?_, ih hline.2⟩
        rcases hb with rfl | hb
        · exact hline.1
        · rintro rfl
          cases hb
  have hink : ∃ b ∈ line', isMargin b = false := by
    obtain ⟨b, hb, hink⟩ := h.ink
    clear h hnewline
    induction hbytes with
    | nil => cases hb
    | @cons c c' _ _ hc _ ih =>
        rcases List.mem_cons.mp hb with rfl | hb
        · refine ⟨c', List.mem_cons_self, ?_⟩
          rcases hc with rfl | hc
          · exact hink
          · exact hc
        · obtain ⟨b', hb', hink'⟩ := ih hb
          exact ⟨b', List.mem_cons_of_mem _ hb', hink'⟩
  refine ⟨⟨hnewline, hink⟩, ?_⟩
  cases hbytes with
  | nil => exact h.head
  | cons hb _ =>
      rcases hb with rfl | hb
      · exact h.head
      · intro hhead
        cases Option.some.inj hhead
        cases hb

end Text

/-! ## Identifiers made from values -/

namespace Sha256

/-- A state has eight words. -/
theorem length_round {state : List UInt32} (h : state.length = 8) (q : UInt32 × UInt32) :
    (round state q).length = 8 := by
  unfold round
  split
  next => rfl
  next => exact h

theorem length_compress {state : List UInt32} (h : state.length = 8) (block : List UInt32) :
    (compress state block).length = 8 := by
  have hfinal : ∀ (qs : List (UInt32 × UInt32)) (u : List UInt32), u.length = 8 →
      (qs.foldl round u).length = 8 := by
    intro qs
    induction qs with
    | nil => exact fun u hu => hu
    | cons q qs ih => exact fun u hu => ih _ (length_round hu q)
  rw [compress, List.length_zipWith, h, hfinal _ state h]
  rfl

/-- A digest has thirty-two bytes. -/
theorem length_digest (message : Text) : (digest message).length = 32 := by
  have hstate : ∀ (bs : List (List UInt32)) (u : List UInt32), u.length = 8 →
      (bs.foldl compress u).length = 8 := by
    intro bs
    induction bs with
    | nil => exact fun u hu => hu
    | cons b bs ih => exact fun u hu => ih _ (length_compress hu b)
  have hbytes : ∀ ws : List UInt32, (ws.flatMap wordBytes).length = 4 * ws.length := by
    intro ws
    induction ws with
    | nil => rfl
    | cons w ws ih =>
        rw [List.flatMap_cons, List.length_append, ih, List.length_cons, Nat.mul_succ, Nat.add_comm]
        rfl
  rw [digest, hbytes, hstate _ initialState rfl]

theorem digest_ne_nil (message : Text) : digest message ≠ [] := by
  intro hnil
  have hlength := length_digest message
  rw [hnil] at hlength
  cases hlength

end Sha256

namespace Base32

theorem plain_of_mem_group {a b c d e x : UInt8} (h : x ∈ group a b c d e) :
    Text.isMargin x = false := by
  have hdigit : ∀ n < 32, Text.isMargin (digit n) = false := by decide
  obtain ⟨shift, -, rfl⟩ := List.mem_map.mp h
  exact hdigit _ (Nat.mod_lt _ (by decide))

theorem plain_of_mem_padded {n : Nat} {digits : Text} {x : UInt8}
    (hdigits : ∀ b ∈ digits, Text.isMargin b = false) (h : x ∈ padded n digits) :
    Text.isMargin x = false := by
  rcases List.mem_append.mp h with h | h
  · exact hdigits x (List.mem_of_mem_take h)
  · rw [List.eq_of_mem_replicate h]
    rfl

theorem plain_of_mem_encode {t : Text} {x : UInt8} (h : x ∈ encode t) :
    Text.isMargin x = false := by
  fun_induction encode t with
  | case1 a b c d e rest ih =>
      rcases List.mem_append.mp h with h | h
      · exact plain_of_mem_group h
      · exact ih h
  | case2 | case3 | case4 | case5 =>
      exact plain_of_mem_padded (fun _ hb => plain_of_mem_group hb) h
  | case6 => cases h

theorem encode_ne_nil {t : Text} (h : t ≠ []) : encode t ≠ [] := by
  fun_cases encode t with
  | case6 => exact absurd rfl h
  | _ => exact List.cons_ne_nil _ _

end Base32

namespace Substitution

open Text (ascii Flush Token MadeOf)

theorem token_contentHash (value : Text) : Token (contentHash value) := by
  have hne := Base32.encode_ne_nil (Sha256.digest_ne_nil value)
  obtain ⟨b, rest, hencode⟩ := List.exists_cons_of_ne_nil hne
  refine ⟨?_, fun x hx => Base32.plain_of_mem_encode (List.mem_of_mem_take hx)⟩
  rw [contentHash, hencode]
  exact List.cons_ne_nil _ _

theorem token_of_hashToken? {t replacement : Text} {more : Nat}
    (h : hashToken? t = some (more, replacement)) : Token replacement := by
  unfold hashToken? at h
  split at h
  next rest =>
    obtain ⟨-, h⟩ := Option.ite_none_right_eq_some.mp h
    obtain ⟨-, rfl⟩ := Prod.mk.inj (Option.some.inj h)
    exact token_contentHash _
  next => cases h

/-! ## Separators -/

/-- The bytes that no reserved token reaches across. -/
def isSeparator (b : UInt8) : Bool := Text.isBlank b || b == Text.newline

theorem eq_of_isSeparator {c : UInt8} (h : isSeparator c = true) :
    c = Text.space ∨ c = Text.tab ∨ c = Text.newline := by
  simpa [isSeparator, Text.isBlank, or_assoc] using h

theorem takeWhile_value_append {c : UInt8} (h : isValueByte c = false) (x y : Text) :
    (x ++ c :: y).takeWhile isValueByte = x.takeWhile isValueByte := by
  induction x with
  | nil => simp [h]
  | cons b x ih => simp only [List.cons_append, List.takeWhile_cons, ih]

/-- Whether a value is closed does not depend on what follows a separator. -/
theorem head?_drop_append {c : UInt8} (h : c ≠ 93) {n : Nat} {x : Text} (hn : n ≤ x.length)
    (y : Text) :
    (((x ++ c :: y).drop n).head? == some 93) = ((x.drop n).head? == some 93) := by
  rw [List.drop_append_of_le_length hn]
  cases x.drop n with
  | nil => simp [h]
  | cons b rest => rfl

theorem hashToken?_eq_none {b d : UInt8} (h : ¬ (b = 35 ∧ d = 91)) (rest : Text) :
    hashToken? (b :: d :: rest) = none := by
  unfold hashToken?
  split
  next heq =>
    simp only [List.cons.injEq] at heq
    exact absurd ⟨heq.1, heq.2.1⟩ h
  next => rfl

theorem local_hashToken? {c : UInt8} (h : isSeparator c = true) : Text.Local c hashToken? := by
  have hbytes : isValueByte c = false ∧ c ≠ 93 ∧ c ≠ 35 ∧ c ≠ 91 := by
    rcases eq_of_isSeparator h with rfl | rfl | rfl <;> decide
  obtain ⟨hvalue, hclose, hfirst, hsecond⟩ := hbytes
  refine ⟨fun x y => ?_, fun x more replacement hmatch => ?_⟩
  · match x with
    | [] => simp [hashToken?, hfirst]
    | [b] => simp [hashToken?, hsecond]
    | b :: d :: rest =>
        by_cases hstart : b = 35 ∧ d = 91
        · obtain ⟨rfl, rfl⟩ := hstart
          have hle := (List.takeWhile_prefix isValueByte (l := rest)).length_le
          simp only [List.cons_append, hashToken?, takeWhile_value_append hvalue,
            head?_drop_append hclose hle]
        · rw [List.cons_append, List.cons_append, hashToken?_eq_none hstart,
            hashToken?_eq_none hstart]
  · unfold hashToken? at hmatch
    split at hmatch
    next rest =>
      obtain ⟨hclosed, hmatch⟩ := Option.ite_none_right_eq_some.mp hmatch
      obtain ⟨rfl, -⟩ := Prod.mk.inj (Option.some.inj hmatch)
      simp only [Bool.and_eq_true, beq_iff_eq, List.head?_drop] at hclosed
      have hlt := (List.getElem?_eq_some_iff.mp hclosed.2).1
      simp only [List.length_cons]
      omega
    next => cases hmatch

/-- Score names do not reach across separators. -/
theorem replaceScoresFrom_append {c : UInt8} (h : isSeparator c = true) (position : ScorePosition)
    (x y : Text) : replaceScoresFrom position (x ++ c :: y) =
      replaceScoresFrom position x ++ c :: replaceScores y := by
  have hbyte : isScoreByte c = false ∧ (c == 64) = false := by
    rcases eq_of_isSeparator h with rfl | rfl | rfl <;> decide
  induction x generalizing position with
  | nil => simp [replaceScoresFrom, hbyte, replaceScores]
  | cons b x ih =>
      have hnext : (((x ++ c :: y).head?.map isScoreByte).getD false) =
          ((x.head?.map isScoreByte).getD false) := by
        cases x with
        | nil => simp [hbyte]
        | cons d x => rfl
      simp only [List.cons_append, replaceScoresFrom, hnext, ih]
      split
      next => rfl
      next => split <;> rfl

/-- Each word is replaced as if it stood alone. -/
theorem apply_append {c : UInt8} (h : isSeparator c = true) (s : Scope) (a b : Text) :
    apply (s.withContent (a ++ c :: b)) =
      apply (s.withContent a) ++ c :: apply (s.withContent b) := by
  have hwords : c ∉ ascii "$this" ∧ c ∉ ascii "$namespace" := by
    rcases eq_of_isSeparator h with rfl | rfl | rfl <;> decide
  have hrewrite : ∀ t, apply (s.withContent t) = replaceScores (replaceHashes
      (Text.replaceAll (ascii "$namespace") s.ns.name
        (Text.replaceAll (ascii "$this") s.reference t))) := fun t => rfl
  simp only [hrewrite]
  rw [Text.replaceAll_append hwords.1 (by decide), Text.replaceAll_append hwords.2 (by decide),
    replaceHashes, (local_hashToken? h).replaceMatches_append (Nat.zero_le _)]
  exact replaceScoresFrom_append h .outside _ _

/-- Each line is replaced as if it stood alone. -/
theorem apply_unlines (s : Scope) (ls : List Text) :
    apply (s.withContent (Text.unlines ls)) =
      Text.unlines (ls.map fun l => apply (s.withContent l)) := by
  induction ls with
  | nil => rfl
  | cons l rest ih =>
      by_cases hrest : rest = []
      · rw [hrest]
        simp [Text.unlines, Text.join]
      · rw [Text.unlines_cons hrest, apply_append rfl, ih, List.map_cons,
          Text.unlines_cons (by simpa using hrest)]

/-! ## Lines -/

/-- Replacing score names changes an at sign here and there into a space, and nothing else. -/
theorem forall₂_replaceScoresFrom (position : ScorePosition) (t : Text) :
    List.Forall₂ (fun b b' => b' = b ∨ Text.isMargin b' = false) t
      (replaceScoresFrom position t) := by
  induction t generalizing position with
  | nil => exact .nil
  | cons b rest ih =>
      rw [replaceScoresFrom]
      split
      next => exact .cons (.inl rfl) (ih _)
      next =>
        split
        next => exact .cons (.inr rfl) (ih _)
        next => exact .cons (.inl rfl) (ih _)

/-- Replacing reserved tokens leaves a line flush. -/
theorem flush_apply {s : Scope} (hns : s.ns.Checked) (hname : ∀ b ∈ s.name, Text.isMargin b = false)
    {line : Text} (h : Flush line) : Flush (apply (s.withContent line)) := by
  have hwords : Flush (Text.replaceAll (ascii "$namespace") s.ns.name
      (Text.replaceAll (ascii "$this") s.reference line)) :=
    (h.replaceAll (hns.token_reference hname)).replaceAll hns.token
  have hhashes : Flush (replaceHashes _) :=
    hwords.replaceMatches fun _ _ _ hfound => token_of_hashToken? hfound
  exact hhashes.of_forall₂ (forall₂_replaceScoresFrom .outside _)

theorem madeOf_apply {s : Scope} (hns : s.ns.Checked)
    (hname : ∀ b ∈ s.name, Text.isMargin b = false) (h : MadeOf Flush s.content) :
    MadeOf Flush (apply s) := by
  obtain ⟨ls, hls, hcontent⟩ := h
  refine ⟨ls.map fun l => apply (s.withContent l), fun l hl => ?_, ?_⟩
  · obtain ⟨line, hline, rfl⟩ := List.mem_map.mp hl
    exact flush_apply hns hname (hls line hline)
  · rw [← apply_unlines, ← hcontent]
    rfl

end Substitution

end Packwright
