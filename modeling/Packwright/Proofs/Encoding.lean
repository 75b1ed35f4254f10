import Packwright.Proofs.Name

/-! # Reading text as UTF-8

A text is read from left to right. Where the encoding of a character stands, the character is read;
a byte at which no encoding starts is passed alone and counts as the replacement character
(`Reads`). Every text has exactly one reading, and it is the one that `chars` gives (`reads_iff`).
-/

namespace Packwright.Text

open String (utf8EncodeChar)

/-- The well-formed sequences: a first byte, the bytes that continue it, and the code of the
character. The bounds on the first two bytes leave out overlong forms, surrogates and codes beyond
the last one. -/
inductive Sequence : UInt8 → Text → Nat → Prop where
  | one {a : UInt8} {code : Nat} (ha : a.toNat < 0x80) (hcode : code = a.toNat) :
      Sequence a [] code
  | two {a b : UInt8} {code : Nat} (ha : 0xC2 ≤ a.toNat ∧ a.toNat ≤ 0xDF)
      (hb : isContinuation b = true)
      (hcode : code = (a.toNat - 0xC0) * 64 + continuationBits b) : Sequence a [b] code
  | three {a b c : UInt8} {code : Nat} (ha : 0xE0 ≤ a.toNat ∧ a.toNat ≤ 0xEF)
      (hb : (if a == 0xE0 then 0xA0 else 0x80 : UInt8) ≤ b ∧
        b ≤ (if a == 0xED then 0x9F else 0xBF : UInt8)) (hc : isContinuation c = true)
      (hcode : code = ((a.toNat - 0xE0) * 64 + continuationBits b) * 64 + continuationBits c) :
      Sequence a [b, c] code
  | four {a b c d : UInt8} {code : Nat} (ha : 0xF0 ≤ a.toNat ∧ a.toNat ≤ 0xF4)
      (hb : (if a == 0xF0 then 0x90 else 0x80 : UInt8) ≤ b ∧
        b ≤ (if a == 0xF4 then 0x8F else 0xBF : UInt8)) (hc : isContinuation c = true)
      (hd : isContinuation d = true)
      (hcode : code = (((a.toNat - 0xF0) * 64 + continuationBits b) * 64 + continuationBits c) * 64
        + continuationBits d) : Sequence a [b, c, d] code

theorem isContinuation_iff {b : UInt8} :
    isContinuation b = true ↔ 0x80 ≤ b.toNat ∧ b.toNat ≤ 0xBF := by
  simp only [isContinuation, Bool.and_eq_true, decide_eq_true_eq, UInt8.le_iff_toNat_le,
    UInt8.reduceToNat]

/-- The bounds on a second byte: one first byte raises the lower bound, another one lowers the upper
bound. -/
theorem second_byte_iff {a b raised low lowered high : UInt8} (hlow : 0x80 ≤ low.toNat)
    (hhigh : high.toNat ≤ 0xBF) :
    ((if a == raised then low else 0x80) ≤ b ∧ b ≤ if a == lowered then high else 0xBF) ↔
      (0x80 ≤ b.toNat ∧ b.toNat ≤ 0xBF) ∧ (a.toNat = raised.toNat → low.toNat ≤ b.toNat) ∧
        (a.toNat = lowered.toNat → b.toNat ≤ high.toNat) := by
  simp only [beq_iff_eq, ← UInt8.toNat_inj, UInt8.le_iff_toNat_le]
  split <;> split <;> simp_all <;> omega

/-- Reading finds exactly the well-formed sequences. -/
theorem sequenceAt_eq_some_iff {a : UInt8} {rest : Text} {c : Char} {more : Nat} :
    sequenceAt a rest = some (c, more) ↔
      ∃ tail y code, rest = tail ++ y ∧ more = tail.length ∧ c = Char.ofNat code ∧
        Sequence a tail code := by
  constructor
  · intro h
    unfold sequenceAt at h
    split at h
    next ha =>
      obtain ⟨rfl, rfl⟩ := Prod.mk.inj (Option.some.inj h)
      exact ⟨[], rest, _, rfl, rfl, rfl, .one (UInt8.lt_iff_toNat_lt.mp ha) rfl⟩
    next =>
      split at h
      next ha =>
        simp only [Bool.and_eq_true, decide_eq_true_eq, UInt8.le_iff_toNat_le] at ha
        split at h
        next b y =>
          obtain ⟨hb, h⟩ := Option.ite_none_right_eq_some.mp h
          obtain ⟨rfl, rfl⟩ := Prod.mk.inj (Option.some.inj h)
          exact ⟨[b], y, _, rfl, rfl, rfl, .two ha hb rfl⟩
        next => cases h
      next =>
        split at h
        next ha =>
          simp only [Bool.and_eq_true, decide_eq_true_eq, UInt8.le_iff_toNat_le] at ha
          split at h
          next b d y =>
            obtain ⟨hb, h⟩ := Option.ite_none_right_eq_some.mp h
            obtain ⟨rfl, rfl⟩ := Prod.mk.inj (Option.some.inj h)
            simp only [Bool.and_eq_true, decide_eq_true_eq] at hb
            exact ⟨[b, d], y, _, rfl, rfl, rfl, .three ha hb.1 hb.2 rfl⟩
          next => cases h
        next =>
          split at h
          next ha =>
            simp only [Bool.and_eq_true, decide_eq_true_eq, UInt8.le_iff_toNat_le] at ha
            split at h
            next b d e y =>
              obtain ⟨hb, h⟩ := Option.ite_none_right_eq_some.mp h
              obtain ⟨rfl, rfl⟩ := Prod.mk.inj (Option.some.inj h)
              simp only [Bool.and_eq_true, decide_eq_true_eq] at hb
              exact ⟨[b, d, e], y, _, rfl, rfl, rfl, .four ha hb.1.1 hb.1.2 hb.2 rfl⟩
            next => cases h
          next => cases h
  · rintro ⟨tail, y, code, rfl, rfl, rfl, h⟩
    have hrange : ∀ low high : UInt8, (decide (low ≤ a) && decide (a ≤ high)) = true ↔
        low.toNat ≤ a.toNat ∧ a.toNat ≤ high.toNat := by
      intro low high
      simp only [Bool.and_eq_true, decide_eq_true_eq, UInt8.le_iff_toNat_le]
    unfold sequenceAt
    simp only [hrange, UInt8.lt_iff_toNat_lt, UInt8.reduceToNat]
    cases h with
    | one ha hcode =>
        rw [if_pos ha, hcode]
        rfl
    | two ha hb hcode =>
        rw [if_neg (by omega), if_pos ha, hcode]
        exact if_pos hb
    | three ha hb hc hcode =>
        rw [if_neg (by omega), if_neg (by omega), if_pos ha, hcode]
        exact if_pos (by simp only [hb, hc, decide_true, Bool.and_true])
    | four ha hb hc hd hcode =>
        rw [if_neg (by omega), if_neg (by omega), if_neg (by omega), if_pos ha, hcode]
        exact if_pos (by simp only [hb, hc, hd, decide_true, Bool.and_true])

theorem toNat_charOfNat_of_valid {n : Nat} (h : n.isValidChar) : (Char.ofNat n).val.toNat = n :=
  congrArg Char.toNat (dif_pos h)

/-- A well-formed sequence is the encoding of its character. -/
theorem Sequence.encode {a : UInt8} {tail : Text} {code : Nat} (h : Sequence a tail code) :
    utf8EncodeChar (Char.ofNat code) = a :: tail := by
  have hvalid : code.isValidChar → (Char.ofNat code).val.toNat = code := toNat_charOfNat_of_valid
  unfold Nat.isValidChar at hvalid
  cases h with
  | one ha hcode =>
      rw [utf8EncodeChar, hvalid (by omega), hcode]
      simp only [if_pos (Nat.le_of_lt_succ ha), UInt8.ofNat_toNat]
  | two ha hb hcode =>
      rw [isContinuation_iff] at hb
      unfold continuationBits at hcode
      rw [utf8EncodeChar, hvalid (by omega), if_neg (by omega), if_pos (by omega)]
      simp only [List.cons.injEq, ← UInt8.toNat_inj, UInt8.toNat_ofNat', and_true]
      omega
  | three ha hb hc hcode =>
      -- The raised bound keeps out what two bytes encode, the lowered one the surrogates.
      obtain ⟨hb, hlow, hhigh⟩ := (second_byte_iff (by decide) (by decide)).mp hb
      rw [isContinuation_iff] at hc
      unfold continuationBits at hcode
      simp only [UInt8.reduceToNat] at hlow hhigh
      rw [utf8EncodeChar, hvalid (by omega), if_neg (by omega), if_neg (by omega),
        if_pos (by omega)]
      simp only [List.cons.injEq, ← UInt8.toNat_inj, UInt8.toNat_ofNat', and_true]
      clear hvalid hlow hhigh
      refine ⟨?_, ?_, ?_⟩ <;> omega
  | four ha hb hc hd hcode =>
      -- The raised bound keeps out what three bytes encode, the lowered one codes beyond the last.
      obtain ⟨hb, hlow, hhigh⟩ := (second_byte_iff (by decide) (by decide)).mp hb
      rw [isContinuation_iff] at hc hd
      unfold continuationBits at hcode
      simp only [UInt8.reduceToNat] at hlow hhigh
      rw [utf8EncodeChar, hvalid (by omega), if_neg (by omega), if_neg (by omega),
        if_neg (by omega)]
      simp only [List.cons.injEq, ← UInt8.toNat_inj, UInt8.toNat_ofNat', and_true]
      clear hvalid hlow hhigh
      refine ⟨?_, ?_, ?_, ?_⟩ <;> omega

/-- Every code of a character has a well-formed sequence. -/
theorem exists_sequence {v : Nat} (hvalid : v.isValidChar) : ∃ a tail, Sequence a tail v := by
  unfold Nat.isValidChar at hvalid
  have hbyte : ∀ n < 256, (UInt8.ofNat n).toNat = n := by
    intro n hn
    rw [UInt8.toNat_ofNat', Nat.mod_eq_of_lt hn]
  have hbits : ∀ n : Nat, isContinuation (UInt8.ofNat (n % 64 + 0x80)) = true ∧
      continuationBits (UInt8.ofNat (n % 64 + 0x80)) = n % 64 := by
    intro n
    have hb := hbyte (n % 64 + 0x80) (by omega)
    rw [isContinuation_iff]
    unfold continuationBits
    omega
  by_cases hone : v < 0x80
  · have ha := hbyte v (by omega)
    exact ⟨UInt8.ofNat v, [], .one (by omega) ha.symm⟩
  by_cases htwo : v < 0x800
  · have ha := hbyte (v / 64 + 0xC0) (by omega)
    refine ⟨UInt8.ofNat (v / 64 + 0xC0), _, .two (by omega) (hbits v).1 ?_⟩
    rw [ha, (hbits v).2]
    omega
  by_cases hthree : v < 0x10000
  · have ha := hbyte (v / 4096 + 0xE0) (by omega)
    have hb := hbyte (v / 64 % 64 + 0x80) (by omega)
    refine ⟨UInt8.ofNat (v / 4096 + 0xE0), [UInt8.ofNat (v / 64 % 64 + 0x80), _],
      .three (by omega) ?_ (hbits v).1 ?_⟩
    · rw [second_byte_iff (by decide) (by decide), ha, hb]
      simp only [UInt8.reduceToNat]
      omega
    · rw [ha, (hbits v).2, (hbits (v / 64)).2]
      omega
  · have ha := hbyte (v / 262144 + 0xF0) (by omega)
    have hb := hbyte (v / 4096 % 64 + 0x80) (by omega)
    refine ⟨UInt8.ofNat (v / 262144 + 0xF0), [UInt8.ofNat (v / 4096 % 64 + 0x80), _, _],
      .four (by omega) ?_ (hbits (v / 64)).1 (hbits v).1 ?_⟩
    · rw [second_byte_iff (by decide) (by decide), ha, hb]
      simp only [UInt8.reduceToNat]
      omega
    · rw [ha, (hbits v).2, (hbits (v / 64)).2, (hbits (v / 4096)).2]
      omega

/-- What starts at a byte: a character if and only if its encoding stands there. -/
theorem sequenceAt_eq_some_iff_encode {a : UInt8} {rest : Text} {c : Char} {more : Nat} :
    sequenceAt a rest = some (c, more) ↔
      ∃ tail y, rest = tail ++ y ∧ more = tail.length ∧ utf8EncodeChar c = a :: tail := by
  rw [sequenceAt_eq_some_iff]
  constructor
  · rintro ⟨tail, y, code, rfl, rfl, rfl, h⟩
    exact ⟨tail, y, rfl, rfl, h.encode⟩
  · rintro ⟨tail, y, rfl, rfl, h⟩
    obtain ⟨a', tail', hsequence⟩ := exists_sequence c.valid
    have hchar : Char.ofNat c.val.toNat = c := Char.ofNat_toNat c
    have hencode := hsequence.encode
    rw [hchar, h] at hencode
    cases hencode
    exact ⟨tail, y, c.val.toNat, rfl, rfl, hchar.symm, hsequence⟩

/-! ## Readings -/

/-- A text and the characters read from it. -/
inductive Reads : Text → List Char → Prop where
  | nil : Reads [] []
  | char (c : Char) {t : Text} {cs : List Char} (h : Reads t cs) :
      Reads (utf8EncodeChar c ++ t) (c :: cs)
  | stray {b : UInt8} {t : Text} {cs : List Char} (hb : ∀ c, ¬ utf8EncodeChar c <+: b :: t)
      (h : Reads t cs) : Reads (b :: t) ('\uFFFD' :: cs)

theorem piecesFrom_append (x y : Text) : piecesFrom x.length (x ++ y) = piecesFrom 0 y := by
  induction x with
  | nil => rfl
  | cons a x ih => exact ih

theorem chars_encode (c : Char) (t : Text) : chars (utf8EncodeChar c ++ t) = c :: chars t := by
  obtain ⟨a, tail, hencode⟩ := List.exists_cons_of_ne_nil
    (List.ne_nil_of_length_pos ((String.length_utf8EncodeChar c).symm ▸ c.utf8Size_pos))
  have hsequence : sequenceAt a (tail ++ t) = some (c, tail.length) :=
    sequenceAt_eq_some_iff_encode.mpr ⟨tail, t, rfl, rfl, hencode⟩
  rw [hencode, List.cons_append]
  simp only [chars, pieces, piecesFrom, hsequence, List.map_cons, Piece.toChar, piecesFrom_append]

theorem chars_stray {b : UInt8} {t : Text} (h : ∀ c, ¬ utf8EncodeChar c <+: b :: t) :
    chars (b :: t) = '\uFFFD' :: chars t := by
  have hsequence : sequenceAt b t = none := by
    cases hfound : sequenceAt b t with
    | none => rfl
    | some found =>
        obtain ⟨tail, y, rfl, -, hencode⟩ := sequenceAt_eq_some_iff_encode.mp hfound
        exact absurd ⟨y, by rw [hencode]; rfl⟩ (h found.1)
  simp only [chars, pieces, piecesFrom, hsequence, List.map_cons, Piece.toChar]

/-- Every text has exactly one reading. -/
theorem reads_iff {t : Text} {cs : List Char} : Reads t cs ↔ chars t = cs := by
  constructor
  · intro h
    induction h with
    | nil => rfl
    | char c _ ih => rw [chars_encode, ih]
    | stray hb _ ih => rw [chars_stray hb, ih]
  · rintro rfl
    -- A character may take several bytes, so the induction is on the length.
    induction hlength : t.length using Nat.strongRecOn generalizing t with
    | _ n ih =>
        subst hlength
        cases t with
        | nil => exact .nil
        | cons b rest =>
            by_cases hstray : ∀ c, ¬ utf8EncodeChar c <+: b :: rest
            · rw [chars_stray hstray]
              exact .stray hstray (ih _ (Nat.lt_succ_self _) rfl)
            · obtain ⟨c, y, hy⟩ := not_forall_not.mp hstray
              rw [← hy, chars_encode]
              refine .char c (ih _ ?_ rfl)
              have hpos := c.utf8Size_pos
              rw [← hy, List.length_append, String.length_utf8EncodeChar]
              omega

end Packwright.Text
