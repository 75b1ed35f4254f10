import Packwright.Proofs.Drawing
import Packwright.Proofs.Encoding
import Packwright.Proofs.Path

/-! # The grammar of names

A segment is a non-empty string of lower-case letters, digits, underscores and hyphens. The name of
a function is one segment or several with slashes between them, every other name is one segment. The
check of a name accepts exactly this grammar, and a refusal reports the first character that no name
of the kind may hold, or the slash if there is none.
-/

namespace Packwright

open Text (ascii)

/-- A byte of joined parts is one of a part or of the separator. -/
theorem Text.mem_join {separator : Text} {parts : List Text} {b : UInt8}
    (h : b ∈ join separator parts) : b ∈ separator ∨ ∃ part ∈ parts, b ∈ part := by
  induction parts with
  | nil => cases h
  | cons part rest ih =>
      cases rest with
      | nil =>
          rw [join, List.intercalate_singleton] at h
          exact .inr ⟨part, List.mem_cons_self, h⟩
      | cons next rest =>
          rw [join, List.intercalate_cons_cons, List.mem_append, List.mem_append] at h
          rcases h with (h | h) | h
          · exact .inr ⟨part, List.mem_cons_self, h⟩
          · exact .inl h
          · refine (ih h).imp_right ?_
            rintro ⟨other, hother, hb⟩
            exact ⟨other, List.mem_cons_of_mem _ hother, hb⟩

/-- The characters of a segment. -/
def segmentAlphabet : String := "abcdefghijklmnopqrstuvwxyz0123456789_-"

/-- The characters that a kind of name may hold. -/
def NameKind.characters (kind : NameKind) : List Char :=
  segmentAlphabet.toList ++ if kind = .function then ['/'] else []

namespace Name

/-- A part of a name between slashes. -/
structure IsSegment (s : Text) : Prop where
  ne_nil : s ≠ []
  bytes : s ⊆ ascii segmentAlphabet

/-- The character that a refusal reports, given those of the name: the first one that no name of the
kind may hold, or else the slash. -/
inductive Blames (kind : NameKind) (cs : List Char) : Char → Prop where
  | outside {before after : List Char} {c : Char} (hcs : cs = before ++ c :: after)
      (hbefore : before ⊆ kind.characters) (hc : c ∉ kind.characters) : Blames kind cs c
  | slash (hcs : cs ⊆ kind.characters) : Blames kind cs '/'

/-- The codes of the characters of a segment, in their order. -/
def segmentCodes : List Nat := List.range' 97 26 ++ List.range' 48 10 ++ [95, 45]

theorem mem_segmentCodes_iff {n : Nat} :
    n ∈ segmentCodes ↔ (97 ≤ n ∧ n ≤ 122) ∨ (48 ≤ n ∧ n ≤ 57) ∨ n = 95 ∨ n = 45 := by
  simp only [segmentCodes, List.mem_append, List.mem_range'_1, List.mem_cons, List.not_mem_nil,
    or_false]
  omega

theorem mem_segmentAlphabet_iff {b : UInt8} : b ∈ ascii segmentAlphabet ↔ isNameByte b = true := by
  have hcodes : ascii segmentAlphabet = segmentCodes.map Nat.toUInt8 := by decide +kernel
  rw [hcodes, List.mem_map, isNameByte_iff, ← mem_segmentCodes_iff]
  constructor
  · rintro ⟨n, hn, rfl⟩
    have hn' := mem_segmentCodes_iff.mp hn
    rwa [Nat.toUInt8, UInt8.toNat_ofNat', Nat.mod_eq_of_lt (by omega)]
  · intro hb
    exact ⟨b.toNat, hb, UInt8.ofNat_toNat⟩

theorem isNameChar_iff {c : Char} : isNameChar c = true ↔ c ∈ segmentAlphabet.toList := by
  have hcodes : segmentAlphabet.toList = segmentCodes.map Char.ofNat := by decide +kernel
  have hname : isNameChar c = true ↔ c.toNat ∈ segmentCodes := by
    rw [mem_segmentCodes_iff]
    simp only [isNameChar, Bool.or_eq_true, Bool.and_eq_true, decide_eq_true_eq, beq_iff_eq,
      Char.le_def, UInt32.le_iff_toNat_le, ← Char.toNat_inj, or_assoc]
    rfl
  rw [hname, hcodes, List.mem_map]
  constructor
  · intro hc
    exact ⟨c.toNat, hc, Char.ofNat_toNat c⟩
  · rintro ⟨n, hn, rfl⟩
    have hn' := mem_segmentCodes_iff.mp hn
    have hcode : (Char.ofNat n).toNat = n := Text.toNat_charOfNat_of_valid (.inl (by omega))
    rwa [hcode]

theorem allows_iff {kind : NameKind} {c : Char} : allows kind c = true ↔ c ∈ kind.characters := by
  rw [allows, Bool.or_eq_true, isNameChar_iff, NameKind.characters, List.mem_append]
  by_cases hkind : kind = .function <;> simp [hkind]

/-! ## Accepted names -/

/-- A segment holds no slash, so it is one part. -/
theorem IsSegment.slash_not_mem {s : Text} (h : IsSegment s) : Text.slash ∉ s := by
  intro hmem
  exact absurd (mem_segmentAlphabet_iff.mp (h.bytes hmem)) (by decide)

theorem IsSegment.validate {s : Text} (h : IsSegment s) (kind : NameKind) :
    Name.validate kind s = .ok () := by
  apply validate_eq_ok h.ne_nil
  · intro b hb
    exact .inl (mem_segmentAlphabet_iff.mp (h.bytes hb))
  · rw [List.splitOn_eq_singleton h.slash_not_mem, List.mem_singleton]
    exact h.ne_nil.symm

/-- Segments with slashes between them are the name of a function. -/
theorem validate_join {segments : List Text} (hne : segments ≠ [])
    (h : ∀ s ∈ segments, IsSegment s) :
    validate .function (Text.join (ascii "/") segments) = .ok () := by
  have hsplit : (Text.join (ascii "/") segments).splitOn Text.slash = segments :=
    List.splitOn_intercalate _ (fun s hs => (h s hs).slash_not_mem) hne
  have hnil : [] ∉ segments := fun hmem => (h [] hmem).ne_nil rfl
  apply validate_eq_ok
  · intro hjoin
    rw [hjoin] at hsplit
    exact hnil (hsplit ▸ List.mem_singleton.mpr rfl)
  · intro b hb
    rcases Text.mem_join hb with hslash | ⟨s, hs, hb⟩
    · exact .inr ⟨rfl, List.mem_singleton.mp hslash⟩
    · exact .inl (mem_segmentAlphabet_iff.mp ((h s hs).bytes hb))
  · rw [hsplit]
    exact hnil

/-- The parts of an accepted name are segments. -/
theorem isSegment_of_mem_splitOn {name s : Text} (h : validate .function name = .ok ())
    (hs : s ∈ name.splitOn Text.slash) : IsSegment s := by
  obtain ⟨hslash, hsubset⟩ := Text.of_mem_splitOn hs
  constructor
  · rintro rfl
    exact nil_not_mem_splitOn h hs
  · intro b hb
    rcases isNameByte_of_validate h b (hsubset hb) with hbyte | ⟨-, rfl⟩
    · exact mem_segmentAlphabet_iff.mpr hbyte
    · exact absurd hb hslash

theorem isSegment_of_validate {kind : NameKind} (hkind : kind ≠ .function) {name : Text}
    (h : validate kind name = .ok ()) : IsSegment name := by
  refine ⟨ne_nil_of_validate h, ?_⟩
  intro b hb
  rcases isNameByte_of_validate h b hb with hbyte | ⟨hfunction, -⟩
  · exact mem_segmentAlphabet_iff.mpr hbyte
  · exact absurd hfunction hkind

/-! ## Refused names -/

/-- A refusal names what was checked, and the first character at fault unless the name is empty. -/
theorem blames_of_validate {kind : NameKind} {name : Text} {e : NameError}
    (h : validate kind name = .error e) :
    e = ⟨kind, name, none⟩ ∧ name = [] ∨
      ∃ c, e = ⟨kind, name, some c⟩ ∧ name ≠ [] ∧ Blames kind (Text.chars name) c := by
  unfold validate at h
  split at h
  next hnil =>
    cases h
    exact .inl ⟨rfl, List.isEmpty_iff.mp hnil⟩
  next hne =>
    rw [List.isEmpty_iff] at hne
    right
    split at h
    next c hfind =>
      cases h
      obtain ⟨hc, before, after, hchars, hbefore⟩ := List.find?_eq_some_iff_append.mp hfind
      refine ⟨c, rfl, hne, .outside hchars ?_ ?_⟩
      · intro d hd
        exact allows_iff.mp (by simpa using hbefore d hd)
      · rw [← allows_iff]
        simpa using hc
    next hfind =>
      split at h
      next =>
        cases h
        refine ⟨'/', rfl, hne, .slash ?_⟩
        intro d hd
        exact allows_iff.mp (by simpa using List.find?_eq_none.mp hfind d hd)
      next => cases h

/-- The check accepts exactly the grammar: for a function one or more segments with slashes between
them, for any other kind one segment. A refusal of a name that is not empty reports the first
character outside the characters of the kind, where a byte that belongs to no character is read as
the replacement character, and the slash if all characters are inside. -/
theorem validate_accepts_grammar (name : Text) :
    (validate .function name = .ok () ↔
      ∃ segments : List Text, segments ≠ [] ∧ (∀ s ∈ segments, IsSegment s) ∧
        name = Text.join (ascii "/") segments) ∧
    (∀ kind : NameKind, kind ≠ .function → (validate kind name = .ok () ↔ IsSegment name)) ∧
    ∀ (kind : NameKind) (e : NameError), validate kind name = .error e →
      e.kind = kind ∧ e.name = name ∧ (name = [] → e.char = none) ∧
        (name ≠ [] → ∃ cs c, Text.Reads name cs ∧ Blames kind cs c ∧ e.char = some c) := by
  refine ⟨⟨?_, ?_⟩, ?_, ?_⟩
  · intro h
    refine ⟨name.splitOn Text.slash, List.splitOn_ne_nil _ _, ?_, ?_⟩
    · intro s hs
      exact isSegment_of_mem_splitOn h hs
    · exact (List.intercalate_splitOn Text.slash).symm
  · rintro ⟨segments, hne, hsegments, rfl⟩
    exact validate_join hne hsegments
  · intro kind hkind
    exact ⟨isSegment_of_validate hkind, fun h => h.validate kind⟩
  · intro kind e h
    rcases blames_of_validate h with ⟨rfl, hnil⟩ | ⟨c, rfl, hne, hc⟩
    · exact ⟨rfl, rfl, fun _ => rfl, fun hne => absurd hnil hne⟩
    · exact ⟨rfl, rfl, fun hnil => absurd hnil hne,
        fun _ => ⟨Text.chars name, c, Text.reads_iff.mpr rfl, hc, rfl⟩⟩

/-- A stray byte is at fault before the slash at the end. A namespace may start with a hyphen. -/
theorem validate_accepts_grammar_stray :
    (∃ cs, Text.Reads (ascii "dir/a" ++ [0xC3] ++ ascii "/") cs ∧
      Blames .function cs '\uFFFD') ∧
    validate .space (ascii "-my_ns2") = .ok () := by
  have hrefused : validate .function (ascii "dir/a" ++ [0xC3] ++ ascii "/") =
      .error ⟨.function, ascii "dir/a" ++ [0xC3] ++ ascii "/", some '\uFFFD'⟩ := by decide
  obtain ⟨-, -, -, hchar⟩ := (validate_accepts_grammar _).2.2 _ _ hrefused
  obtain ⟨cs, c, hreads, hblames, hc⟩ := hchar (by decide)
  obtain rfl := Option.some.inj hc
  have hsegment : IsSegment (ascii "-my_ns2") := ⟨by decide, by decide⟩
  exact ⟨⟨cs, hreads, hblames⟩,
    ((validate_accepts_grammar _).2.1 .space (by decide)).mpr hsegment⟩

end Name

end Packwright
