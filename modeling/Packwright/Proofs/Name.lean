import Mathlib.Data.List.Basic
import Packwright.Scope

/-! # Checked names

A name that passed its check consists of plain bytes: lower-case letters, digits, underscores and
hyphens, and slashes in a function name. So the colon of a reference divides it in one way only, and
references of checked namespaces are equal only for equal names (`reference_inj`).
-/

namespace Packwright

namespace Name

/-- The bytes of the characters that every kind of name may hold. -/
def isNameByte (b : UInt8) : Bool :=
  (97 ≤ b && b ≤ 122) || (48 ≤ b && b ≤ 57) || b == 95 || b == 45

theorem isNameByte_iff (b : UInt8) :
    isNameByte b = true ↔ (97 ≤ b.toNat ∧ b.toNat ≤ 122) ∨ (48 ≤ b.toNat ∧ b.toNat ≤ 57) ∨
      b.toNat = 95 ∨ b.toNat = 45 := by
  simp only [isNameByte, Bool.or_eq_true, Bool.and_eq_true, decide_eq_true_eq, beq_iff_eq,
    UInt8.le_iff_toNat_le, ← UInt8.toNat_inj, UInt8.reduceToNat, or_assoc]

/-- A character that a name may hold is the one of a name byte or, in a function name, the slash. -/
theorem code_of_allows {kind : NameKind} {c : Char} (h : allows kind c = true) :
    ((97 ≤ c.toNat ∧ c.toNat ≤ 122) ∨ (48 ≤ c.toNat ∧ c.toNat ≤ 57) ∨ c.toNat = 95 ∨
      c.toNat = 45) ∨ (kind = .function ∧ c.toNat = 47) := by
  simp only [allows, isNameChar, Bool.or_eq_true, Bool.and_eq_true, decide_eq_true_eq,
    beq_iff_eq, Char.le_def, UInt32.le_iff_toNat_le] at h
  rcases h with (((h | h) | rfl) | rfl) | ⟨hkind, rfl⟩
  · exact .inl (.inl h)
  · exact .inl (.inr (.inl h))
  · exact .inl (.inr (.inr (.inl rfl)))
  · exact .inl (.inr (.inr (.inr rfl)))
  · exact .inr ⟨hkind, rfl⟩

end Name

namespace Text

/-- The first occurrence of a byte divides a text in one way only. -/
theorem append_cons_inj {b : UInt8} {x x' y y' : Text} (hx : b ∉ x) (hx' : b ∉ x') :
    x ++ b :: y = x' ++ b :: y' ↔ x = x' ∧ y = y' := by
  constructor
  · intro h
    rcases List.append_eq_append_iff.mp h with ⟨z, rfl, hz⟩ | ⟨z, rfl, hz⟩
    · cases z with
      | nil => simpa using hz
      | cons c z =>
          obtain ⟨rfl, -⟩ := List.cons.inj hz
          simp at hx'
    · cases z with
      | nil => simpa using hz.symm
      | cons c z =>
          obtain ⟨rfl, -⟩ := List.cons.inj hz
          simp at hx
  · rintro ⟨rfl, rfl⟩
    rfl

/-- A number is the code of its character, unless it is the code of none. -/
theorem toNat_charOfNat (n : Nat) : (Char.ofNat n).toNat = n ∨ (Char.ofNat n).toNat = 0 := by
  by_cases h : n.isValidChar
  · exact .inl (congrArg Char.toNat (dif_pos h))
  · exact .inr (congrArg Char.toNat (dif_neg h))

theorem le_code_three {a b : Nat} (ha : 0xE0 ≤ a) (hb : a = 0xE0 → 0xA0 ≤ b) (c : Nat) :
    0x80 ≤ ((a - 0xE0) * 64 + (b - 0x80)) * 64 + (c - 0x80) := by
  omega

theorem le_code_four {a b : Nat} (ha : 0xF0 ≤ a) (hb : a = 0xF0 → 0x90 ≤ b) (c d : Nat) :
    0x80 ≤ (((a - 0xF0) * 64 + (b - 0x80)) * 64 + (c - 0x80)) * 64 + (d - 0x80) := by
  omega

/-- Only an ASCII byte starts a character with a small code that is not zero. -/
theorem sequenceAt_of_small {a : UInt8} {rest : Text} {c : Char} {more : Nat}
    (h : sequenceAt a rest = some (c, more)) (hpos : 0 < c.toNat) (hsmall : c.toNat < 0x80) :
    more = 0 ∧ c.toNat = a.toNat := by
  -- the sequences of more than one byte have codes from 0x80 on
  have hlarge : ∀ n m : Nat, 0x80 ≤ n → some (Char.ofNat n, m) ≠ some (c, more) := by
    intro n m hn hc
    obtain ⟨rfl, -⟩ := Prod.mk.inj (Option.some.inj hc)
    rcases toNat_charOfNat n with hcode | hcode <;> omega
  unfold sequenceAt at h
  split at h
  next hascii =>
    obtain ⟨rfl, rfl⟩ := Prod.mk.inj (Option.some.inj h)
    exact ⟨rfl, (toNat_charOfNat a.toNat).resolve_right (by omega)⟩
  next =>
    split at h
    next htwo =>
      split at h
      next b _ =>
        obtain ⟨-, h⟩ := Option.ite_none_right_eq_some.mp h
        refine absurd h (hlarge _ _ ?_)
        simp only [Bool.and_eq_true, decide_eq_true_eq, UInt8.le_iff_toNat_le,
          UInt8.reduceToNat] at htwo
        omega
      next => cases h
    next =>
      split at h
      next hthree =>
        split at h
        next b c' _ =>
          obtain ⟨hb, h⟩ := Option.ite_none_right_eq_some.mp h
          simp only [Bool.and_eq_true, decide_eq_true_eq, UInt8.le_iff_toNat_le,
            UInt8.reduceToNat] at hthree hb
          refine absurd h (hlarge _ _ (le_code_three hthree.1 (fun ha => ?_) c'.toNat))
          rw [UInt8.toNat_inj.mp (show a.toNat = (0xE0 : UInt8).toNat from ha)] at hb
          exact hb.1.1
        next => cases h
      next =>
        split at h
        next hfour =>
          split at h
          next b c' d _ =>
            obtain ⟨hb, h⟩ := Option.ite_none_right_eq_some.mp h
            simp only [Bool.and_eq_true, decide_eq_true_eq, UInt8.le_iff_toNat_le,
              UInt8.reduceToNat] at hfour hb
            refine absurd h (hlarge _ _ (le_code_four hfour.1 (fun ha => ?_) c'.toNat d.toNat))
            rw [UInt8.toNat_inj.mp (show a.toNat = (0xF0 : UInt8).toNat from ha)] at hb
            exact hb.1.1.1
          next => cases h
        next => cases h

/-- Text whose characters a name may hold consists of name bytes. -/
theorem isNameByte_of_chars {kind : NameKind} {t : Text}
    (h : ∀ c ∈ chars t, Name.allows kind c = true) :
    ∀ b ∈ t, Name.isNameByte b = true ∨ (kind = .function ∧ b = slash) := by
  induction t with
  | nil => simp
  | cons a rest ih =>
      simp only [chars, pieces, piecesFrom] at h
      cases hsequence : sequenceAt a rest with
      | none =>
          rw [hsequence] at h
          have hstray := h '\uFFFD' (by simp [Piece.toChar])
          exact absurd (Name.code_of_allows hstray) (by simp)
      | some found =>
          obtain ⟨c, more⟩ := found
          rw [hsequence] at h
          have hcode := Name.code_of_allows (h c (by simp [Piece.toChar]))
          obtain ⟨rfl, ha⟩ := sequenceAt_of_small hsequence (by omega) (by omega)
          intro b hb
          rcases List.mem_cons.mp hb with rfl | hrest
          · rw [ha] at hcode
            refine hcode.imp (Name.isNameByte_iff b).mpr (And.imp_right fun hslash => ?_)
            exact UInt8.toNat_inj.mp hslash
          · refine ih (fun c' hc' => h c' ?_) b hrest
            exact List.mem_cons_of_mem _ hc'

end Text

namespace Name

/-- A name that passed its check consists of name bytes. -/
theorem isNameByte_of_validate {kind : NameKind} {name : Text} (h : validate kind name = .ok ()) :
    ∀ b ∈ name, isNameByte b = true ∨ (kind = .function ∧ b = Text.slash) := by
  apply Text.isNameByte_of_chars
  intro c hc
  unfold validate at h
  split at h
  next => cases h
  next =>
    split at h
    next => cases h
    next hnone => simpa using List.find?_eq_none.mp hnone c hc

end Name

/-- A namespace whose name passed the check, as every namespace that a pack hands out. -/
def Namespace.Checked (ns : Namespace) : Prop := Name.validate .space ns.name = .ok ()

namespace Namespace

theorem checked_of_namespaceNamed {p : Pack} {name : Text} {ns : Namespace}
    (h : p.namespaceNamed name = .ok ns) : ns.Checked := by
  unfold Pack.namespaceNamed at h
  cases hname : Name.validate .space name with
  | error error => simp [hname, bind, Except.bind] at h
  | ok =>
      simp only [hname, bind, Except.bind, pure, Except.pure, Except.ok.injEq] at h
      subst h
      exact hname

theorem Checked.isNameByte {ns : Namespace} (h : ns.Checked) :
    ∀ b ∈ ns.name, Name.isNameByte b = true := by
  intro b hb
  rcases Name.isNameByte_of_validate h b hb with hbyte | ⟨hkind, -⟩
  · exact hbyte
  · cases hkind

theorem Checked.not_mem {ns : Namespace} (h : ns.Checked) {b : UInt8}
    (hb : Name.isNameByte b = false) : b ∉ ns.name := by
  intro hmem
  rw [h.isNameByte b hmem] at hb
  cases hb

/-- References are equal only for equal names in namespaces of equal names. -/
theorem reference_inj {ns ns' : Namespace} (h : ns.Checked) (h' : ns'.Checked) {name name' : Text} :
    ns.reference name = ns'.reference name' ↔ ns.name = ns'.name ∧ name = name' := by
  have hcolon : Name.isNameByte 58 = false := by decide
  simp only [reference, List.append_assoc]
  change ns.name ++ 58 :: name = ns'.name ++ 58 :: name' ↔ _
  exact Text.append_cons_inj (h.not_mem hcolon) (h'.not_mem hcolon)

end Namespace

end Packwright
