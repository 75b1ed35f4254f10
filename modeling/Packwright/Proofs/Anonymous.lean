import Mathlib.Algebra.Group.Nat.Defs
import Packwright.Anonymous
import Packwright.Proofs.Name
import Packwright.Proofs.Text

/-! # Fresh names

Each id has a name of its own (`name_injective`), and an allocator never hands out an id twice: the
ids that it has handed out lie farther from its last one than the id it hands out next
(`draw_fresh`).
-/

namespace Packwright

namespace Text

theorem hexDigit_injective {m n : Nat} (hm : m < 16) (hn : n < 16)
    (h : hexDigit m = hexDigit n) : m = n := by
  have hall : ∀ m < 16, ∀ n < 16, hexDigit m = hexDigit n → m = n := by decide
  exact hall m hm n hn h

/-- Two hexadecimal digits tell a byte. -/
theorem hex_two_injective {m n : Nat} (hm : m < 256) (hn : n < 256) (h : hex 2 m = hex 2 n) :
    m = n := by
  simp only [hex, List.nil_append, List.cons_append, List.cons.injEq, and_true] at h
  have hhigh := hexDigit_injective (Nat.mod_lt _ (by decide)) (Nat.mod_lt _ (by decide)) h.1
  have hlow := hexDigit_injective (Nat.mod_lt _ (by decide)) (Nat.mod_lt _ (by decide)) h.2
  omega

end Text

namespace Anonymous

theorem name_eq (id : UInt32) :
    name id = Text.ascii "_" ++ Text.slash :: (Text.hex 2 ((id.toNat >>> 24) % 256) ++
      Text.slash :: (Text.hex 2 ((id.toNat >>> 16) % 256) ++
      Text.slash :: (Text.hex 2 ((id.toNat >>> 8) % 256) ++
      Text.slash :: Text.hex 2 ((id.toNat >>> 0) % 256)))) := rfl

theorem length_hex (width n : Nat) : (Text.hex width n).length = width := by
  induction width generalizing n with
  | zero => rfl
  | succ width ih => simp [Text.hex, ih]

theorem name_injective {id id' : UInt32} (h : name id = name id') : id = id' := by
  have hbyte : ∀ n : Nat, n % 256 < 256 := fun n => Nat.mod_lt n (by decide)
  rw [name_eq, name_eq, List.append_cancel_left_eq] at h
  simp only [List.cons.injEq, true_and] at h
  obtain ⟨h24, h⟩ := List.append_inj h (by simp only [length_hex])
  simp only [List.cons.injEq, true_and] at h
  obtain ⟨h16, h⟩ := List.append_inj h (by simp only [length_hex])
  simp only [List.cons.injEq, true_and] at h
  obtain ⟨h8, h0⟩ := List.append_inj h (by simp only [length_hex])
  simp only [List.cons.injEq, true_and] at h0
  have h24 := Text.hex_two_injective (hbyte _) (hbyte _) h24
  have h16 := Text.hex_two_injective (hbyte _) (hbyte _) h16
  have h8 := Text.hex_two_injective (hbyte _) (hbyte _) h8
  have h0 := Text.hex_two_injective (hbyte _) (hbyte _) h0
  have hid := id.toNat_lt
  have hid' := id'.toNat_lt
  apply UInt32.toNat_inj.mp
  simp only [Nat.shiftRight_eq_div_pow] at h24 h16 h8 h0
  omega

/-- A reference tells the id of a generated function, whatever the namespace. -/
theorem id_of_reference {ns ns' : Namespace} {id id' : UInt32}
    (h : ns.reference (name id) = ns'.reference (name id')) : id = id' := by
  have hlength : (name id).length = (name id').length := by
    rw [name_eq, name_eq]
    simp only [List.length_append, List.length_cons, length_hex]
  exact name_injective (List.append_inj_right' h hlength)

theorem isNameByte_of_mem_hex {width n : Nat} {b : UInt8} (h : b ∈ Text.hex width n) :
    Name.isNameByte b = true := by
  have hdigit : ∀ n < 16, Name.isNameByte (Text.hexDigit n) = true := by decide
  induction width generalizing n with
  | zero => cases h
  | succ width ih =>
      rcases List.mem_append.mp h with h | h
      · exact ih h
      · rw [List.mem_singleton.mp h]
        exact hdigit _ (Nat.mod_lt _ (by decide))

theorem isNameByte_of_mem {id : UInt32} {b : UInt8} (h : b ∈ name id) :
    Name.isNameByte b = true ∨ b = Text.slash := by
  have hunderscore : ∀ b ∈ Text.ascii "_", Name.isNameByte b = true := by decide +kernel
  rw [name_eq] at h
  simp only [List.mem_append, List.mem_cons] at h
  rcases h with h | rfl | h | rfl | h | rfl | h | rfl | h
  · exact .inl (hunderscore b h)
  · exact .inr rfl
  · exact .inl (isNameByte_of_mem_hex h)
  · exact .inr rfl
  · exact .inl (isNameByte_of_mem_hex h)
  · exact .inr rfl
  · exact .inl (isNameByte_of_mem_hex h)
  · exact .inr rfl
  · exact .inl (isNameByte_of_mem_hex h)

/-- What the references of generated functions hold and others need not. -/
def mark : Text := Text.ascii ":_/"

theorem mark_infix_reference (ns : Namespace) (id : UInt32) :
    mark <:+: ns.reference (name id) := by
  refine ⟨ns.name, Text.hex 2 ((id.toNat >>> 24) % 256) ++
      Text.slash :: (Text.hex 2 ((id.toNat >>> 16) % 256) ++
      Text.slash :: (Text.hex 2 ((id.toNat >>> 8) % 256) ++
      Text.slash :: Text.hex 2 ((id.toNat >>> 0) % 256))), ?_⟩
  rw [Namespace.reference, name_eq]
  simp [mark]
  rfl

end Anonymous

namespace Namespace.Checked

variable {ns : Namespace} {id : UInt32}

/-- The references of generated functions are made of name bytes, slashes and a colon. -/
theorem not_mem_reference (h : ns.Checked) {b : UInt8} (hbyte : Name.isNameByte b = false)
    (hslash : b ≠ Text.slash) (hcolon : b ≠ 58) : b ∉ ns.reference (Anonymous.name id) := by
  have hsingle : Text.ascii ":" = [58] := by decide
  intro hb
  simp only [Namespace.reference, List.mem_append, hsingle, List.mem_singleton] at hb
  rcases hb with (hb | hb) | hb
  · exact h.not_mem hbyte hb
  · exact hcolon hb
  · rcases Anonymous.isNameByte_of_mem hb with hname | hb
    · rw [hname] at hbyte
      cases hbyte
    · exact hslash hb

theorem isField_reference (h : ns.Checked) : Text.IsField (ns.reference (Anonymous.name id)) := by
  refine ⟨fun hnil => ?_, fun b hb => ?_⟩
  · have hmark := Anonymous.mark_infix_reference ns id
    rw [hnil] at hmark
    exact absurd (List.infix_nil.mp hmark) (by decide)
  · by_contra hblank
    rcases Text.eq_of_isBlank (by simpa using hblank) with rfl | rfl
    · exact h.not_mem_reference (by decide) (by decide) (by decide) hb
    · exact h.not_mem_reference (by decide) (by decide) (by decide) hb

end Namespace.Checked

namespace Allocator

/-- An id that an allocator does not hand out any more. -/
def Used (a : Allocator) (id : UInt32) : Prop :=
  a.exhausted = true ∨ a.direction.distance a.next a.last < a.direction.distance id a.last

/-- The name that is drawn next is the one of an id not used before, and the id is used then. -/
theorem draw_fresh {a b : Allocator} {name : Text} (h : a.draw = some (name, b)) :
    ∃ id, name = Anonymous.name id ∧ ¬ a.Used id ∧ b.Used id ∧ ∀ id', a.Used id' → b.Used id' := by
  have hremaining := remaining_draw h
  unfold draw at h
  split at h
  next => cases h
  next hfresh =>
    have hunused : ¬ a.Used a.next := by simp [Used, hfresh]
    split at h
    next =>
      cases h
      exact ⟨a.next, rfl, hunused, .inl rfl, fun _ _ => .inl rfl⟩
    next =>
      cases h
      simp only [remaining, hfresh, Bool.false_eq_true, if_false] at hremaining
      refine ⟨a.next, rfl, hunused, .inr ?_, fun id' hused => .inr ?_⟩
      · exact Nat.lt_of_succ_le (Nat.le_of_eq (Nat.succ.inj hremaining))
      · have := hused.resolve_left hfresh
        dsimp only
        omega

/-- The id drawn is the next one. Its distance from the last id tells how many ids remain. -/
theorem draw_next {a b : Allocator} {name : Text} (h : a.draw = some (name, b)) :
    b.direction = a.direction ∧ b.last = a.last ∧ name = Anonymous.name a.next ∧
      a.direction.distance a.next a.last + 1 = a.remaining := by
  unfold draw at h
  split at h
  next => cases h
  next hfresh =>
    have hremaining : a.direction.distance a.next a.last + 1 = a.remaining := by
      simp [remaining, hfresh]
    split at h
    next => cases h; exact ⟨rfl, rfl, rfl, hremaining⟩
    next => cases h; exact ⟨rfl, rfl, rfl, hremaining⟩

theorem remaining_descending : descending.remaining = 2 ^ 31 := by decide

/-- The two halves of the id space have no id in common. -/
theorem used_ascending {id : UInt32} (h : ¬ descending.Used id) : ascending.Used id := by
  have hid := id.toNat_lt
  simp only [Used, ascending, descending, Direction.distance, Bool.false_eq_true, false_or,
    UInt32.toNat_sub, UInt32.reduceToNat] at h ⊢
  omega

end Allocator

end Packwright
