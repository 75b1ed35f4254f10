import Packwright.Proofs.Macro.Delivery

/-! # What the key of a call tells

Calls share a function if they have the same key. The key is the namespace, the macro and the
arguments, one after the other, with NUL bytes between them. A namespace has no NUL byte in its name
and an argument no space, so both are told apart in the key; but the name of a macro ends at any NUL
byte in it just as well as at the one behind it. So a key has one reading more for each NUL byte in
the name, in which the rest of the name is the beginning of the first argument, and two calls have
the same key exactly if they are readings of it (`keyOf_eq_iff_shifted`).
-/

namespace Packwright.Macro

open Text (ascii)

/-- Whether the name of the second macro goes on behind a NUL byte where that of the first one ends,
and the arguments of the first call start with the rest of that name. -/
def Shifted (callee : Text) (args : List Text) (callee' : Text) (args' : List Text) : Prop :=
  ∃ rest, callee' = callee ++ 0 :: rest ∧ args = (rest ++ 0 :: args'.headD []) :: args'.tail

theorem join_shifted (rest : Text) (args : List Text) :
    Text.join [Text.space] ((rest ++ 0 :: args.headD []) :: args.tail) =
      rest ++ 0 :: Text.join [Text.space] args := by
  match args with
  | [] => simp [Text.join]
  | [a] => simp [Text.join]
  | a :: b :: more => simp [Text.join, List.intercalate_cons_cons]

namespace Shifted

variable {callee callee' : Text} {args args' : List Text}

/-- Both readings of a key are written the same. -/
theorem join_eq (h : Shifted callee args callee' args') :
    callee ++ 0 :: Text.join [Text.space] args =
      callee' ++ 0 :: Text.join [Text.space] args' := by
  obtain ⟨rest, rfl, rfl⟩ := h
  rw [join_shifted, List.append_assoc, List.cons_append]

theorem nul_mem_callee (h : Shifted callee args callee' args') : 0 ∈ callee' := by
  obtain ⟨rest, rfl, -⟩ := h
  simp

theorem nul_mem_args (h : Shifted callee args callee' args') : ∃ a ∈ args, 0 ∈ a := by
  obtain ⟨rest, -, rfl⟩ := h
  exact ⟨_, List.mem_cons_self, by simp⟩

/-- Where the name of one macro goes on behind that of the other, a key that is written the same is
read in two ways. -/
theorem of_join_eq {more : Text} (hcallee' : Text.IsField (callee ++ more))
    (hargs : ∀ a ∈ args, Text.IsField a) (hargs' : ∀ a ∈ args', Text.IsField a)
    (h : 0 :: Text.join [Text.space] args = more ++ 0 :: Text.join [Text.space] args') :
    more = [] ∧ args = args' ∨ Shifted callee args (callee ++ more) args' := by
  cases more with
  | nil => exact .inl ⟨rfl, Text.join_space_inj hargs hargs' (List.cons.inj h).2⟩
  | cons b rest =>
      obtain ⟨rfl, hjoin⟩ := List.cons.inj h
      refine .inr ⟨rest, rfl, Text.join_space_inj hargs (fun a ha => ?_)
        (hjoin.trans (join_shifted rest args').symm)⟩
      rcases List.mem_cons.mp ha with rfl | ha
      · -- the rest of a name and an argument are free of blanks, and so is the byte between them
        refine ⟨by simp, fun b hb => ?_⟩
        rcases List.mem_append.mp hb with hb | hb
        · exact hcallee'.blank b (by simp [hb])
        · rcases List.mem_cons.mp hb with rfl | hb
          · rfl
          · cases args' with
            | nil => cases hb
            | cons a' more => exact (hargs' a' List.mem_cons_self).blank b hb
      · exact hargs' a (List.mem_of_mem_tail ha)

end Shifted

/-- Two calls in checked namespaces have the same key exactly if the namespaces have the same name
and the calls are the same, or one of them is the other one with its macro and first argument cut
apart at another NUL byte. So the key tells what is called unless the name of a macro holds a NUL
byte, and unless an argument does. -/
theorem keyOf_eq_iff_shifted (ns ns' : Namespace) (hns : ns.Checked) (hns' : ns'.Checked)
    (payload payload' callee callee' : Text) (args args' : List Text)
    (hfields : Text.fields payload = callee :: args)
    (hfields' : Text.fields payload' = callee' :: args') :
    (Call.keyOf ns callee args = Call.keyOf ns' callee' args' ↔
      ns.name = ns'.name ∧ (callee = callee' ∧ args = args' ∨
        Shifted callee args callee' args' ∨ Shifted callee' args' callee args)) ∧
    ((0 ∉ callee ∧ 0 ∉ callee') ∨ (∀ a ∈ args ++ args', 0 ∉ a) →
      Call.keyOf ns callee args = Call.keyOf ns' callee' args' →
      ns.name = ns'.name ∧ callee = callee' ∧ args = args') := by
  have hkey : ∀ (ns : Namespace) (callee : Text) (args : List Text), Call.keyOf ns callee args =
      ns.name ++ 0 :: (callee ++ 0 :: Text.join [Text.space] args) := by
    intro ns callee args
    simp [Call.keyOf]
  have hfield : ∀ w ∈ callee :: args, Text.IsField w :=
    fun w hw => (Text.isField_of_mem_fields (hfields ▸ hw)).1
  have hfield' : ∀ w ∈ callee' :: args', Text.IsField w :=
    fun w hw => (Text.isField_of_mem_fields (hfields' ▸ hw)).1
  rw [List.forall_mem_cons] at hfield hfield'
  have hiff : Call.keyOf ns callee args = Call.keyOf ns' callee' args' ↔
      ns.name = ns'.name ∧ (callee = callee' ∧ args = args' ∨
        Shifted callee args callee' args' ∨ Shifted callee' args' callee args) := by
    constructor
    · intro heq
      have hname := Call.ns_name_of_key hns hns' heq
      rw [hkey, hkey, hname, List.append_cancel_left_eq] at heq
      refine ⟨hname, ?_⟩
      rcases List.append_eq_append_iff.mp (List.cons.inj heq).2 with ⟨more, rfl, h⟩ | ⟨more, rfl, h⟩
      · rcases Shifted.of_join_eq hfield'.1 hfield.2 hfield'.2 h with ⟨rfl, hargs⟩ | hshifted
        · exact .inl ⟨(List.append_nil _).symm, hargs⟩
        · exact .inr (.inl hshifted)
      · rcases Shifted.of_join_eq hfield.1 hfield'.2 hfield.2 h with ⟨rfl, hargs⟩ | hshifted
        · exact .inl ⟨List.append_nil _, hargs.symm⟩
        · exact .inr (.inr hshifted)
    · rintro ⟨hname, ⟨rfl, rfl⟩ | hshifted | hshifted⟩
      · rw [hkey, hkey, hname]
      · rw [hkey, hkey, hname, hshifted.join_eq]
      · rw [hkey, hkey, hname, hshifted.join_eq]
  refine ⟨hiff, fun hnul heq => ?_⟩
  obtain ⟨hname, hsame | hshifted | hshifted⟩ := hiff.mp heq
  · exact ⟨hname, hsame⟩
  · obtain ⟨a, ha, hmem⟩ := hshifted.nul_mem_args
    rcases hnul with hnul | hnul
    · exact absurd hshifted.nul_mem_callee hnul.2
    · exact absurd hmem (hnul a (List.mem_append_left _ ha))
  · obtain ⟨a, ha, hmem⟩ := hshifted.nul_mem_args
    rcases hnul with hnul | hnul
    · exact absurd hshifted.nul_mem_callee hnul.1
    · exact absurd hmem (hnul a (List.mem_append_right _ ha))

/-- Calls of two macros, the name of one of which goes on behind a NUL byte where the other one
ends. -/
def nulCalls : Scope :=
  let ns : Namespace := ⟨{ path := ascii "packs/p", name := ascii "p" }, ascii "ns"⟩
  ⟨ns, ascii "main", Text.unlines [ascii "generate function a x", ascii "\twith scope",
    ascii "\tsay x", ascii "generate function a\x00b", ascii "\twith scope", ascii "\tsay other",
    ascii "call a b\x00", ascii "call a\x00b"]⟩

/-- Different calls have the same key, so the function of the first one is called for both, and none
is made for the second. -/
theorem keyOf_collides :
    nulCalls.ns.Checked ∧
    Text.fields (ascii " a b\x00") = [ascii "a", ascii "b\x00"] ∧
    Text.fields (ascii " a\x00b") = [ascii "a\x00b"] ∧
    ascii "a" ≠ ascii "a\x00b" ∧
    Call.keyOf nulCalls.ns (ascii "a") [ascii "b\x00"] =
      Call.keyOf nulCalls.ns (ascii "a\x00b") [] ∧
    (Stage.macros.run {} [nulCalls]).state.2.scopes.map Scope.content =
      [ascii "function ns:_/ff/ff/ff/ff\nfunction ns:_/ff/ff/ff/ff", ascii "say b\x00"] := by
  unfold Namespace.Checked
  decide +kernel

/-- A name with two NUL bytes in it is cut apart at the second one. -/
theorem keyOf_eq_iff_shifted_twice :
    nulCalls.ns.Checked ∧
    Text.fields (ascii "a\x00b\x00c d e") = [ascii "a\x00b\x00c", ascii "d", ascii "e"] ∧
    Text.fields (ascii "a\x00b c\x00d e") = [ascii "a\x00b", ascii "c\x00d", ascii "e"] ∧
    Call.keyOf nulCalls.ns (ascii "a\x00b\x00c") [ascii "d", ascii "e"] =
      Call.keyOf nulCalls.ns (ascii "a\x00b") [ascii "c\x00d", ascii "e"] := by
  have hns : nulCalls.ns.Checked := by
    unfold Namespace.Checked
    decide +kernel
  have hfields : Text.fields (ascii "a\x00b\x00c d e") =
      [ascii "a\x00b\x00c", ascii "d", ascii "e"] := by decide +kernel
  have hfields' : Text.fields (ascii "a\x00b c\x00d e") =
      [ascii "a\x00b", ascii "c\x00d", ascii "e"] := by decide +kernel
  refine ⟨hns, hfields, hfields', ?_⟩
  refine (keyOf_eq_iff_shifted _ _ hns hns _ _ _ _ _ _ hfields hfields').1.mpr ⟨rfl, .inr (.inr ?_)⟩
  exact ⟨ascii "c", by decide, by decide⟩

end Packwright.Macro
