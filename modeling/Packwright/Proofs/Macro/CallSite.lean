import Packwright.Macro.Expansion
import Packwright.Proofs.Name
import Packwright.Proofs.Text

/-! # Lines that call

A call divides its line into a lead, the keyword and a payload. The lead holds no call and ends in a
blank, or is empty, so what comes after it is read as if it stood alone (`parse?_append`). This is
why a body can be put behind the lead of a call, and why the function call written for a macro call
is no macro call itself (`parse?_callLine`).
-/

namespace Packwright.Macro

open Text (ascii EndsBlank IsField)

namespace CallSite

/-- The call site behind more text. -/
def behind (lead : Text) (site : CallSite) : CallSite := { site with lead := lead ++ site.lead }

/-- Whether a text starts with the keyword of a call as a whole word. -/
def atCall (t : Text) : Bool := callWord.isPrefixOf t && endsWord (t.drop callWord.length)

theorem find?_cons (wordStart : Bool) (b : UInt8) (rest : Text) :
    find? wordStart (b :: rest) =
      if wordStart && atCall (b :: rest) then some ⟨[], (b :: rest).drop callWord.length⟩
      else (find? (Text.isBlank b) rest).map (behind [b]) := by
  rw [find?, atCall, Bool.and_assoc]
  rfl

/-- The keyword does not reach across a blank. -/
theorem atCall_append {b : UInt8} {t : Text} (h : EndsBlank (b :: t)) (y : Text) :
    atCall (b :: t ++ y) = atCall (b :: t) := by
  have hlast : ∀ c : UInt8, Text.isBlank c = true →
      (99 == c) = false ∧ (97 == c) = false ∧ (108 == c) = false := by
    intro c hc
    rcases Text.eq_of_isBlank hc with rfl | rfl <;> decide
  have hword : callWord = [99, 97, 108, 108] := by decide
  match t with
  | [] =>
      have hb := (hlast b (h b rfl)).1
      simp [atCall, hword, List.isPrefixOf, hb]
  | [c] =>
      have hc := (hlast c (h c rfl)).2.1
      simp [atCall, hword, List.isPrefixOf, hc]
  | [c, d] =>
      have hd := (hlast d (h d rfl)).2.2
      simp [atCall, hword, List.isPrefixOf, hd]
  | [c, d, e] =>
      have he := (hlast e (h e rfl)).2.2
      simp [atCall, hword, List.isPrefixOf, he]
  | c :: d :: e :: f :: t => rfl

/-- After text that holds no call and ends in a blank, a search goes on where a word may start. -/
theorem find?_append {wordStart : Bool} {lead : Text} (hends : EndsBlank lead)
    (hfree : find? wordStart lead = none) (y : Text) :
    find? wordStart (lead ++ y) =
      (find? (wordStart || !lead.isEmpty) y).map (behind lead) := by
  induction lead generalizing wordStart with
  | nil =>
      have hid : behind [] = id := rfl
      simp [hid]
  | cons b rest ih =>
      rw [find?_cons] at hfree
      split at hfree
      next => cases hfree
      next hcall =>
        have hrest := Option.map_eq_none_iff.mp hfree
        rw [List.cons_append, find?_cons, ← List.cons_append, atCall_append hends, if_neg hcall,
          ih hends.tail hrest, Option.map_map]
        have hword : (Text.isBlank b || !rest.isEmpty) = (wordStart || !(b :: rest).isEmpty) := by
          cases rest with
          | nil => simp [hends b rfl]
          | cons c rest => simp
        rw [hword]
        rfl

/-- What a search finds: the keyword as a word, with text before it that holds no call and ends in a
blank. -/
theorem find?_eq_some {wordStart : Bool} {t : Text} {site : CallSite}
    (h : find? wordStart t = some site) :
    t = site.lead ++ callWord ++ site.payload ∧ EndsBlank site.lead ∧
      find? wordStart site.lead = none ∧ (wordStart || !site.lead.isEmpty) = true := by
  induction t generalizing wordStart site with
  | nil => cases h
  | cons b rest ih =>
      rw [find?_cons] at h
      split at h
      next hcall =>
        cases h
        simp only [atCall, Bool.and_eq_true, List.isPrefixOf_iff_prefix] at hcall
        obtain ⟨hstart, ⟨payload, hpayload⟩, -⟩ := hcall
        refine ⟨?_, ?_, rfl, by simp [hstart]⟩
        · rw [← hpayload]
          simp
        · intro b hb
          cases hb
      next hcall =>
        -- the call is further on, and whether `b` starts one depends on the text before it alone
        obtain ⟨site', hsite, rfl⟩ := Option.map_eq_some_iff.mp h
        obtain ⟨ht, hends, hfree, hword⟩ := ih hsite
        have hends' : EndsBlank (b :: site'.lead) := by
          intro c hc
          cases hlead : site'.lead with
          | nil =>
              rw [hlead] at hc hword
              obtain rfl : b = c := by simpa using hc
              simpa using hword
          | cons d lead =>
              rw [hlead, List.getLast?_cons_cons] at hc
              exact hends c (hlead ▸ hc)
        have hat : atCall (b :: rest) = atCall (b :: site'.lead) := by
          rw [ht, List.append_assoc]
          exact atCall_append hends' _
        refine ⟨by simp [behind, ht], hends', ?_, by simp [behind]⟩
        have hlead : (behind [b] site').lead = b :: site'.lead := rfl
        rw [hlead, find?_cons, ← hat, if_neg hcall, hfree]
        rfl

/-- Text without blanks holds no call, unless it is the keyword. -/
theorem find?_of_isField {wordStart : Bool} {t : Text} (h : ∀ b ∈ t, Text.isBlank b = false)
    (hne : t ≠ callWord) : find? wordStart t = none := by
  have hfalse : ∀ u : Text, (∀ b ∈ u, Text.isBlank b = false) → find? false u = none := by
    intro u hu
    induction u with
    | nil => rfl
    | cons b rest ih =>
        rw [find?_cons, hu b List.mem_cons_self, ih fun c hc => hu c (List.mem_cons_of_mem _ hc)]
        rfl
  cases t with
  | nil => rfl
  | cons b rest =>
      have hat : atCall (b :: rest) = false := by
        by_contra hcall
        simp only [atCall, Bool.not_eq_false, Bool.and_eq_true, List.isPrefixOf_iff_prefix] at hcall
        obtain ⟨⟨payload, hpayload⟩, hends⟩ := hcall
        rw [← hpayload, List.drop_left] at hends
        cases payload with
        | nil => exact hne (by rw [← hpayload, List.append_nil])
        | cons c payload =>
            rw [endsWord, h c (by rw [← hpayload]; simp)] at hends
            cases hends
      rw [find?_cons, hat, Bool.and_false, h b List.mem_cons_self,
        hfalse rest fun c hc => h c (List.mem_cons_of_mem _ hc)]
      rfl

/-- The keyword that a search finds ends as a word. -/
theorem endsWord_of_find? {wordStart : Bool} {t : Text} {site : CallSite}
    (h : find? wordStart t = some site) : endsWord site.payload = true := by
  induction t generalizing wordStart site with
  | nil => cases h
  | cons b rest ih =>
      rw [find?_cons] at h
      split at h
      next hcall =>
        cases h
        simp only [atCall, Bool.and_eq_true] at hcall
        exact hcall.2.2
      next =>
        obtain ⟨site', hsite, rfl⟩ := Option.map_eq_some_iff.mp h
        exact (ih hsite : endsWord site'.payload = true)

theorem parse?_callWord {payload : Text} (h : endsWord payload = true) :
    parse? (callWord ++ payload) = some ⟨[], payload⟩ := by
  have hword : callWord = 99 :: [97, 108, 108] := by decide
  have hat : atCall (callWord ++ payload) = true := by
    rw [atCall, List.drop_left, h, Bool.and_true, List.isPrefixOf_iff_prefix]
    exact List.prefix_append _ _
  rw [hword, List.cons_append] at hat
  rw [parse?, hword, List.cons_append, find?_cons, hat]
  rfl

/-- A search does not miss a keyword that stands as a word. -/
theorem find?_ne_none {wordStart : Bool} {before after : Text} (hends : EndsBlank before)
    (hword : endsWord after = true) (hstart : (wordStart || !before.isEmpty) = true) :
    find? wordStart (before ++ callWord ++ after) ≠ none := by
  induction before generalizing wordStart with
  | nil =>
      obtain rfl : wordStart = true := by simpa using hstart
      have hfound := parse?_callWord hword
      rw [parse?] at hfound
      rw [List.nil_append, hfound]
      exact Option.some_ne_none _
  | cons b rest ih =>
      rw [List.cons_append, List.cons_append, find?_cons]
      split
      next => exact Option.some_ne_none _
      next =>
        have hblank : (Text.isBlank b || !rest.isEmpty) = true := by
          cases rest with
          | nil => simp [hends b rfl]
          | cons c rest => simp
        rw [ne_eq, Option.map_eq_none_iff]
        exact ih hends.tail hblank

/-- A line calls no macro if and only if it does not hold the keyword as a word: after its start or
a blank, and before its end or a blank. -/
theorem parse?_eq_none_iff {line : Text} :
    parse? line = none ↔ ¬ ∃ before after, line = before ++ callWord ++ after ∧
      EndsBlank before ∧ endsWord after = true := by
  constructor
  · rintro hnone ⟨before, after, rfl, hends, hword⟩
    exact find?_ne_none hends hword (by simp) hnone
  · intro hno
    cases hsite : parse? line with
    | none => rfl
    | some site =>
        obtain ⟨hline, hends, -, -⟩ := find?_eq_some hsite
        exact absurd ⟨_, _, hline, hends, endsWord_of_find? hsite⟩ hno

end CallSite

/-- Text that may stand before a call: it holds none itself, and a word may start after it. -/
structure Lead (lead : Text) : Prop where
  ends : EndsBlank lead
  free : CallSite.parse? lead = none

namespace Lead

variable {lead : Text}

theorem of_parse? {line : Text} {site : CallSite} (h : CallSite.parse? line = some site) :
    line = site.lead ++ callWord ++ site.payload ∧ Lead site.lead := by
  obtain ⟨hline, hends, hfree, -⟩ := CallSite.find?_eq_some h
  exact ⟨hline, hends, hfree⟩

/-- What comes after a lead is read as if it stood alone. -/
theorem parse?_append (h : Lead lead) (y : Text) :
    CallSite.parse? (lead ++ y) = (CallSite.parse? y).map (CallSite.behind lead) :=
  CallSite.find?_append h.ends h.free y

theorem functionWord : Lead (Macro.functionWord ++ ascii " ") := by
  refine ⟨fun b hb => ?_, by decide⟩
  have hlast : (Macro.functionWord ++ ascii " ").getLast? = some Text.space := by decide
  rw [hlast] at hb
  cases hb
  rfl

/-- The line that calls a function calls no macro. -/
theorem parse?_callLine (h : Lead lead) {r : Text} (hr : IsField r) (hne : r ≠ callWord) :
    CallSite.parse? (callLine lead r) = none := by
  have hnone : CallSite.parse? r = none := CallSite.find?_of_isField hr.blank hne
  rw [callLine, List.append_assoc, List.append_assoc, h.parse?_append, ← List.append_assoc,
    functionWord.parse?_append, hnone]
  rfl

theorem firstField_callLine (h : Lead lead) (r : Text) :
    Text.firstField (callLine lead r) =
      if Text.isSpace lead then Macro.functionWord else Text.firstField lead := by
  have hword : Text.firstField (Macro.functionWord ++ ascii " " ++ r) = Macro.functionWord := by
    rw [Text.firstField_append functionWord.ends, if_neg (by decide)]
    decide
  rw [callLine, List.append_assoc, List.append_assoc, Text.firstField_append h.ends,
    ← List.append_assoc, hword]

/-- Writing a function call in place of a macro call makes no definition of a line. -/
theorem firstField_callLine_ne (h : Lead lead) {line payload : Text}
    (hline : line = lead ++ callWord ++ payload) (hne : Text.firstField line ≠ generateWord)
    (r : Text) : Text.firstField (callLine lead r) ≠ generateWord := by
  rw [h.firstField_callLine]
  rw [hline, List.append_assoc, Text.firstField_append h.ends] at hne
  split
  next => decide
  next hspace =>
    rw [if_neg hspace] at hne
    exact hne

end Lead

theorem Header.parse?_eq_none {line : Text} (h : Text.firstField line ≠ generateWord) :
    Header.parse? line = none := by
  rw [Header.parse?, if_neg (by simpa using h)]

/-- A line is the head of a definition if and only if its first two fields say so. -/
theorem Header.isSome_parse?_iff {line : Text} :
    (Header.parse? line).isSome = true ↔
      ∃ rest, Text.fields line = generateWord :: functionWord :: rest := by
  have hhead := Text.head?_fields line
  unfold Header.parse?
  cases hfields : Text.fields line with
  | nil => simp
  | cons first others =>
      rw [hfields, List.head?_cons] at hhead
      split at hhead
      next => cases hhead
      next =>
        obtain rfl := Option.some.inj hhead
        cases others with
        | nil => simp
        | cons second rest =>
            by_cases hfirst : Text.firstField line = generateWord
            · by_cases hsecond : second = functionWord
              · simp [hfirst, hsecond]
              · simp [hfirst, hsecond]
            · simp [hfirst]

theorem Lead.fields_callLine {lead : Text} (h : Lead lead) (r : Text) :
    Text.fields (callLine lead r) = Text.fields lead ++ Macro.functionWord :: Text.fields r := by
  have hword : Text.fields (Macro.functionWord ++ ascii " ") = [Macro.functionWord] := by
    decide +kernel
  rw [callLine, List.append_assoc, List.append_assoc, Text.fields_append h.ends,
    ← List.append_assoc, Text.fields_append functionWord.ends, hword]
  rfl

/-- A function call that is written in place of a macro call reads as the head of a definition if
and only if the keyword of a definition is the one word before the call. -/
theorem CallSite.isSome_parse?_callLine {line : Text} {site : CallSite}
    (hsite : CallSite.parse? line = some site) (hheader : Header.parse? line = none) (r : Text) :
    (Header.parse? (callLine site.lead r)).isSome = true ↔
      Text.fields site.lead = [generateWord] := by
  obtain ⟨hline, hlead⟩ := Lead.of_parse? hsite
  have hnot : ¬ ∃ rest, Text.fields line = generateWord :: functionWord :: rest := by
    rw [← Header.isSome_parse?_iff, hheader]
    exact Bool.false_ne_true
  rw [Header.isSome_parse?_iff, hlead.fields_callLine]
  rw [hline, List.append_assoc, Text.fields_append hlead.ends] at hnot
  match hfields : Text.fields site.lead with
  | [] =>
      have hne : functionWord ≠ generateWord := by decide
      simp [hne]
  | [first] => simp
  | first :: second :: rest =>
      -- the line has these two fields too, and it is not the head of a definition
      rw [hfields] at hnot
      simp at hnot ⊢
      exact hnot

/-! ## What a line calls -/

/-- The macro that a line calls, if it calls one. -/
def callee? (line : Text) : Option Text :=
  (CallSite.parse? line).bind fun site => (Text.fields site.payload).head?

theorem Lead.callee?_append {lead : Text} (h : Lead lead) (y : Text) :
    callee? (lead ++ y) = callee? y := by
  rw [callee?, h.parse?_append, Option.bind_map]
  rfl

/-- A carriage return at the end of a line does not change what the line calls. -/
theorem callee?_append_return {line callee : Text} (h : callee? line = some callee) :
    callee? (line ++ [Text.carriageReturn]) = some callee := by
  obtain ⟨site, hsite, hhead⟩ := Option.bind_eq_some_iff.mp h
  obtain ⟨hline, hlead⟩ := Lead.of_parse? hsite
  have hword : endsWord (site.payload ++ [Text.carriageReturn]) = true := by
    have hends := CallSite.endsWord_of_find? hsite
    cases hpayload : site.payload with
    | nil =>
        rw [hpayload, Text.fields] at hhead
        cases hhead
    | cons b rest =>
        rw [hpayload] at hends
        exact hends
  rw [hline, List.append_assoc, List.append_assoc, hlead.callee?_append, callee?,
    CallSite.parse?_callWord hword]
  exact Text.head?_fields_append_return hhead

theorem callee?_of_chop {line callee : Text}
    (h : callee? (Text.chop Text.carriageReturn line) = some callee) :
    callee? line = some callee := by
  unfold Text.chop at h
  split at h
  next hlast =>
    rw [← List.dropLast_append_getLast? Text.carriageReturn hlast]
    exact callee?_append_return h
  next => exact h

/-! ## Function calls at the end of lines -/

theorem callLine_append (lead mid r : Text) :
    callLine (lead ++ mid) r = lead ++ callLine mid r := by
  simp [callLine]

theorem take_callLine (lead mid r : Text) :
    (callLine (lead ++ mid) r).take
      ((callLine (lead ++ mid) r).length - (callLine mid r).length) = lead := by
  rw [callLine_append, List.length_append, Nat.add_sub_cancel, List.take_left]

theorem infix_callLine {needle r : Text} (h : needle <:+: r) (lead : Text) :
    needle <:+: callLine lead r :=
  h.trans (List.suffix_append _ _).isInfix

/-- A function call at the end of a line tells the function. -/
theorem reference_of_suffix {lead r r' : Text} (hr : IsField r) (hr' : IsField r')
    (h : callLine [] r' <:+ callLine lead r) : r' = r := by
  have hspace : ∀ w : Text, IsField w → Text.space ∉ w.reverse := by
    intro w hw hmem
    exact nomatch hw.blank _ (List.mem_reverse.mp hmem)
  have hline : ∀ lead w : Text, (callLine lead w).reverse =
      w.reverse ++ Text.space :: (lead ++ functionWord).reverse := by
    intro lead w
    have hblank : ascii " " = [Text.space] := by decide
    simp [callLine, hblank]
  obtain ⟨u, hu⟩ := h
  have hreverse := congrArg List.reverse hu
  rw [List.reverse_append, hline, hline, List.append_assoc, List.cons_append] at hreverse
  exact List.reverse_injective ((Text.append_cons_inj (hspace r' hr') (hspace r hr)).mp hreverse).1

section

variable {α : Type} (reference : α → Text) {as : List α}

/-- A line that lacks what all references hold calls none of them. -/
theorem find?_callLine_eq_none {needle line : Text} (has : ∀ a ∈ as, needle <:+: reference a)
    (hline : ¬ needle <:+: line) (mid : Text) :
    as.find? (fun a => (callLine mid (reference a)).isSuffixOf line) = none := by
  rw [List.find?_eq_none]
  intro a ha hsuffix
  have hcall := infix_callLine (has a ha) mid
  exact hline (hcall.trans (List.isSuffixOf_iff_suffix.mp hsuffix).isInfix)

/-- The call at the end of a line is the one of the function whose reference was written there. -/
theorem find?_callLine_eq_some (has : ∀ a ∈ as, IsField (reference a)) {a : α} (ha : a ∈ as)
    (hunique : ∀ b ∈ as, reference b = reference a → b = a) (lead mid : Text) :
    as.find? (fun b => (callLine mid (reference b)).isSuffixOf
      (callLine (lead ++ mid) (reference a))) = some a := by
  have hself : (callLine mid (reference a)).isSuffixOf (callLine (lead ++ mid) (reference a)) =
      true := by
    rw [List.isSuffixOf_iff_suffix, callLine_append]
    exact List.suffix_append _ _
  cases hfind : as.find? (fun b => (callLine mid (reference b)).isSuffixOf
      (callLine (lead ++ mid) (reference a))) with
  | none => exact absurd hself (List.find?_eq_none.mp hfind a ha)
  | some b =>
      have hb := List.mem_of_find?_eq_some hfind
      have hsuffix := List.isSuffixOf_iff_suffix.mp (List.find?_some hfind :)
      have hend : callLine [] (reference b) <:+ callLine mid (reference b) := by
        rw [← List.append_nil mid, callLine_append]
        exact List.suffix_append _ _
      rw [hunique b hb (reference_of_suffix (has a ha) (has b hb) (hend.trans hsuffix))]

end

end Packwright.Macro
