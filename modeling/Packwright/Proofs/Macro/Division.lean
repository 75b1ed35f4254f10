import Packwright.Proofs.Macro.CallSite

/-! # Where a line is divided

The keyword of a call counts where it stands alone: between blanks or the ends of the line. A line
is divided at the first keyword that does, however many occurrences inside other words come before
it, and a beginning that holds no such keyword does not move the division. A search need not try
every byte. It may leap from one occurrence of the keyword to the next and pass a rejected one as a
whole, because the keyword cannot overlap itself (`leap_eq`).
-/

namespace Packwright.Macro.CallSite

open Text (ascii EndsBlank)

/-- A site divides a line at a keyword that stands alone: only a space or a tab may touch it. -/
structure Divides (site : CallSite) (line : Text) : Prop where
  line_eq : line = site.lead ++ callWord ++ site.payload
  before : ∀ b, site.lead.getLast? = some b → b = Text.space ∨ b = Text.tab
  after : ∀ b, site.payload.head? = some b → b = Text.space ∨ b = Text.tab

theorem endsBlank_iff {t : Text} :
    EndsBlank t ↔ ∀ b, t.getLast? = some b → b = Text.space ∨ b = Text.tab := by
  simp only [EndsBlank, Text.isBlank, Bool.or_eq_true, beq_iff_eq]

theorem endsWord_iff {t : Text} :
    endsWord t = true ↔ ∀ b, t.head? = some b → b = Text.space ∨ b = Text.tab := by
  cases t with
  | nil => simp [endsWord]
  | cons b rest => simp [endsWord, Text.isBlank]

theorem divides_iff {site : CallSite} {line : Text} :
    site.Divides line ↔
      line = site.lead ++ callWord ++ site.payload ∧ EndsBlank site.lead ∧
        endsWord site.payload = true := by
  rw [endsBlank_iff, endsWord_iff]
  constructor
  · intro h
    exact ⟨h.line_eq, h.before, h.after⟩
  · rintro ⟨hline, hbefore, hafter⟩
    exact ⟨hline, hbefore, hafter⟩

theorem divides_of_parse? {line : Text} {site : CallSite} (h : parse? line = some site) :
    site.Divides line := by
  obtain ⟨hline, hends, -, -⟩ := find?_eq_some h
  exact divides_iff.mpr ⟨hline, hends, endsWord_of_find? h⟩

theorem parse?_eq_none_iff_divides {line : Text} :
    parse? line = none ↔ ∀ site : CallSite, ¬ site.Divides line := by
  rw [parse?_eq_none_iff]
  constructor
  · intro hno site hsite
    obtain ⟨hline, hends, hword⟩ := divides_iff.mp hsite
    exact hno ⟨site.lead, site.payload, hline, hends, hword⟩
  · rintro hno ⟨before, after, hline, hends, hword⟩
    exact hno ⟨before, after⟩ (divides_iff.mpr ⟨hline, hends, hword⟩)

/-- A search stops no later than at any keyword that stands alone. -/
theorem length_lead_le {wordStart : Bool} {t before after : Text} {site : CallSite}
    (h : find? wordStart t = some site) (ht : t = before ++ callWord ++ after)
    (hends : EndsBlank before) (hword : endsWord after = true)
    (hstart : (wordStart || !before.isEmpty) = true) : site.lead.length ≤ before.length := by
  induction t generalizing wordStart before site with
  | nil => cases h
  | cons b rest ih =>
      rw [find?_cons] at h
      split at h
      next =>
        cases h
        exact Nat.zero_le _
      next hcall =>
        obtain ⟨site', hsite, rfl⟩ := Option.map_eq_some_iff.mp h
        cases before with
        | nil =>
            -- the keyword starts right here, so the search cannot have passed it
            obtain rfl : wordStart = true := by simpa using hstart
            refine absurd ?_ hcall
            rw [ht, List.nil_append, atCall, List.drop_left, hword, Bool.and_true, Bool.true_and,
              List.isPrefixOf_iff_prefix]
            exact List.prefix_append _ _
        | cons c before =>
            obtain ⟨rfl, hrest⟩ := List.cons.inj ht
            have hblank : (Text.isBlank b || !before.isEmpty) = true := by
              cases before with
              | nil => simp [hends b rfl]
              | cons d before => simp
            exact Nat.succ_le_succ (ih hsite hrest hends.tail hblank)

/-- The keywords that stand alone, told apart by how much of the line is before them. -/
theorem Divides.eq_of_length {site other : CallSite} {line : Text} (h : site.Divides line)
    (hother : other.Divides line) (hlength : site.lead.length = other.lead.length) :
    site = other := by
  have heq := h.line_eq.symm.trans hother.line_eq
  rw [List.append_assoc, List.append_assoc] at heq
  obtain ⟨hlead, htail⟩ := List.append_inj heq hlength
  have hpayload := List.append_cancel_left htail
  cases site
  cases other
  simp_all

/-! ## Leaping from one occurrence to the next -/

/-- Divides a text at the first occurrence of the keyword, whatever stands around it. -/
def occurrence? : Text → Option CallSite
  | [] => none
  | b :: rest =>
    if callWord.isPrefixOf (b :: rest) then some ⟨[], (b :: rest).drop callWord.length⟩
    else (occurrence? rest).map (behind [b])

/-- Whether a word may start behind a text, given whether one may start where the text does. -/
def startsWord (wordStart : Bool) (t : Text) : Bool := (t.getLast?.map Text.isBlank).getD wordStart

theorem startsWord_append (wordStart : Bool) (x y : Text) :
    startsWord wordStart (x ++ y) = startsWord (startsWord wordStart x) y := by
  unfold startsWord
  rw [List.getLast?_append]
  cases y.getLast? <;> rfl

theorem length_payload_lt {t : Text} {site : CallSite} (h : occurrence? t = some site) :
    site.payload.length < t.length := by
  induction t generalizing site with
  | nil => cases h
  | cons b rest ih =>
      rw [occurrence?] at h
      split at h
      next =>
        cases h
        have hword : callWord.length = 4 := by decide
        simp only [List.length_drop, List.length_cons]
        omega
      next =>
        obtain ⟨site', hsite, rfl⟩ := Option.map_eq_some_iff.mp h
        have hlt : site'.payload.length < rest.length := ih hsite
        exact Nat.lt_succ_of_lt hlt

/-- Searches from one occurrence of the keyword to the next. An occurrence that does not stand alone
is added to the text passed so far. -/
def leap (passed t : Text) : Option CallSite :=
  match _h : occurrence? t with
  | none => none
  | some site =>
    if startsWord true (passed ++ site.lead) && endsWord site.payload then some (behind passed site)
    else leap (passed ++ (site.lead ++ callWord)) site.payload
termination_by t.length
decreasing_by exact length_payload_lt _h

theorem find?_of_occurrence?_eq_none {t : Text} (h : occurrence? t = none) (wordStart : Bool) :
    find? wordStart t = none := by
  induction t generalizing wordStart with
  | nil => rfl
  | cons b rest ih =>
      rw [occurrence?] at h
      split at h
      next => cases h
      next hword =>
        rw [find?_cons, atCall, Bool.eq_false_iff.mpr hword, Bool.false_and, Bool.and_false,
          ih (Option.map_eq_none_iff.mp h)]
        rfl

/-- A keyword starts with a byte of its own. -/
theorem atCall_of_ne {b : UInt8} (h : b ≠ 99) (rest : Text) : atCall (b :: rest) = false := by
  have hword : callWord = 99 :: [97, 108, 108] := by decide
  rw [atCall, hword, List.isPrefixOf, beq_eq_false_iff_ne.mpr (Ne.symm h)]
  rfl

theorem find?_of_ne {b : UInt8} (h : b ≠ 99) (wordStart : Bool) (rest : Text) :
    find? wordStart (b :: rest) = (find? (Text.isBlank b) rest).map (behind [b]) := by
  rw [find?_cons, atCall_of_ne h, Bool.and_false]
  rfl

/-- A search passes a rejected keyword as a whole: no keyword starts inside it, and no word starts
right behind it. -/
theorem find?_callWord (wordStart : Bool) (payload : Text) :
    find? wordStart (callWord ++ payload) =
      if wordStart && endsWord payload then some ⟨[], payload⟩
      else (find? false payload).map (behind callWord) := by
  have hword : callWord = [99, 97, 108, 108] := by decide
  have hat : atCall (callWord ++ payload) = endsWord payload := by
    rw [atCall, List.drop_left, List.isPrefixOf_iff_prefix.mpr (List.prefix_append _ _),
      Bool.true_and]
  have hcons : callWord ++ payload = 99 :: 97 :: 108 :: 108 :: payload := by rw [hword]; rfl
  rw [hcons] at hat ⊢
  rw [find?_cons, hat, find?_of_ne (by decide), find?_of_ne (by decide), find?_of_ne (by decide),
    Option.map_map, Option.map_map, Option.map_map, hword]
  rfl

/-- What a search does at the first occurrence of the keyword: it ends there, or goes on behind. -/
theorem find?_of_occurrence? {t : Text} {site : CallSite} (h : occurrence? t = some site)
    (wordStart : Bool) :
    find? wordStart t =
      if startsWord wordStart site.lead && endsWord site.payload then some site
      else (find? false site.payload).map (behind (site.lead ++ callWord)) := by
  induction t generalizing wordStart site with
  | nil => cases h
  | cons b rest ih =>
      rw [occurrence?] at h
      split at h
      next hword =>
        cases h
        obtain ⟨payload, hpayload⟩ := List.isPrefixOf_iff_prefix.mp hword
        rw [← hpayload, List.drop_left, find?_callWord]
        rfl
      next hword =>
        obtain ⟨site', hsite, rfl⟩ := Option.map_eq_some_iff.mp h
        have hstart : startsWord wordStart (b :: site'.lead) =
            startsWord (Text.isBlank b) site'.lead := startsWord_append wordStart [b] site'.lead
        rw [find?_cons, atCall, Bool.eq_false_iff.mpr hword, Bool.false_and, Bool.and_false,
          if_neg Bool.false_ne_true, ih hsite]
        simp only [behind, List.singleton_append, hstart]
        split
        next => rfl
        next =>
          rw [Option.map_map]
          rfl

/-- Leaping over occurrences that do not stand alone misses no call. -/
theorem leap_eq (passed t : Text) :
    leap passed t = (find? (startsWord true passed) t).map (behind passed) := by
  fun_induction leap passed t with
  | case1 passed t hnone => rw [find?_of_occurrence?_eq_none hnone]; rfl
  | case2 passed t site hsite hstands =>
      rw [startsWord_append] at hstands
      rw [find?_of_occurrence? hsite, if_pos hstands]
      rfl
  | case3 passed t site hsite hstands ih =>
      -- the keyword ends in a letter, so no word starts where the search goes on
      have hletter : ∀ w : Bool, startsWord w callWord = false := by
        intro w
        cases w <;> decide
      rw [startsWord_append] at hstands
      rw [find?_of_occurrence? hsite, if_neg hstands, ih, startsWord_append, startsWord_append,
        hletter, Option.map_map]
      congr 1
      funext other
      simp [behind]

/-! ## The first keyword that stands alone -/

/-- A line is divided at the first keyword that stands alone, and not at all if and only if none
does. Text before the line that holds no such keyword, and ends where a word may start, only makes
the lead longer. A search by leaps finds the same division. -/
theorem divides_first_call (line : Text) :
    (∀ site, parse? line = some site ↔
      site.Divides line ∧
        ∀ other : CallSite, other.Divides line → site.lead.length ≤ other.lead.length) ∧
    (parse? line = none ↔ ∀ site : CallSite, ¬ site.Divides line) ∧
    (∀ w : Text, (∀ b, w.getLast? = some b → b = Text.space ∨ b = Text.tab) →
      (∀ site : CallSite, ¬ site.Divides w) →
        parse? (w ++ line) =
          (parse? line).map fun site => ⟨w ++ site.lead, site.payload⟩) ∧
    leap [] line = parse? line := by
  have hfirst : ∀ {site : CallSite}, parse? line = some site → ∀ other : CallSite,
      other.Divides line → site.lead.length ≤ other.lead.length := by
    intro site hsite other hother
    obtain ⟨hline, hends, hword⟩ := divides_iff.mp hother
    exact length_lead_le hsite hline hends hword (by simp)
  refine ⟨?_, parse?_eq_none_iff_divides, ?_, ?_⟩
  · intro site
    constructor
    · intro hsite
      exact ⟨divides_of_parse? hsite, hfirst hsite⟩
    · rintro ⟨hsite, hshortest⟩
      cases hparse : parse? line with
      | none => exact absurd hsite (parse?_eq_none_iff_divides.mp hparse site)
      | some found =>
          have hfound := divides_of_parse? hparse
          have hlength := le_antisymm (hfirst hparse site hsite) (hshortest found hfound)
          rw [hfound.eq_of_length hsite hlength]
  · intro w hends hfree
    have hlead : Lead w := ⟨endsBlank_iff.mpr hends, parse?_eq_none_iff_divides.mpr hfree⟩
    exact hlead.parse?_append line
  · rw [leap_eq]
    exact congrFun Option.map_id _

/-- Near misses before a call, in the line and in the text put before it. -/
theorem divides_first_call_near_misses :
    (∀ site : CallSite, ¬ site.Divides (ascii "tag recall_call callers ")) ∧
    parse? (ascii "tag recall_call callers " ++ ascii "\tsay recall callcall call \tgreet call") =
      some ⟨ascii "tag recall_call callers " ++ ascii "\tsay recall callcall ",
        ascii " \tgreet call"⟩ := by
  have hfree : ∀ site : CallSite, ¬ site.Divides (ascii "tag recall_call callers ") :=
    (divides_first_call _).2.1.mp (by decide)
  have hends : ∀ b, (ascii "tag recall_call callers ").getLast? = some b →
      b = Text.space ∨ b = Text.tab := by
    intro b hb
    left
    exact (Option.some.inj hb).symm
  refine ⟨hfree, ?_⟩
  rw [(divides_first_call _).2.2.1 _ hends hfree]
  decide

end Packwright.Macro.CallSite
