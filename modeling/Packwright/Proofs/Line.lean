import Mathlib.Data.List.TakeWhile
import Packwright.Comment
import Packwright.Continuation
import Packwright.Proofs.Anonymous

/-! # Lines that show something

A line shows something if it holds a byte other than tabs and carriage returns. Such a line stays
one when it loses tabs at its front or a carriage return at its end, so it is not lost when lines
are put together to a text and read again (`shown_of_mem_lines`). Comments are stripped down to such
lines, and joining continuation lines leaves every line with the beginning that it has.
-/

namespace Packwright.Text

/-- The bytes that stand at the margins of lines: tabs in front, line ends behind. -/
def isMargin (b : UInt8) : Bool := b == tab || b == newline || b == carriageReturn

/-- A text that shows something wherever it stands. -/
structure Token (w : Text) : Prop where
  ne_nil : w ≠ []
  plain : ∀ b ∈ w, isMargin b = false

/-- A single line that shows something. -/
structure Shown (line : Text) : Prop where
  newline : newline ∉ line
  ink : ∃ b ∈ line, isMargin b = false

/-- A line that shows something and is not indented. -/
structure Flush (line : Text) : Prop extends Shown line where
  head : line.head? ≠ some tab

/-- A text that is put together of lines of one kind. -/
def MadeOf (good : Text → Prop) (t : Text) : Prop := ∃ ls, (∀ l ∈ ls, good l) ∧ t = unlines ls

theorem Token.ink {w : Text} (h : Token w) : ∃ b ∈ w, isMargin b = false := by
  obtain ⟨b, rest, rfl⟩ := List.exists_cons_of_ne_nil h.ne_nil
  exact ⟨b, List.mem_cons_self, h.plain b List.mem_cons_self⟩

theorem Token.newline {w : Text} (h : Token w) : Text.newline ∉ w :=
  fun hmem => nomatch h.plain _ hmem

namespace Shown

variable {line : Text}

theorem ne_nil (h : Shown line) : line ≠ [] := by
  rintro rfl
  obtain ⟨b, hb, -⟩ := h.ink
  cases hb

theorem append_left (h : Shown line) {lead : Text} (hlead : Text.newline ∉ lead) :
    Shown (lead ++ line) := by
  obtain ⟨b, hb, hink⟩ := h.ink
  refine ⟨?_, b, List.mem_append_right _ hb, hink⟩
  rw [List.mem_append, not_or]
  exact ⟨hlead, h.newline⟩

theorem append_right (h : Shown line) {rest : Text} (hrest : Text.newline ∉ rest) :
    Shown (line ++ rest) := by
  obtain ⟨b, hb, hink⟩ := h.ink
  refine ⟨?_, b, List.mem_append_left _ hb, hink⟩
  rw [List.mem_append, not_or]
  exact ⟨h.newline, hrest⟩

/-- A carriage return at the end of a line shows nothing. -/
theorem chop (h : Shown line) : Shown (chop carriageReturn line) := by
  refine ⟨fun hmem => h.newline (chop_subset _ _ hmem), ?_⟩
  obtain ⟨b, hb, hink⟩ := h.ink
  refine ⟨b, ?_, hink⟩
  unfold Text.chop
  split
  next hlast =>
    rw [← List.dropLast_append_getLast? carriageReturn hlast, List.mem_append,
      List.mem_singleton] at hb
    exact hb.resolve_right fun heq => by simp [heq, isMargin] at hink
  next => exact hb

end Shown

/-- The tabs that indent a line show nothing. -/
theorem mem_drop_of_le_indent {line : Text} {n : Nat} (hn : n ≤ indent line) {b : UInt8}
    (hb : b ∈ line) (hne : b ≠ tab) : b ∈ line.drop n := by
  rw [← List.take_append_drop n line] at hb
  refine (List.mem_append.mp hb).resolve_left fun htake => hne ?_
  have hstart : line.take n <+: line.takeWhile (· == tab) :=
    List.prefix_of_prefix_length_le (List.take_prefix n line) (List.takeWhile_prefix _)
      (by rw [List.length_take]; exact Nat.le_trans (Nat.min_le_left _ _) hn)
  simpa using List.mem_takeWhile_imp (hstart.subset htake)

theorem Shown.drop {line : Text} (h : Shown line) {n : Nat} (hn : n ≤ indent line) :
    Shown (line.drop n) := by
  obtain ⟨b, hb, hink⟩ := h.ink
  refine ⟨fun hmem => h.newline (List.drop_subset n line hmem), b, ?_, hink⟩
  refine mem_drop_of_le_indent hn hb ?_
  rintro rfl
  cases hink

namespace Flush

variable {line : Text}

theorem append (h : Flush line) {rest : Text} (hrest : Text.newline ∉ rest) :
    Flush (line ++ rest) := by
  refine ⟨h.append_right hrest, ?_⟩
  rw [List.head?_append_of_ne_nil _ h.ne_nil]
  exact h.head

theorem chop (h : Flush line) : Flush (Text.chop carriageReturn line) := by
  refine ⟨h.toShown.chop, ?_⟩
  unfold Text.chop
  split
  next =>
    rw [List.head?_dropLast]
    split
    next => exact h.head
    next => nofun
  next => exact h.head

end Flush

/-- A text of single lines is read as such lines, if these may lose carriage returns at the end. -/
theorem MadeOf.of_mem_lines {good : Text → Prop} (hgood : ∀ l, good l → newline ∉ l)
    (hchop : ∀ l, good l → good (chop carriageReturn l)) {t : Text} (h : MadeOf good t) :
    ∀ line ∈ lines t, good line := by
  obtain ⟨ls, hls, rfl⟩ := h
  intro line hline
  obtain ⟨l, hl, rfl⟩ := mem_lines_unlines (fun l hl => hgood l (hls l hl)) hline
  exact hchop l (hls l hl)

theorem shown_of_mem_lines {t : Text} (h : MadeOf Shown t) : ∀ line ∈ lines t, Shown line :=
  h.of_mem_lines (fun _ hl => hl.newline) fun _ hl => hl.chop

theorem flush_of_mem_lines {t : Text} (h : MadeOf Flush t) : ∀ line ∈ lines t, Flush line :=
  h.of_mem_lines (fun _ hl => hl.newline) fun _ hl => hl.chop

/-- The lines of a text that is put together of single lines are these, unless there are none. -/
theorem MadeOf.of_mem_splitOn {good : Text → Prop} (hgood : ∀ l, good l → newline ∉ l) {t : Text}
    (h : MadeOf good t) (hne : t ≠ []) : ∀ line ∈ t.splitOn newline, good line := by
  obtain ⟨ls, hls, rfl⟩ := h
  have hnil : ls ≠ [] := by
    rintro rfl
    exact hne rfl
  have hsplit : (unlines ls).splitOn newline = ls :=
    List.splitOn_intercalate newline (fun l hl => hgood l (hls l hl)) hnil
  rwa [hsplit]

theorem spaceWidth_of_isMargin {a : UInt8} (h : isMargin a = true) (rest : Text) :
    spaceWidth a rest = 1 := by
  simp only [isMargin, Bool.or_eq_true, beq_iff_eq] at h
  rcases h with (rfl | rfl) | rfl <;> rfl

/-- Fields hold no white space, so they show something wherever they stand. -/
theorem plain_of_mem_takeField {t : Text} {b : UInt8} (h : b ∈ takeField t) :
    isMargin b = false := by
  induction t with
  | nil => cases h
  | cons a rest ih =>
      rw [takeField] at h
      split at h
      next hwidth =>
        rcases List.mem_cons.mp h with rfl | h
        · by_contra hmargin
          rw [spaceWidth_of_isMargin (by simpa using hmargin)] at hwidth
          cases hwidth
        · exact ih h
      next => cases h

theorem token_of_mem_fields {t w : Text} (h : w ∈ fields t) : Token w := by
  refine ⟨(isField_of_mem_fields h).1.ne_nil, fun b hb => ?_⟩
  fun_induction fields t with
  | case1 => cases h
  | case2 t a rest hskip _ ih =>
      rcases List.mem_cons.mp h with rfl | h
      · exact plain_of_mem_takeField hb
      · exact ih h

end Packwright.Text

namespace Packwright

open Text (Shown Flush Token MadeOf)

/-! ## Names -/

theorem Name.plain_of_isNameByte {b : UInt8} (h : isNameByte b = true) :
    Text.isMargin b = false := by
  by_contra hmargin
  simp only [Text.isMargin, Bool.not_eq_false, Bool.or_eq_true, beq_iff_eq] at hmargin
  rcases hmargin with (rfl | rfl) | rfl <;> cases h

theorem Anonymous.plain_of_mem {id : UInt32} {b : UInt8} (h : b ∈ name id) :
    Text.isMargin b = false := by
  rcases isNameByte_of_mem h with hbyte | rfl
  · exact Name.plain_of_isNameByte hbyte
  · rfl

namespace Namespace.Checked

variable {ns : Namespace}

theorem token (h : ns.Checked) : Token ns.name := by
  refine ⟨?_, fun b hb => Name.plain_of_isNameByte (h.isNameByte b hb)⟩
  intro hnil
  rw [Checked, hnil] at h
  cases h

theorem token_reference (h : ns.Checked) {name : Text}
    (hname : ∀ b ∈ name, Text.isMargin b = false) : Token (ns.reference name) := by
  have hcolon : ∀ b ∈ Text.ascii ":", Text.isMargin b = false := by decide +kernel
  refine ⟨?_, fun b hb => ?_⟩
  · exact List.append_ne_nil_of_left_ne_nil
      (List.append_ne_nil_of_left_ne_nil h.token.ne_nil _) _
  · simp only [Namespace.reference, List.mem_append] at hb
    rcases hb with (hb | hb) | hb
    · exact h.token.plain b hb
    · exact hcolon b hb
    · exact hname b hb

end Namespace.Checked

/-! ## Comments and continuation lines -/

/-- What is left of a text without comments and blank lines shows something on every line. -/
theorem Comment.madeOf_strip (content : Text) : MadeOf Shown (Comment.strip content) := by
  refine ⟨_, fun line hline => ?_, rfl⟩
  obtain ⟨hmem, hcode⟩ := List.mem_filter.mp hline
  refine ⟨Text.newline_not_mem_lines hmem, ?_⟩
  unfold isIdle at hcode
  split at hcode
  next => cases hcode
  next a rest hskip =>
    refine ⟨a, ?_, ?_⟩
    · apply (Text.skipSpaceFrom_suffix 0 line).subset
      rw [show Text.skipSpaceFrom 0 line = a :: rest from hskip]
      exact List.mem_cons_self
    · by_contra hmargin
      have hwidth := Text.spaceWidth_of_skipSpaceFrom hskip
      rw [Text.spaceWidth_of_isMargin (by simpa using hmargin)] at hwidth
      cases hwidth

namespace Continuation

theorem tail_subset (line : Text) : tail line ⊆ line := by
  have hdrop : (line.dropWhile Text.isBlank).drop keyword.length ⊆ line :=
    fun b hb => List.dropWhile_subset _ (List.drop_subset _ _ hb)
  unfold tail
  split
  next b rest heq =>
    rw [heq] at hdrop
    split
    next => exact fun c hc => hdrop (List.mem_cons_of_mem _ hc)
    next => exact hdrop
  next => exact List.nil_subset _

/-- Lines that are continued keep their beginnings. -/
theorem flush_absorb {current : Text} {rest : List Text} (hcurrent : Flush current)
    (hrest : ∀ line ∈ rest, Flush line) : ∀ line ∈ absorb current rest, Flush line := by
  fun_induction absorb current rest with
  | case1 current => exact List.forall_mem_singleton.mpr hcurrent
  | case2 current next rest _ ih =>
      rw [List.forall_mem_cons] at hrest
      exact ih (hcurrent.append fun hmem => hrest.1.newline (tail_subset next hmem)) hrest.2
  | case3 current next rest _ ih =>
      rw [List.forall_mem_cons] at hrest
      exact List.forall_mem_cons.mpr ⟨hcurrent, ih hrest.1 hrest.2⟩

theorem madeOf_join {content : Text} (h : MadeOf Flush content) : MadeOf Flush (join content) := by
  refine ⟨_, ?_, rfl⟩
  have hlines := Text.flush_of_mem_lines h
  cases hcontent : Text.lines content with
  | nil => exact fun line hline => (nomatch hline)
  | cons first rest =>
      rw [hcontent, List.forall_mem_cons] at hlines
      exact flush_absorb hlines.1 hlines.2

end Continuation

end Packwright
