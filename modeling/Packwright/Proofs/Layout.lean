import Mathlib.Data.List.Forall2
import Packwright.Comment
import Packwright.Compiler
import Packwright.Proofs.Text

/-! # Layout does not matter

A source is laid out as lines. Some hold code; blank lines and comments may stand anywhere between
them, every line may end with or without a carriage return, and the end of the last line may be
missing (`Layout`). All layouts of the same code are stripped to the same text (`code_of_layout`),
so they are compiled to the same functions (`compile_ignores_layout`).
-/

namespace Packwright

open Text (ascii)

namespace Text

/-! ## Lines of a text that goes on -/

/-- The first line of a text ends at its first newline. -/
theorem lines_append_newline {line : Text} (h : newline ∉ line) (rest : Text) :
    lines (line ++ newline :: rest) = chop carriageReturn line :: lines rest := by
  have hne : (line ++ newline :: rest).isEmpty = false := by simp
  by_cases hrest : rest = []
  · subst hrest
    have hchop : chop newline (line ++ [newline]) = line := by simp [chop]
    rw [lines, hne, hchop, List.splitOn_eq_singleton h]
    rfl
  · have hchop : chop newline (line ++ newline :: rest) = line ++ newline :: chop newline rest := by
      have hlast : (line ++ newline :: rest).getLast? = rest.getLast? := by
        rw [List.getLast?_append, List.getLast?_cons, List.getLast?_eq_some_getLast hrest]
        rfl
      unfold chop
      rw [hlast]
      split
      next => rw [List.dropLast_append_of_ne_nil (by simp), List.dropLast_cons_of_ne_nil hrest]
      next => rfl
    have hlines : lines rest = ((chop newline rest).splitOn newline).map (chop carriageReturn) :=
      if_neg (by simpa using hrest)
    rw [hlines, lines, hne, hchop, List.splitOn_append_cons_self, List.splitOn_eq_singleton h]
    rfl

/-- A text without newlines is one line, unless it is empty. -/
theorem lines_of_not_mem {line : Text} (h : newline ∉ line) :
    lines line = if line = [] then [] else [chop carriageReturn line] := by
  have hchop : chop newline line = line :=
    chop_of_getLast?_ne fun hlast => h (List.mem_of_getLast? hlast)
  unfold lines
  rw [hchop, List.splitOn_eq_singleton h]
  cases line with
  | nil => rfl
  | cons b rest => simp

/-! ## White space at the front -/

/-- A character in a text is there if the text is cut behind it. -/
theorem sequenceAt_of_append {a : UInt8} {x y : Text} {c : Char} {more : Nat}
    (h : sequenceAt a (x ++ y) = some (c, more)) (hmore : more ≤ x.length) :
    sequenceAt a x = some (c, more) := by
  match x with
  | [] =>
      obtain rfl : more = 0 := Nat.le_zero.mp hmore
      simp only [sequenceAt] at h ⊢
      grind
  | [b] | [b, d] =>
      simp only [sequenceAt, List.length_cons, List.length_nil] at h hmore ⊢
      grind
  | b :: d :: e :: x => exact h

theorem spaceWidth_of_append {a : UInt8} {x y : Text} {n : Nat}
    (h : spaceWidth a (x ++ y) = n + 1) (hn : n ≤ x.length) : spaceWidth a x = n + 1 := by
  unfold spaceWidth at h
  split at h
  next c more hsequence =>
    split at h
    next hspace =>
      obtain rfl : more = n := Nat.succ.inj h
      rw [spaceWidth, sequenceAt_of_append hsequence hn]
      exact if_pos hspace
    next => cases h
  next => cases h

/-- White space at the front of a text is skipped whatever follows it. -/
theorem skipSpaceFrom_append_of_nil {pending : Nat} {t : Text} (h : skipSpaceFrom pending t = [])
    (hle : pending ≤ t.length) (y : Text) : skipSpaceFrom pending (t ++ y) = skipSpace y := by
  fun_induction skipSpaceFrom pending t with
  | case1 pending =>
      obtain rfl : pending = 0 := Nat.le_zero.mp hle
      rfl
  | case2 a rest n ih => exact ih h (Nat.le_of_succ_le_succ hle)
  | case3 => cases h
  | case4 a rest n hwidth ih =>
      obtain ⟨happend, hlength⟩ := spaceWidth_append hwidth y
      rw [List.cons_append, skipSpaceFrom, happend]
      exact ih h hlength

theorem skipSpace_append_of_isSpace {t : Text} (h : isSpace t = true) (y : Text) :
    skipSpace (t ++ y) = skipSpace y :=
  skipSpaceFrom_append_of_nil (List.isEmpty_iff.mp h) (Nat.zero_le _) y

/-- What is skipped at the front of a text is white space. -/
theorem exists_skipped {pending : Nat} {t : Text} (hle : pending ≤ t.length) :
    ∃ lead, t = lead ++ skipSpaceFrom pending t ∧ pending ≤ lead.length ∧
      skipSpaceFrom pending lead = [] := by
  fun_induction skipSpaceFrom pending t with
  | case1 pending => exact ⟨[], rfl, hle, by rw [skipSpaceFrom]⟩
  | case2 a rest n ih =>
      obtain ⟨lead, hlead, hn, hskip⟩ := ih (Nat.le_of_succ_le_succ hle)
      refine ⟨a :: lead, by rw [List.cons_append, ← hlead], Nat.succ_le_succ hn, ?_⟩
      rw [skipSpaceFrom]
      exact hskip
  | case3 a rest => exact ⟨[], rfl, Nat.le_refl 0, by rw [skipSpaceFrom]⟩
  | case4 a rest n hwidth ih =>
      have hn : n ≤ rest.length := (spaceWidth_append hwidth []).2
      obtain ⟨lead, hlead, hn, hskip⟩ := ih hn
      rw [hlead] at hwidth
      refine ⟨a :: lead, by rw [List.cons_append, ← hlead], Nat.zero_le _, ?_⟩
      rw [skipSpaceFrom, spaceWidth_of_append hwidth hn]
      exact hskip

end Text

/-! ## Code and fillers -/

namespace Comment

/-- A comment: white space at most, then `#`, then anything. -/
def IsComment (line : Text) : Prop :=
  ∃ lead rest, line = lead ++ 35 :: rest ∧ Text.isSpace lead = true

theorem isIdle_iff {line : Text} :
    isIdle line = true ↔ Text.isSpace line = true ∨ IsComment line := by
  constructor
  · intro hidle
    obtain ⟨lead, hline, -, hlead⟩ := Text.exists_skipped (t := line) (Nat.zero_le _)
    unfold isIdle at hidle
    split at hidle
    next hskip => exact .inl (by rw [Text.isSpace, hskip]; rfl)
    next first rest hskip =>
      obtain rfl : first = 35 := by simpa using hidle
      rw [show Text.skipSpaceFrom 0 line = 35 :: rest from hskip] at hline
      exact .inr ⟨lead, rest, hline, by rw [Text.isSpace, Text.skipSpace, hlead]; rfl⟩
  · rintro (hspace | ⟨lead, rest, rfl, hlead⟩)
    · rw [isIdle, show Text.skipSpace line = [] by simpa [Text.isSpace] using hspace]
    · rw [isIdle, Text.skipSpace_append_of_isSpace hlead]
      rfl

/-- A carriage return at the end of a line makes it neither more nor less idle. -/
theorem isIdle_append_return (line : Text) :
    isIdle (line ++ [Text.carriageReturn]) = isIdle line := by
  by_cases hskip : Text.skipSpace line = []
  · have hspace : Text.isSpace line = true := by rw [Text.isSpace, hskip]; rfl
    rw [isIdle, isIdle, Text.skipSpace_append_of_isSpace hspace, hskip]
    rfl
  · have happend : Text.skipSpace (line ++ [Text.carriageReturn]) =
        Text.skipSpace line ++ [Text.carriageReturn] := Text.skipSpaceFrom_append_return hskip
    rw [isIdle, isIdle, happend]
    cases hline : Text.skipSpace line with
    | nil => exact absurd hline hskip
    | cons first rest => rfl

theorem isIdle_chop_return (line : Text) :
    isIdle (Text.chop Text.carriageReturn line) = isIdle line := by
  unfold Text.chop
  split
  next hlast =>
    rw [← isIdle_append_return, List.dropLast_append_getLast? Text.carriageReturn hlast]
  next => rfl

/-- The lines of a text that hold code. -/
def code (content : Text) : List Text := (Text.lines content).filter fun line => !isIdle line

end Comment

/-! ## Layouts -/

/-- How a line may end. -/
inductive LineEnd where
  | newline
  | returnNewline
  deriving DecidableEq, Repr

/-- The bytes at the end of a line. -/
def LineEnd.bytes : LineEnd → Text
  | .newline => [Text.newline]
  | .returnNewline => [Text.carriageReturn, Text.newline]

/-- A line of code: neither blank nor a comment, and without carriage returns. -/
structure IsCode (line : Text) : Prop where
  newline : Text.newline ∉ line
  carriageReturn : Text.carriageReturn ∉ line
  ink : ¬ Text.isSpace line = true
  comment : ¬ Comment.IsComment line

/-- A line that is no code: a blank line or a comment. -/
structure IsFiller (line : Text) : Prop where
  newline : Text.newline ∉ line
  idle : Text.isSpace line = true ∨ Comment.IsComment line

/-- What a line adds to the code that follows it: itself, or nothing. -/
inductive Adds (line : Text) : (below code : List Text) → Prop
  | code (h : IsCode line) {below : List Text} : Adds line below (line :: below)
  | filler (h : IsFiller line) {below : List Text} : Adds line below below

/-- The texts that lines of code may be written as. The last line has no end; where the text ends
with the end of a line, it is an empty one. -/
inductive Layout : (code : List Text) → (content : Text) → Prop
  | last {line : Text} {code : List Text} (h : Adds line [] code) : Layout code line
  | line {line rest : Text} {below code : List Text} (h : Adds line below code) (ending : LineEnd)
      (hrest : Layout below rest) : Layout code (line ++ ending.bytes ++ rest)

namespace Adds

variable {line : Text} {below code : List Text}

theorem newline (h : Adds line below code) : Text.newline ∉ line := by
  cases h with
  | code h => exact h.newline
  | filler h => exact h.newline

/-- A line is read as what it adds, whether or not it loses a carriage return at its end. -/
theorem filter (h : Adds line below code) {line' : Text}
    (hline : line' = line ∨ line' = Text.chop Text.carriageReturn line) :
    ([line'].filter fun l => !Comment.isIdle l) ++ below = code := by
  have hidle : Comment.isIdle line' = Comment.isIdle line := by
    rcases hline with rfl | rfl
    · rfl
    · exact Comment.isIdle_chop_return line
  cases h with
  | filler h => simp [hidle, Comment.isIdle_iff.mpr h.idle]
  | code h =>
      have hcode : Comment.isIdle line = false := by
        rw [← Bool.not_eq_true, Comment.isIdle_iff, not_or]
        exact ⟨h.ink, h.comment⟩
      have hsame : line' = line := by
        rcases hline with hline | hline
        · exact hline
        · rw [hline, Text.chop_of_getLast?_ne]
          exact fun hlast => h.carriageReturn (List.mem_of_getLast? hlast)
      simp [hsame, hcode]

end Adds

/-- The code of a layout is the code that is laid out. -/
theorem code_of_layout {code : List Text} {content : Text} (h : Layout code content) :
    Comment.code content = code := by
  induction h with
  | @last line code h =>
      have hfilter := h.filter (.inr rfl)
      rw [List.append_nil] at hfilter
      rw [Comment.code, Text.lines_of_not_mem h.newline]
      split
      next hnil =>
        subst hnil
        exact hfilter
      next => exact hfilter
  | @line line rest below code h ending _ ih =>
      have hlines : ∃ line', (line' = line ∨ line' = Text.chop Text.carriageReturn line) ∧
          Text.lines (line ++ ending.bytes ++ rest) = line' :: Text.lines rest := by
        cases ending with
        | newline =>
            refine ⟨_, .inr rfl, ?_⟩
            rw [LineEnd.bytes, List.append_assoc]
            exact Text.lines_append_newline h.newline rest
        | returnNewline =>
            have hnewline : Text.newline ∉ line ++ [Text.carriageReturn] := by
              rw [List.mem_append, not_or]
              exact ⟨h.newline, by decide⟩
            refine ⟨line, .inl rfl, ?_⟩
            rw [LineEnd.bytes, List.append_cons, List.append_assoc]
            refine (Text.lines_append_newline hnewline rest).trans ?_
            simp [Text.chop]
      obtain ⟨line', hline', hlines⟩ := hlines
      rw [Comment.code, hlines, ← h.filter hline', ← ih, ← List.singleton_append,
        List.filter_append]
      rfl

theorem exists_adds {line : Text} (hnewline : Text.newline ∉ line)
    (hreturn : Comment.isIdle line = false → Text.carriageReturn ∉ line) (below : List Text) :
    Adds line below (([line].filter fun l => !Comment.isIdle l) ++ below) := by
  cases hidle : Comment.isIdle line with
  | true =>
      have hfilter : ([line].filter fun l => !Comment.isIdle l) ++ below = below := by simp [hidle]
      rw [hfilter]
      exact .filler ⟨hnewline, Comment.isIdle_iff.mp hidle⟩
  | false =>
      have hfilter : ([line].filter fun l => !Comment.isIdle l) ++ below = line :: below := by
        simp [hidle]
      have hcode : ¬ (Text.isSpace line = true ∨ Comment.IsComment line) := by
        rw [← Comment.isIdle_iff, hidle]
        exact Bool.false_ne_true
      rw [not_or] at hcode
      rw [hfilter]
      exact .code ⟨hnewline, hreturn hidle, hcode.1, hcode.2⟩

/-- A line in front of a newline has one of the two ends, and loses it when it is read. -/
theorem exists_ending (line rest : Text) : ∃ ending : LineEnd,
    line ++ Text.newline :: rest =
      Text.chop Text.carriageReturn line ++ ending.bytes ++ rest := by
  unfold Text.chop
  split
  next hlast =>
    refine ⟨.returnNewline, ?_⟩
    have happend : line.dropLast ++ [Text.carriageReturn, Text.newline] =
        line ++ [Text.newline] := by
      rw [List.append_cons, List.dropLast_append_getLast? Text.carriageReturn hlast]
    rw [LineEnd.bytes, happend, List.append_assoc]
    rfl
  next =>
    refine ⟨.newline, ?_⟩
    rw [LineEnd.bytes, List.append_assoc]
    rfl

/-- Every text is a layout of its code, unless carriage returns stand in the code or at the end of
the text. -/
theorem layout_code {content : Text} (hend : content.getLast? ≠ some Text.carriageReturn)
    (hcode : ∀ line ∈ Comment.code content, Text.carriageReturn ∉ line) :
    Layout (Comment.code content) content := by
  -- from line to line, each with the end that it has
  induction hlength : content.length using Nat.strongRecOn generalizing content with
  | ind n ih =>
      by_cases hmem : Text.newline ∈ content
      · obtain ⟨line, rest, rfl, hline⟩ := List.eq_append_cons_of_mem hmem
        let head := Text.chop Text.carriageReturn line
        have hsplit : Comment.code (line ++ Text.newline :: rest) =
            ([head].filter fun l => !Comment.isIdle l) ++ Comment.code rest := by
          rw [Comment.code, Text.lines_append_newline hline, ← List.singleton_append,
            List.filter_append]
          rfl
        obtain ⟨ending, hending⟩ := exists_ending line rest
        rw [hsplit, List.forall_mem_append] at hcode
        rw [hsplit, hending]
        refine .line (exists_adds ?_ (fun hidle => ?_) _) ending (ih _ ?_ ?_ hcode.2 rfl)
        · exact fun hnewline => hline (Text.chop_subset _ _ hnewline)
        · exact hcode.1 head (by simp [hidle])
        · rw [← hlength, List.length_append, List.length_cons]
          omega
        · intro hlast
          rw [List.getLast?_append, List.getLast?_cons, hlast] at hend
          exact hend rfl
      · have hcontent : Comment.code content =
            ([content].filter fun l => !Comment.isIdle l) ++ [] := by
          rw [Comment.code, Text.lines_of_not_mem hmem, Text.chop_of_getLast?_ne hend]
          split
          next hnil => rw [hnil]; rfl
          next => rw [List.append_nil]
        rw [hcontent] at hcode ⊢
        refine .last (exists_adds hmem (fun hidle => ?_) [])
        exact hcode content (by simp [hidle])

/-! ## Compilations -/

namespace Pipeline

/-- Sources are pulled alike if their scopes are received alike. -/
theorem pull_congr {σ : Type} {receive : Receiver σ} {ss ss' : List Scope}
    (h : List.Forall₂ (fun s s' => ∀ state, receive state (.scope s) = receive state (.scope s'))
      ss ss') (state : σ) :
    pull receive state (ss.map .ok) = pull receive state (ss'.map .ok) := by
  induction h generalizing state with
  | nil => rfl
  | cons hs _ ih =>
      rw [List.map_cons, List.map_cons, pull, pull, hs state]
      split
      next => rw [ih]
      next => rfl

end Pipeline

namespace Compiler

/-- Scopes that are written in two ways: the contents are layouts of the same code. -/
structure SameCode (s s' : Scope) : Prop where
  ns : s.ns = s'.ns
  name : s.name = s'.name
  layout : ∃ code, Layout code s.content ∧ Layout code s'.content

/-- Nothing of the layout is left after the first stage. -/
theorem SameCode.strip {s s' : Scope} (h : SameCode s s') :
    s.withContent (Comment.strip s.content) = s'.withContent (Comment.strip s'.content) := by
  obtain ⟨ns, name, content⟩ := s
  obtain ⟨ns', name', content'⟩ := s'
  obtain ⟨rfl, rfl, code, hcode, hcode'⟩ := h
  have hstrip : Comment.strip content = Comment.strip content' :=
    congrArg Text.unlines ((code_of_layout hcode).trans (code_of_layout hcode').symm)
  simp only [Scope.withContent, hstrip]

/-- Stages behind the one for comments do not see the layout. -/
theorem SameCode.deliver {κ : Type} {s s' : Scope} (h : SameCode s s') (receive : Receiver κ)
    (rest : List Stage) (state : Pipeline.Memory (.comments :: rest) × κ) :
    Pipeline.deliver receive (.comments :: rest) state (.scope s) =
      Pipeline.deliver receive (.comments :: rest) state (.scope s') := by
  obtain ⟨⟨m, ms⟩, k⟩ := state
  have haccept : Stage.comments.accept m s = Stage.comments.accept m s' :=
    congrArg (Reaction.pass m) h.strip
  rw [Pipeline.deliver, Pipeline.deliver, haccept]

/-- A compilation has the same outcome however the code of its sources is laid out. -/
theorem compile_ignores_layout (settings : Settings) (wanted : Option Nat) (ss ss' : List Scope)
    (h : List.Forall₂ SameCode ss ss') :
    compile settings wanted (ss.map .ok) = compile settings wanted (ss'.map .ok) := by
  have hpull : ∀ state, Pipeline.pull (Pipeline.deliver Collected.receive Stage.standard) state
      (ss.map .ok) = Pipeline.pull (Pipeline.deliver Collected.receive Stage.standard) state
      (ss'.map .ok) :=
    Pipeline.pull_congr (h.imp fun _ _ hs => hs.deliver Collected.receive _)
  rw [compile, compile, compileInto, compileInto, Pipeline.run, Pipeline.run, hpull]

/-- A definition, a block and a continued line, once bare and once with comments and blank lines in
the midst of them, with mixed ends of lines and none at the end. -/
theorem compile_ignores_layout_mixed :
    let ns : Namespace := ⟨{ path := ascii "packs/p", name := ascii "p" }, ascii "ns"⟩
    let bare : Scope := ⟨ns, ascii "main", ascii
      "generate function hi\n\tsay 1\n\tsay 2\nas @a\n\tcall hi\n\tback !\n"⟩
    let mixed : Scope := ⟨ns, ascii "main",
      ascii "\r\n# a\rb\r\ngenerate function hi\r\n\tsay 1\n\n #\n\tsay 2\n" ++
        ascii "as @a\r\n\t\t# c\n\tcall hi\n \r\n\tback !"⟩
    SameCode bare mixed ∧
      (compile {} none [.ok bare]).state.scopes.map Scope.content =
        [ascii "say 1\nsay 2!", ascii "as @a function ns:_/00/00/00/00"] ∧
      compile {} none [.ok bare] = compile {} none [.ok mixed] := by
  intro ns bare mixed
  have hcode : Comment.code bare.content = Comment.code mixed.content := by decide +kernel
  have hsame : SameCode bare mixed := by
    refine ⟨rfl, rfl, Comment.code bare.content, layout_code (by decide +kernel)
      (by decide +kernel), ?_⟩
    rw [hcode]
    exact layout_code (by decide +kernel) (by decide +kernel)
  exact ⟨hsame, by decide +kernel,
    compile_ignores_layout {} none [bare] [mixed] (.cons hsame .nil)⟩

end Compiler

end Packwright
