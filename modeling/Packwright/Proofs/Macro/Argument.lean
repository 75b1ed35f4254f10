import Mathlib.Data.List.SplitBy
import Mathlib.Data.List.TakeWhile
import Packwright.Macro.Argument

/-! # Arguments replace whole words

A line is cut into runs of word bytes and single other bytes. Passing arguments looks at the line
byte by byte, but where all parameters are words it does no more than to replace some of these
pieces: a parameter can start only where a run starts, and it is a whole token only where the run
ends (`matchParam_run`). What is put in is not looked at again (`passArguments_wordwise`).
-/

namespace Packwright

namespace Text

/-- A text that is not empty and consists of word bytes. -/
structure IsWord (w : Text) : Prop where
  ne_nil : w ≠ []
  bytes : ∀ b ∈ w, isWord b = true

/-- Whether a text ends in a word byte. -/
def endsInWord (t : Text) : Bool := (t.getLast?.map isWord).getD false

theorem IsWord.endsInWord {w : Text} (h : IsWord w) : endsInWord w = true := by
  rw [Text.endsInWord, List.getLast?_eq_some_getLast h.ne_nil]
  exact h.bytes _ (List.getLast_mem _)

/-- The pieces of a text: the maximal runs of word bytes, and single other bytes. -/
def runs (t : Text) : List Text := t.splitBy fun a b => isWord a && isWord b

/-- A text that no word goes on into: it is empty or starts with a byte that is none of a word. -/
def StartsApart (t : Text) : Prop := ∀ b ∈ t.head?, isWord b = false

theorem runs_append {w y : Text} (hw : IsWord w) (hy : StartsApart y) :
    runs (w ++ y) = w :: runs y := by
  have hchain : w.IsChain fun a b => (isWord a && isWord b) = true := by
    rw [List.isChain_iff_getElem]
    intro i hi
    rw [hw.bytes _ (List.getElem_mem _), hw.bytes _ (List.getElem_mem _)]
    rfl
  rw [runs, List.splitBy_append, List.splitBy_of_isChain hw.ne_nil hchain]
  · rfl
  · intro a _ b hb
    rw [hy b hb, Bool.and_false]

theorem runs_cons {b : UInt8} (hb : isWord b = false) (y : Text) :
    runs (b :: y) = [b] :: runs y := by
  rw [runs, ← List.singleton_append, List.splitBy_append]
  · rfl
  · intro a ha c _
    rw [List.getLast?_singleton, Option.mem_some_iff] at ha
    rw [← ha, hb, Bool.false_and]

/-- A text that starts with a word byte starts with a run. -/
theorem exists_run {b : UInt8} (hb : isWord b = true) (rest : Text) :
    ∃ w y, b :: rest = b :: w ++ y ∧ IsWord (b :: w) ∧ StartsApart y := by
  refine ⟨rest.takeWhile isWord, rest.dropWhile isWord, ?_, ⟨List.cons_ne_nil _ _, ?_⟩, ?_⟩
  · rw [List.cons_append, List.takeWhile_append_dropWhile]
  · rw [List.forall_mem_cons]
    exact ⟨hb, fun c hc => List.mem_takeWhile_imp hc⟩
  · intro c hc
    have := List.head?_dropWhile_not isWord rest
    rw [Option.mem_def] at hc
    rw [hc] at this
    simpa using this

end Text

namespace Macro

open Text (IsWord StartsApart runs)

/-- What is written for a piece of a line: the argument with the number of the first parameter that
is the piece, and the piece itself where there is none. -/
def argumentFor (params args : List Text) (piece : Text) : Text :=
  ((params.idxOf? piece).bind (args[·]?)).getD piece

variable {params args : List Text} {pairs : List (Text × Text)} {w y : Text} {b : UInt8}

/-! ## Parameters at the start of a text -/

/-- Of the words, a text starts with its first run alone as a whole token. -/
theorem startsWithToken_run {param : Text} (hparam : IsWord param) (hw : IsWord w)
    (hy : StartsApart y) : startsWithToken param (w ++ y) = (param == w) := by
  have hlast : (param.getLast?.map Text.isWord).getD false = true := hparam.endsInWord
  rw [Bool.eq_iff_iff, startsWithToken, hlast, beq_iff_eq]
  simp only [Bool.and_true, Bool.and_eq_true, Bool.not_eq_true', List.isEmpty_eq_false_iff,
    List.isPrefixOf_iff_prefix]
  constructor
  · rintro ⟨⟨-, hstart⟩, hend⟩
    rcases List.prefix_or_prefix_of_prefix hstart (List.prefix_append w y) with h | h
    · -- the rest of the run is empty, since no word byte follows the parameter
      obtain ⟨z, rfl⟩ := h
      cases z with
      | nil => rw [List.append_nil]
      | cons c z =>
          rw [List.append_assoc, List.drop_left] at hend
          have hc := hw.bytes c (by simp)
          simp [hc] at hend
    · -- the parameter ends with the run, since no word byte follows the run
      obtain ⟨z, rfl⟩ := h
      cases z with
      | nil => rw [List.append_nil]
      | cons c z =>
          obtain ⟨u, hu⟩ := hstart
          rw [List.append_assoc, List.append_cancel_left_eq] at hu
          have hapart := hy c (by rw [← hu]; rfl)
          rw [hparam.bytes c (by simp)] at hapart
          cases hapart
  · rintro rfl
    refine ⟨⟨hparam.ne_nil, List.prefix_append _ _⟩, ?_⟩
    rw [List.drop_left]
    cases y with
    | nil => rfl
    | cons c y => exact hy c rfl

theorem startsWithToken_apart {param : Text} (hparam : IsWord param)
    (hb : Text.isWord b = false) : startsWithToken param (b :: y) = false := by
  obtain ⟨c, rest, rfl⟩ := List.exists_cons_of_ne_nil hparam.ne_nil
  have hne : c ≠ b := by
    rintro rfl
    rw [hparam.bytes c List.mem_cons_self] at hb
    cases hb
  simp [startsWithToken, hne]

/-- Among candidates of one length the first one is kept. -/
theorem foldl_longer_eq_head? {pairs : List (Text × Text)} (h : ∀ pair ∈ pairs, pair.1 = w) :
    pairs.foldl longer none = pairs.head? := by
  have hkeep : ∀ (pairs : List (Text × Text)) (best : Text × Text), best.1 = w →
      (∀ pair ∈ pairs, pair.1 = w) → pairs.foldl longer (some best) = some best := by
    intro pairs best hbest hpairs
    induction pairs with
    | nil => rfl
    | cons pair pairs ih =>
        rw [List.forall_mem_cons] at hpairs
        rw [List.foldl_cons, longer, hbest, hpairs.1, if_neg (Nat.lt_irrefl _)]
        exact ih hpairs.2
  cases pairs with
  | nil => rfl
  | cons pair pairs =>
      rw [List.forall_mem_cons] at h
      exact hkeep pairs pair h.1 h.2

/-- The first pair of a parameter is its first place among the parameters, with the argument that
has this place. -/
theorem find?_zip (params args : List Text) (w : Text) :
    (params.zip args).find? (fun pair => pair.1 == w) =
      ((params.idxOf? w).bind (args[·]?)).map (w, ·) := by
  induction params generalizing args with
  | nil => rfl
  | cons param params ih =>
      cases args with
      | nil => simp
      | cons arg args =>
          rw [List.zip_cons_cons, List.find?_cons, List.idxOf?_cons]
          by_cases hparam : param = w
          · simp [hparam]
          · have hne : (param == w) = false := beq_eq_false_iff_ne.mpr hparam
            simp only [hne, ih, Bool.false_eq_true, if_false, Option.bind_map]
            rfl

/-- Where a run starts, the parameter that is the run is found. -/
theorem matchParam_run (args : List Text) (hparams : ∀ param ∈ params, IsWord param)
    (hw : IsWord w) (hy : StartsApart y) :
    matchParam (w ++ y) (params.zip args) = ((params.idxOf? w).bind (args[·]?)).map (w, ·) := by
  have hfilter : (params.zip args).filter (fun pair => startsWithToken pair.1 (w ++ y)) =
      (params.zip args).filter fun pair => pair.1 == w :=
    List.filter_congr fun pair hpair =>
      startsWithToken_run (hparams _ (List.of_mem_zip hpair).1) hw hy
  rw [matchParam, hfilter, foldl_longer_eq_head? (w := w), List.head?_filter, find?_zip]
  intro pair hpair
  simpa using List.of_mem_filter hpair

/-- Where no run starts, no parameter is found. -/
theorem matchParam_apart (args : List Text) (hparams : ∀ param ∈ params, IsWord param)
    (hb : Text.isWord b = false) (y : Text) :
    matchParam (b :: y) (params.zip args) = none := by
  have hfilter : (params.zip args).filter (fun pair => startsWithToken pair.1 (b :: y)) = [] := by
    rw [List.filter_eq_nil_iff]
    intro pair hpair
    rw [startsWithToken_apart (hparams _ (List.of_mem_zip hpair).1) hb]
    exact Bool.false_ne_true
  rw [matchParam, hfilter]
  rfl

/-! ## Passing along a line -/

/-- Inside a run nothing is replaced. -/
theorem passFrom_inside (hw : ∀ b ∈ w, Text.isWord b = true) (y : Text) :
    passFrom pairs true 0 (w ++ y) = w ++ passFrom pairs true 0 y := by
  induction w with
  | nil => rfl
  | cons b w ih =>
      rw [List.forall_mem_cons] at hw
      rw [List.cons_append, passFrom, hw.1, ih hw.2]
      rfl

/-- Behind a parameter that is passed, its last byte tells whether a word byte stands before. -/
theorem passFrom_passed (b : UInt8) (w y : Text) :
    passFrom pairs (Text.isWord b) w.length (w ++ y) =
      passFrom pairs (Text.endsInWord (b :: w)) 0 y := by
  induction w generalizing b with
  | nil => rfl
  | cons c w ih =>
      have hlast : Text.endsInWord (b :: c :: w) = Text.endsInWord (c :: w) := by
        rw [Text.endsInWord, List.getLast?_cons_cons, Text.endsInWord]
      rw [List.cons_append, List.length_cons, passFrom, ih, hlast]

/-- Behind a run it does not matter that a word byte came before. -/
theorem passFrom_behind (hparams : ∀ param ∈ params, IsWord param) (hy : StartsApart y) :
    passFrom (params.zip args) true 0 y = passFrom (params.zip args) false 0 y := by
  cases y with
  | nil => rfl
  | cons b y =>
      have hnone := matchParam_apart args hparams (hy b rfl) y
      simp only [passFrom, hnone]
      rfl

/-- A run is replaced as a whole. -/
theorem passFrom_run (hparams : ∀ param ∈ params, IsWord param) (hw : IsWord w)
    (hy : StartsApart y) :
    passFrom (params.zip args) false 0 (w ++ y) =
      argumentFor params args w ++ passFrom (params.zip args) false 0 y := by
  have hmatch := matchParam_run args hparams hw hy
  have hbytes := hw.bytes
  obtain ⟨b, rest, rfl⟩ := List.exists_cons_of_ne_nil hw.ne_nil
  rw [List.forall_mem_cons] at hbytes
  rw [List.cons_append] at hmatch ⊢
  have hpassed : passFrom (params.zip args) (Text.isWord b) rest.length (rest ++ y) = _ :=
    passFrom_passed b rest y
  rw [hbytes.1, hw.endsInWord] at hpassed
  rw [passFrom, argumentFor, if_neg Bool.false_ne_true, hmatch, hbytes.1]
  cases ((params.idxOf? (b :: rest)).bind (args[·]?)) with
  | none =>
      rw [← passFrom_behind hparams hy]
      exact congrArg (b :: ·) (passFrom_inside hbytes.2 y)
  | some arg =>
      rw [← passFrom_behind hparams hy]
      exact congrArg (arg ++ ·) hpassed

/-- A byte that is none of a word stays as it is. -/
theorem passFrom_apart (hparams : ∀ param ∈ params, IsWord param) (hb : Text.isWord b = false)
    (y : Text) :
    passFrom (params.zip args) false 0 (b :: y) =
      b :: passFrom (params.zip args) false 0 y := by
  have hnone := matchParam_apart args hparams hb y
  rw [passFrom, if_neg Bool.false_ne_true, hnone, hb]

theorem argumentFor_apart (hparams : ∀ param ∈ params, IsWord param)
    (hb : Text.isWord b = false) : argumentFor params args [b] = [b] := by
  have hnot : [b] ∉ params := by
    intro hmem
    have := (hparams _ hmem).bytes b List.mem_cons_self
    rw [hb] at this
    cases this
  rw [argumentFor, List.idxOf?_eq_none_iff.mpr hnot]
  rfl

/-- Where all parameters are words, passing arguments to a line replaces its pieces: each run that
is a parameter by the argument of the first such parameter, if it has one. -/
theorem passArguments_wordwise (params args : List Text) (line : Text)
    (hparams : ∀ param ∈ params, IsWord param) :
    passArguments params args line = (runs line).flatMap (argumentFor params args) := by
  unfold passArguments
  -- the induction goes from piece to piece, not from byte to byte
  induction hlength : line.length using Nat.strongRecOn generalizing line with
  | ind n ih =>
      cases line with
      | nil => rfl
      | cons b rest =>
          cases hb : Text.isWord b with
          | true =>
              obtain ⟨w, y, hline, hw, hy⟩ := Text.exists_run hb rest
              have hshort : y.length < n := by
                rw [← hlength, hline, List.length_append, List.length_cons]
                omega
              rw [hline, passFrom_run hparams hw hy, Text.runs_append hw hy, List.flatMap_cons,
                ih _ hshort y rfl]
          | false =>
              have hshort : rest.length < n := by
                rw [← hlength]
                simp
              rw [passFrom_apart hparams hb, Text.runs_cons hb, List.flatMap_cons,
                argumentFor_apart hparams hb, ih _ hshort rest rfl]
              rfl

open Text (ascii)

/-- One parameter begins with another, one comes twice, one has no argument, and arguments hold
parameters. -/
theorem passArguments_wordwise_overlapping :
    let params := [ascii "x", ascii "x_1", ascii "x", ascii "y"]
    let args := [ascii "x_1 y", ascii "(x)", ascii "never"]
    let line := ascii "x x_1;x_1x $y_ yx,y x"
    (∀ param ∈ params, IsWord param) ∧
      runs (ascii "x_1 $y") = [ascii "x_1", ascii " ", ascii "$", ascii "y"] ∧
      passArguments params args line = ascii "x_1 y (x);x_1x $y_ yx,y x_1 y" ∧
      passArguments params args line = (runs line).flatMap (argumentFor params args) := by
  intro params args line
  have hparams : ∀ param ∈ params, IsWord param := by
    have hbytes : ∀ param ∈ params, param ≠ [] ∧ ∀ b ∈ param, Text.isWord b = true := by
      decide +kernel
    exact fun param hparam => ⟨(hbytes param hparam).1, (hbytes param hparam).2⟩
  exact ⟨hparams, by decide +kernel, by decide +kernel,
    passArguments_wordwise params args line hparams⟩

end Macro

end Packwright
