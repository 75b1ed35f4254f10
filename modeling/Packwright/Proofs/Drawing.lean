import Mathlib.Data.List.ReduceOption
import Mathlib.Logic.Function.Iterate
import Packwright.Proofs.Anonymous

/-! # Drawing names

An allocator hands out the names of consecutive ids, as many as remain, and none after that
(`draw_after`). Names drawn from an ascending and a descending allocator in any order are all
different, and they are names of functions (`draws_distinct`).
-/

namespace Packwright

namespace Text

/-- ASCII bytes are read one by one. -/
theorem chars_of_ascii {t : Text} (h : ∀ b ∈ t, b < 0x80) :
    chars t = t.map fun b => Char.ofNat b.toNat := by
  induction t with
  | nil => rfl
  | cons a rest ih =>
      rw [List.forall_mem_cons] at h
      have hsequence : sequenceAt a rest = some (Char.ofNat a.toNat, 0) := if_pos h.1
      rw [List.map_cons, ← ih h.2]
      simp only [chars, pieces, piecesFrom, hsequence, List.map_cons, Piece.toChar]

end Text

namespace Name

/-- Slashes that separate nothing leave an empty part. -/
theorem nil_mem_splitOn_of_misplacedSlash {name : Text} (h : misplacedSlash name = true) :
    [] ∈ name.splitOn Text.slash := by
  have hfirst : ∀ rest : Text, [] ∈ (Text.slash :: rest).splitOn Text.slash := by
    intro rest
    rw [List.splitOn_cons_eq_if_modifyHead]
    simp
  simp only [misplacedSlash, Bool.or_eq_true, beq_iff_eq, Text.occursIn_iff] at h
  rcases h with (hhead | hlast) | ⟨before, after, rfl⟩
  · obtain ⟨rest, rfl⟩ := List.head?_eq_some_iff.mp hhead
    exact hfirst rest
  · obtain ⟨before, rfl⟩ := List.getLast?_eq_some_iff.mp hlast
    rw [List.splitOn_append_cons_self]
    simp
  · rw [List.append_assoc, List.cons_append, List.splitOn_append_cons_self]
    exact List.mem_append_right _ (hfirst after)

/-- What a name of a kind is made of. -/
theorem validate_eq_ok {kind : NameKind} {name : Text} (hne : name ≠ [])
    (hbytes : ∀ b ∈ name, isNameByte b = true ∨ (kind = .function ∧ b = Text.slash))
    (hslash : [] ∉ name.splitOn Text.slash) : validate kind name = .ok () := by
  have hname : ∀ n < 256, isNameByte n.toUInt8 = true →
      n < 128 ∧ isNameChar (Char.ofNat n) = true := by decide +kernel
  have hbyte : ∀ b, isNameByte b = true →
      b.toNat < 128 ∧ isNameChar (Char.ofNat b.toNat) = true := by
    intro b hb
    apply hname b.toNat b.toNat_lt
    simpa using hb
  have hascii : ∀ b ∈ name, b < 0x80 := by
    intro b hb
    rcases hbytes b hb with hb | ⟨-, rfl⟩
    · exact UInt8.lt_iff_toNat_lt.mpr (hbyte b hb).1
    · decide
  have hallows : ((Text.chars name).find? fun c => !allows kind c) = none := by
    rw [Text.chars_of_ascii hascii, List.find?_eq_none]
    intro c hc
    obtain ⟨b, hb, rfl⟩ := List.mem_map.mp hc
    rcases hbytes b hb with hb | ⟨rfl, rfl⟩
    · simp [allows, (hbyte b hb).2]
    · decide
  have hplaced : misplacedSlash name = false := by
    by_contra hmisplaced
    exact hslash (nil_mem_splitOn_of_misplacedSlash (by simpa using hmisplaced))
  simp [validate, hne, hallows, hplaced]

end Name

namespace Anonymous

/-- The name of every id is a name of a function. -/
theorem validate_name (id : UInt32) : Name.validate .function (name id) = .ok () := by
  have hparts : ∀ part ∈ Text.ascii "_" :: [24, 16, 8, 0].map fun shift =>
      Text.hex 2 ((id.toNat >>> shift) % 256), part ≠ [] ∧ Text.slash ∉ part := by
    intro part hpart
    rcases List.mem_cons.mp hpart with rfl | hpart
    · decide
    · obtain ⟨shift, -, rfl⟩ := List.mem_map.mp hpart
      refine ⟨fun hnil => ?_, fun hslash => absurd (isNameByte_of_mem_hex hslash) (by decide)⟩
      exact absurd (hnil ▸ length_hex 2 _) (by decide)
  apply Name.validate_eq_ok
  · rw [name_eq]
    exact List.cons_ne_nil _ _
  · exact fun b hb => (isNameByte_of_mem hb).imp_right fun hslash => ⟨rfl, hslash⟩
  · rw [name, Text.join, List.splitOn_intercalate _ (fun part hpart => (hparts part hpart).2)
      (List.cons_ne_nil _ _)]
    exact fun hmem => (hparts [] hmem).1 rfl

end Anonymous

namespace Allocator

/-- The allocator once a name was asked for. One that has no name left stays as it is. -/
def spend (a : Allocator) : Allocator := (a.draw.map Prod.snd).getD a

/-- The allocator once `n` names were asked for. -/
def after (a : Allocator) (n : Nat) : Allocator := spend^[n] a

/-- Nothing is drawn where no id remains. Otherwise the next id is, and if ids remain then, the one
behind it comes next. -/
theorem draw_cases (a : Allocator) :
    (a.remaining = 0 ∧ a.draw = none ∧ a.spend = a) ∨
      (a.draw = some (Anonymous.name a.next, a.spend) ∧ a.spend.remaining + 1 = a.remaining ∧
        a.spend.direction = a.direction ∧
        (a.spend.remaining ≠ 0 → a.spend.next = a.direction.step a.next)) := by
  cases hdraw : a.draw with
  | none =>
      have hexhausted : a.exhausted = true := by
        by_contra hfresh
        rw [draw, if_neg hfresh] at hdraw
        split at hdraw <;> cases hdraw
      exact .inl ⟨by simp [remaining, hexhausted], rfl, by simp [spend, hdraw]⟩
  | some found =>
      obtain ⟨name, b⟩ := found
      have hspend : a.spend = b := by simp [spend, hdraw]
      obtain ⟨hdirection, -, rfl, -⟩ := draw_next hdraw
      refine .inr ⟨by rw [hspend], by rw [hspend]; exact remaining_draw hdraw,
        by rw [hspend]; exact hdirection, ?_⟩
      rw [hspend]
      intro hleft
      unfold draw at hdraw
      split at hdraw
      next => cases hdraw
      next =>
        split at hdraw
        next =>
          cases hdraw
          exact absurd rfl hleft
        next =>
          cases hdraw
          rfl

theorem after_succ (a : Allocator) (n : Nat) : a.after (n + 1) = a.spend.after n :=
  Function.iterate_succ_apply spend n a

theorem after_add (a : Allocator) (m n : Nat) : a.after (m + n) = (a.after m).after n := by
  rw [after, Nat.add_comm, Function.iterate_add_apply]
  rfl

theorem remaining_after (a : Allocator) (n : Nat) : (a.after n).remaining = a.remaining - n := by
  induction n generalizing a with
  | zero => rfl
  | succ n ih =>
      rw [after_succ, ih]
      rcases a.draw_cases with ⟨hnone, -, hsame⟩ | ⟨-, hremaining, -⟩
      · rw [hsame]
        omega
      · omega

/-- The ids that remain follow each other. -/
theorem next_after {a : Allocator} {n : Nat} (h : n < a.remaining) :
    (a.after n).next = a.direction.step^[n] a.next := by
  induction n generalizing a with
  | zero => rfl
  | succ n ih =>
      rcases a.draw_cases with ⟨hnone, -⟩ | ⟨-, hremaining, hdirection, hnext⟩
      · omega
      · rw [after_succ, ih (by omega), hdirection, hnext (by omega),
          Function.iterate_succ_apply]

/-- What is drawn once `n` names were asked for: the name of the `n`-th id from the next one on, as
long as ids remain. -/
theorem draw_after (a : Allocator) (n : Nat) :
    (a.after n).draw.map Prod.fst =
      if n < a.remaining then some (Anonymous.name (a.direction.step^[n] a.next)) else none := by
  have hremaining := a.remaining_after n
  rcases (a.after n).draw_cases with ⟨hnone, hdraw, -⟩ | ⟨hdraw, hsome, -⟩
  · rw [hdraw, if_neg (by omega)]
    rfl
  · have hn : n < a.remaining := by omega
    rw [hdraw, if_pos hn, next_after hn]
    rfl

end Allocator

namespace Direction

/-- An allocator that has handed out nothing yet. -/
def fresh : Direction → Allocator
  | .ascending => .ascending
  | .descending => .descending

theorem direction_fresh (d : Direction) : d.fresh.direction = d := by cases d <;> rfl

theorem remaining_fresh (d : Direction) : d.fresh.remaining = 2 ^ 31 := by cases d <;> decide

theorem toNat_ascend {id : UInt32} {n : Nat} (h : id.toNat + n < 2 ^ 32) :
    (ascending.step^[n] id).toNat = id.toNat + n := by
  induction n with
  | zero => rfl
  | succ n ih =>
      rw [Function.iterate_succ_apply', step, UInt32.toNat_add, ih (by omega)]
      simp only [UInt32.reduceToNat]
      omega

theorem toNat_descend {id : UInt32} {n : Nat} (h : n ≤ id.toNat) :
    (descending.step^[n] id).toNat = id.toNat - n := by
  have hid := id.toNat_lt
  induction n with
  | zero => rfl
  | succ n ih =>
      rw [Function.iterate_succ_apply', step, UInt32.toNat_sub, ih (by omega)]
      simp only [UInt32.reduceToNat]
      omega

/-- The two halves of the id space hold different ids, and each holds an id once. -/
theorem step_fresh_inj {d d' : Direction} {n n' : Nat} (h : n < 2 ^ 31) (h' : n' < 2 ^ 31)
    (heq : d.step^[n] d.fresh.next = d'.step^[n'] d'.fresh.next) : d = d' ∧ n = n' := by
  have hascend : ∀ n < 2 ^ 31, (ascending.step^[n] ascending.fresh.next).toNat = n := by
    intro n hn
    rw [toNat_ascend (by simp [fresh, Allocator.ascending]; omega)]
    simp [fresh, Allocator.ascending]
  have hdescend : ∀ n < 2 ^ 31,
      (descending.step^[n] descending.fresh.next).toNat = 2 ^ 32 - 1 - n := by
    intro n hn
    rw [toNat_descend (by simp [fresh, Allocator.descending]; omega)]
    simp [fresh, Allocator.descending]
  replace heq := congrArg UInt32.toNat heq
  cases d with
  | ascending =>
      rw [hascend n h] at heq
      cases d' with
      | ascending =>
          rw [hascend n' h'] at heq
          exact ⟨rfl, heq⟩
      | descending =>
          rw [hdescend n' h'] at heq
          omega
  | descending =>
      rw [hdescend n h] at heq
      cases d' with
      | ascending =>
          rw [hascend n' h'] at heq
          omega
      | descending =>
          rw [hdescend n' h'] at heq
          exact ⟨rfl, by omega⟩

end Direction

namespace Allocator

/-- The answers of two allocators that are asked for names in a given order: a name, or none where
the one that is asked has none left. -/
def draws (pool : Direction → Allocator) : List Direction → List (Option Text)
  | [] => []
  | d :: calls =>
    (pool d).draw.map Prod.fst :: draws (Function.update pool d (pool d).spend) calls

/-- Each allocator answers as if it were the only one. -/
theorem draws_eq_mapIdx (pool : Direction → Allocator) (calls : List Direction) :
    draws pool calls = calls.mapIdx fun i d =>
      ((pool d).after ((calls.take i).count d)).draw.map Prod.fst := by
  induction calls generalizing pool with
  | nil => rfl
  | cons d calls ih =>
      rw [draws, List.mapIdx_cons, ih]
      congr 2
      funext i d'
      by_cases hd : d' = d
      · subst hd
        rw [Function.update_self, List.take_succ_cons, List.count_cons_self, after_succ]
      · rw [Function.update_of_ne hd, List.take_succ_cons, List.count_cons_of_ne (Ne.symm hd)]

/-- The `i`-th call comes behind all calls of its direction before it, so it counts more of them. -/
theorem count_take_lt {calls : List Direction} {i j : Nat} (hi : i < calls.length) (hij : i < j) :
    (calls.take i).count calls[i] < (calls.take j).count calls[i] := by
  have hsub : (calls.take (i + 1)).Sublist (calls.take j) :=
    (List.take_prefix_take_left hij).sublist
  have hle := hsub.count_le calls[i]
  rw [List.take_succ_eq_append_getElem hi, List.count_append, List.count_singleton_self] at hle
  exact hle

/-- Whatever the order in which an ascending and a descending allocator are asked for names, each
hands out the names of the ids of its half one after the other at its first `2 ^ 31` calls and none
at any later one. All these names are different, and names of functions; the name of an id tells the
id. -/
theorem draws_distinct (calls : List Direction) :
    let answers := draws Direction.fresh calls
    answers = calls.mapIdx (fun i d =>
      let n := (calls.take i).count d
      if n < 2 ^ 31 then some (Anonymous.name (d.step^[n] d.fresh.next)) else none) ∧
    answers.reduceOption.Nodup ∧
    (∀ name ∈ answers.reduceOption, Name.validate .function name = .ok ()) ∧
    Function.Injective Anonymous.name := by
  intro answers
  have hanswers : answers = calls.mapIdx fun i d =>
      let n := (calls.take i).count d
      if n < 2 ^ 31 then some (Anonymous.name (d.step^[n] d.fresh.next)) else none := by
    simp only [answers, draws_eq_mapIdx, draw_after, Direction.direction_fresh,
      Direction.remaining_fresh]
  refine ⟨hanswers, ?_, fun name hname => ?_, fun _ _ => Anonymous.name_injective⟩
  · rw [hanswers, List.reduceOption, List.Nodup, List.pairwise_filterMap,
      List.pairwise_iff_getElem]
    intro i j hi hj hij name hname name' hname' heq
    subst heq
    simp only [List.getElem_mapIdx, id_eq, Option.ite_none_right_eq_some, Option.some.injEq]
      at hname hname'
    rw [List.length_mapIdx] at hi
    obtain ⟨hd, hn⟩ := Direction.step_fresh_inj hname.1 hname'.1
      (Anonymous.name_injective (hname.2.trans hname'.2.symm))
    have hlt := count_take_lt hi hij
    rw [hd] at hlt hn
    omega
  · rw [List.reduceOption_mem_iff, hanswers] at hname
    obtain ⟨i, hi, hanswer⟩ := List.mem_mapIdx.mp hname
    obtain ⟨-, hsome⟩ := Option.ite_none_right_eq_some.mp hanswer
    rw [← Option.some.inj hsome]
    exact Anonymous.validate_name _

/-- The two allocators in turns. -/
theorem draws_distinct_turns :
    let answers := draws Direction.fresh [.ascending, .descending, .descending, .ascending]
    answers = [some (Text.ascii "_/00/00/00/00"), some (Text.ascii "_/ff/ff/ff/ff"),
      some (Text.ascii "_/ff/ff/ff/fe"), some (Text.ascii "_/00/00/00/01")] ∧
    answers.reduceOption.Nodup ∧
    Name.validate .function (Text.ascii "_/ff/ff/ff/fe") = .ok () := by
  intro answers
  obtain ⟨-, hnodup, hvalid, -⟩ :=
    draws_distinct [.ascending, .descending, .descending, .ascending]
  exact ⟨by decide +kernel, hnodup, hvalid _ (by decide +kernel)⟩

end Allocator

end Packwright
