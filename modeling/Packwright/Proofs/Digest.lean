import Mathlib.Data.List.Basic
import Packwright.Proofs.Substitution

/-! # Identifiers made from digests

An identifier is the beginning of a digest in base32. The digits are those of the standard in lower
case (`encode_eq`): the bits of the bytes are read five at a time, and each five give a digit.
Sixteen digits hold eighty bits, which are exactly ten bytes, so nothing of these bytes is lost and
nothing of the others is left.
-/

namespace Packwright

namespace Base32

open Text (ascii)

/-! ## The standard encoding -/

/-- The digits of the standard, by their values. -/
def alphabet : Text := ascii "ABCDEFGHIJKLMNOPQRSTUVWXYZ234567"

/-- The bits of a byte string, the most significant bit of each byte first. -/
def bits (t : Text) : List Bool := t.flatMap fun b => [7, 6, 5, 4, 3, 2, 1, 0].map b.toNat.testBit

/-- The number that bits spell, the most significant one first. -/
def spelt (bs : List Bool) : Nat := bs.foldl (fun n b => 2 * n + b.toNat) 0

/-- Reads bits five at a time. Zeros fill up the last five. -/
def fives : List Bool → List Nat
  | [] => []
  | a :: b :: c :: d :: e :: rest => spelt [a, b, c, d, e] :: fives rest
  | [a, b, c, d] => [spelt [a, b, c, d, false]]
  | [a, b, c] => [spelt [a, b, c, false, false]]
  | [a, b] => [spelt [a, b, false, false, false]]
  | [a] => [spelt [a, false, false, false, false]]

/-- The standard encoding: a digit for every five bits, filled up with `=` to groups of eight. -/
def standard (t : Text) : Text :=
  let digits := (fives (bits t)).map fun n => alphabet.getD n 0
  digits ++ List.replicate ((8 - digits.length % 8) % 8) 61

/-- A byte in lower case. -/
def lower (b : UInt8) : UInt8 := if 65 ≤ b && b ≤ 90 then b + 32 else b

theorem spelt_five_lt (a b c d e : Bool) : spelt [a, b, c, d, e] < 32 := by
  revert a b c d e
  decide

theorem lt_of_mem_fives {bs : List Bool} {n : Nat} (h : n ∈ fives bs) : n < 32 := by
  fun_induction fives bs with
  | case1 => cases h
  | case2 a b c d e rest ih =>
      rcases List.mem_cons.mp h with rfl | h
      · exact spelt_five_lt a b c d e
      · exact ih h
  | case3 | case4 | case5 | case6 =>
      rw [List.mem_singleton.mp h]
      exact spelt_five_lt _ _ _ _ _

/-- A digit is the one that the standard has for the value, in lower case. -/
theorem digit_eq {n : Nat} (h : n < 32) : digit n = lower (alphabet.getD n 0) := by
  have hall : ∀ n < 32, digit n = lower (alphabet.getD n 0) := by decide
  exact hall n h

theorem bits_append (x y : Text) : bits (x ++ y) = bits x ++ bits y := List.flatMap_append

theorem length_bits (t : Text) : (bits t).length = 8 * t.length := by
  induction t with
  | nil => rfl
  | cons b rest ih =>
      have hcons : (bits (b :: rest)).length = 8 + (bits rest).length := by
        rw [bits, List.flatMap_cons, List.length_append]
        rfl
      rw [hcons, ih, List.length_cons]
      omega

/-- Bits in whole fives, one five after the other. -/
theorem five_induction {motive : List Bool → Prop} (nil : motive [])
    (five : ∀ a b c d e rest, motive rest → motive (a :: b :: c :: d :: e :: rest))
    {x : List Bool} (hx : 5 ∣ x.length) : motive x := by
  induction x using fives.induct with
  | case1 => exact nil
  | case2 a b c d e rest ih =>
      apply five
      exact ih ((Nat.dvd_add_left (Nat.dvd_refl 5)).mp hx)
  | case3 | case4 | case5 | case6 => simp at hx

/-- Whole fives are read apart from what comes after them. -/
theorem fives_append {x : List Bool} (hx : 5 ∣ x.length) (y : List Bool) :
    fives (x ++ y) = fives x ++ fives y := by
  refine five_induction (motive := fun x => fives (x ++ y) = fives x ++ fives y) ?_ ?_ hx
  · rfl
  · intro a b c d e rest ih
    simp only [List.cons_append, fives, ih]

theorem length_fives {x : List Bool} (hx : 5 ∣ x.length) : 5 * (fives x).length = x.length := by
  refine five_induction (motive := fun x => 5 * (fives x).length = x.length) ?_ ?_ hx
  · rfl
  · intro a b c d e rest ih
    simp only [fives, List.length_cons, Nat.mul_add, ih]

theorem spelt_testBit (n s : Nat) :
    spelt [n.testBit (s + 4), n.testBit (s + 3), n.testBit (s + 2), n.testBit (s + 1),
      n.testBit (s + 0)] = (n >>> s) % 32 := by
  simp only [← Nat.testBit_shiftRight]
  generalize n >>> s = m
  -- A remainder modulo a power of two is the sum of its bits, each at its weight.
  have hmod : m % 2 ^ 5 = m % 2 ^ 0 + 2 ^ 0 * (m.testBit 0).toNat + 2 ^ 1 * (m.testBit 1).toNat +
      2 ^ 2 * (m.testBit 2).toNat + 2 ^ 3 * (m.testBit 3).toNat + 2 ^ 4 * (m.testBit 4).toNat := by
    rw [Nat.mod_pow_succ, Nat.mod_pow_succ, Nat.mod_pow_succ, Nat.mod_pow_succ, Nat.mod_pow_succ]
    simp only [Nat.toNat_testBit]
  simp only [spelt, List.foldl_cons, List.foldl_nil]
  omega

theorem testBit_byte (n : Nat) (b : UInt8) (i : Nat) :
    (n * 256 + b.toNat).testBit i = if i < 8 then b.toNat.testBit i else n.testBit (i - 8) := by
  rw [Nat.mul_comm]
  exact Nat.testBit_two_pow_mul_add n b.toNat_lt i

/-- The digits of a group are those of its forty bits. -/
theorem group_eq (a b c d e : UInt8) :
    group a b c d e = (fives (bits [a, b, c, d, e])).map digit := by
  -- The bits of the group are those of one number of forty bits, cut at every fifth.
  let n := (((a.toNat * 256 + b.toNat) * 256 + c.toNat) * 256 + d.toNat) * 256 + e.toNat
  have hbits : bits [a, b, c, d, e] = [35, 30, 25, 20, 15, 10, 5, 0].flatMap fun s =>
      [n.testBit (s + 4), n.testBit (s + 3), n.testBit (s + 2), n.testBit (s + 1),
        n.testBit (s + 0)] := by
    simp [bits, n, testBit_byte]
  have hfives : fives (bits [a, b, c, d, e]) =
      [35, 30, 25, 20, 15, 10, 5, 0].map fun s => (n >>> s) % 32 := by
    simp only [hbits, List.flatMap_cons, List.flatMap_nil, List.cons_append, List.nil_append,
      fives, spelt_testBit, List.map_cons, List.map_nil]
  rw [hfives, List.map_map]
  rfl

/-- The digits of a byte string, without what fills up the last group. -/
def digits (t : Text) : Text := (fives (bits t)).map digit

theorem digits_eq (t : Text) :
    digits t = ((fives (bits t)).map fun n => alphabet.getD n 0).map lower := by
  rw [digits, List.map_map]
  apply List.map_congr_left
  intro n hn
  exact digit_eq (lt_of_mem_fives hn)

/-- The bits of whole groups are whole fives. -/
theorem dvd_length_bits {x : Text} (hx : 5 ∣ x.length) : 5 ∣ (bits x).length := by
  rw [length_bits]
  exact Nat.dvd_mul_left_of_dvd hx 8

theorem digits_append {x : Text} (hx : 5 ∣ x.length) (y : Text) :
    digits (x ++ y) = digits x ++ digits y := by
  rw [digits, bits_append, fives_append (dvd_length_bits hx), List.map_append]
  rfl

theorem length_digits {x : Text} (hx : 5 ∣ x.length) : 5 * (digits x).length = 8 * x.length := by
  rw [digits, List.length_map, length_fives (dvd_length_bits hx), length_bits]

/-- Only the last group is filled up: whole groups add eight digits at a time. -/
theorem encode_eq_digits (t : Text) :
    encode t = digits t ++ List.replicate ((8 - (digits t).length % 8) % 8) 61 := by
  fun_induction encode t with
  | case1 a b c d e rest ih =>
      have hgroup : digits [a, b, c, d, e] = group a b c d e := (group_eq a b c d e).symm
      have happend : digits (a :: b :: c :: d :: e :: rest) = group a b c d e ++ digits rest := by
        have hfive : 5 ∣ [a, b, c, d, e].length := Nat.dvd_refl 5
        rw [← hgroup]
        exact digits_append hfive rest
      have hlength : (digits (a :: b :: c :: d :: e :: rest)).length % 8 =
          (digits rest).length % 8 := by
        rw [happend, List.length_append]
        exact Nat.add_mod_left 8 _
      rw [hlength, happend, List.append_assoc, ← ih]
  | case2 a b c d =>
      rw [padded, group_eq]
      rfl
  | case3 a b c =>
      rw [padded, group_eq]
      rfl
  | case4 a b =>
      rw [padded, group_eq]
      rfl
  | case5 a =>
      rw [padded, group_eq]
      rfl
  | case6 => rfl

/-- The encoding is the standard one in lower case. -/
theorem encode_eq (t : Text) : encode t = (standard t).map lower := by
  have hlength : (digits t).length = ((fives (bits t)).map fun n => alphabet.getD n 0).length := by
    rw [digits_eq, List.length_map]
  rw [encode_eq_digits, hlength, digits_eq, standard, List.map_append, List.map_replicate]
  rfl

/-! ## Nothing is lost in whole groups -/

theorem digit_inj {m n : Nat} (hm : m < 32) (hn : n < 32) (h : digit m = digit n) : m = n := by
  have hall : ∀ m < 32, ∀ n < 32, digit m = digit n → m = n := by decide
  exact hall m hm n hn h

theorem map_digit_inj {ms ns : List Nat} (hms : ∀ m ∈ ms, m < 32) (hns : ∀ n ∈ ns, n < 32)
    (h : ms.map digit = ns.map digit) : ms = ns := by
  induction ms generalizing ns with
  | nil => exact (List.map_eq_nil_iff.mp h.symm).symm
  | cons m ms ih =>
      cases ns with
      | nil => cases h
      | cons n ns =>
          obtain ⟨hhead, htail⟩ := List.cons.inj h
          rw [digit_inj (hms m List.mem_cons_self) (hns n List.mem_cons_self) hhead,
            ih (fun m hm => hms m (List.mem_cons_of_mem _ hm))
              (fun n hn => hns n (List.mem_cons_of_mem _ hn)) htail]

theorem spelt_concat (bs : List Bool) (b : Bool) : spelt (bs ++ [b]) = 2 * spelt bs + b.toNat := by
  simp [spelt]

/-- Bits of equal number that spell the same are the same. -/
theorem spelt_inj {x y : List Bool} (hlength : x.length = y.length) (h : spelt x = spelt y) :
    x = y := by
  induction x using List.reverseRecOn generalizing y with
  | nil => exact (List.length_eq_zero_iff.mp hlength.symm).symm
  | append_singleton x a ih =>
      rcases List.eq_nil_or_concat' y with rfl | ⟨y, b, rfl⟩
      · simp at hlength
      · rw [spelt_concat, spelt_concat] at h
        rw [List.length_append, List.length_append] at hlength
        have ha := a.toNat_le
        have hb := b.toNat_le
        have hspelt : spelt x = spelt y := by omega
        have hbit : a.toNat = b.toNat := by omega
        have hlast : a = b := by
          revert hbit
          cases a <;> cases b <;> decide
        rw [hlast, ih (Nat.add_right_cancel hlength) hspelt]

theorem fives_inj {x y : List Bool} (hx : 5 ∣ x.length) (hlength : x.length = y.length)
    (h : fives x = fives y) : x = y := by
  refine five_induction
    (motive := fun x => ∀ y, x.length = y.length → fives x = fives y → x = y) ?_ ?_ hx y hlength h
  · intro y hlength _
    exact (List.length_eq_zero_iff.mp hlength.symm).symm
  · intro a b c d e x ih y hlength h
    match y, hlength with
    | a' :: b' :: c' :: d' :: e' :: y, hlength =>
        simp only [fives, List.cons.injEq] at h
        have hfive : [a, b, c, d, e] = [a', b', c', d', e'] := spelt_inj rfl h.1
        have hrest : x = y := ih y (by simpa using hlength) h.2
        simp_all

theorem byte_inj {a b : UInt8} (h : [7, 6, 5, 4, 3, 2, 1, 0].map a.toNat.testBit =
    [7, 6, 5, 4, 3, 2, 1, 0].map b.toNat.testBit) : a = b := by
  apply UInt8.toNat_inj.mp
  apply Nat.eq_of_testBit_eq
  intro i
  by_cases hi : i < 8
  · have hmem : ∀ i < 8, i ∈ [7, 6, 5, 4, 3, 2, 1, 0] := by decide
    exact List.map_inj_left.mp h i (hmem i hi)
  · have hpow : 2 ^ 8 ≤ 2 ^ i := Nat.pow_le_pow_right (by decide) (by omega)
    rw [Nat.testBit_lt_two_pow (a.toNat_lt.trans_le hpow),
      Nat.testBit_lt_two_pow (b.toNat_lt.trans_le hpow)]

theorem bits_injective : Function.Injective bits := by
  intro x y h
  induction x generalizing y with
  | nil =>
      cases y with
      | nil => rfl
      | cons b y => cases h
  | cons a x ih =>
      cases y with
      | nil => cases h
      | cons b y =>
          rw [bits, bits, List.flatMap_cons, List.flatMap_cons] at h
          obtain ⟨hbyte, hrest⟩ := List.append_inj h rfl
          rw [byte_inj hbyte, ih hrest]

theorem digits_inj {x y : Text} (hx : 5 ∣ x.length) (hlength : x.length = y.length)
    (h : digits x = digits y) : x = y := by
  apply bits_injective
  apply fives_inj (dvd_length_bits hx)
  · rw [length_bits, length_bits, hlength]
  · exact map_digit_inj (fun _ => lt_of_mem_fives) (fun _ => lt_of_mem_fives) h

/-- Whole groups at the beginning of an encoding are the digits of the bytes at its beginning. -/
theorem take_encode {k : Nat} {t : Text} (h : 5 * k ≤ t.length) :
    (encode t).take (8 * k) = digits (t.take (5 * k)) := by
  have hfront : (t.take (5 * k)).length = 5 * k := List.length_take_of_le h
  have hgroups : 5 ∣ (t.take (5 * k)).length := ⟨k, hfront⟩
  have hlength : (digits (t.take (5 * k))).length = 8 * k := by
    have := length_digits hgroups
    omega
  have hdigits : digits t = digits (t.take (5 * k)) ++ digits (t.drop (5 * k)) := by
    rw [← digits_append hgroups, List.take_append_drop]
  rw [encode_eq_digits, hdigits, List.append_assoc, ← hlength, List.take_left]

theorem take_encode_inj {k : Nat} {x y : Text} (hx : 5 * k ≤ x.length) (hy : 5 * k ≤ y.length) :
    (encode x).take (8 * k) = (encode y).take (8 * k) ↔ x.take (5 * k) = y.take (5 * k) := by
  have hfront := List.length_take_of_le hx
  rw [take_encode hx, take_encode hy]
  constructor
  · exact digits_inj ⟨k, hfront⟩ (hfront.trans (List.length_take_of_le hy).symm)
  · exact congrArg digits

theorem mem_digits {t : Text} {b : UInt8} (h : b ∈ digits t) :
    b ∈ ascii "abcdefghijklmnopqrstuvwxyz234567" := by
  obtain ⟨n, hn, rfl⟩ := List.mem_map.mp h
  have hall : ∀ n < 32, digit n ∈ ascii "abcdefghijklmnopqrstuvwxyz234567" := by decide
  exact hall n (lt_of_mem_fives hn)

end Base32

namespace Substitution

open Text (ascii)

/-- An identifier is the beginning of the digest in standard base32, put in lower case. It consists
of sixteen letters and digits, and it tells the first ten bytes of the digest and nothing else. -/
theorem contentHash_tells_ten_bytes (value : Text) :
    contentHash value = ((Base32.standard (Sha256.digest value)).take 16).map Base32.lower ∧
    (Sha256.digest value).length = 32 ∧ (contentHash value).length = 16 ∧
    contentHash value ⊆ ascii "abcdefghijklmnopqrstuvwxyz234567" ∧
    ∀ other : Text, contentHash value = contentHash other ↔
      (Sha256.digest value).take 10 = (Sha256.digest other).take 10 := by
  have hlength : ∀ v : Text, 5 * 2 ≤ (Sha256.digest v).length := by
    intro v
    rw [Sha256.length_digest]
    decide
  have hdigits : contentHash value = Base32.digits ((Sha256.digest value).take (5 * 2)) :=
    Base32.take_encode (hlength value)
  refine ⟨?_, Sha256.length_digest value, ?_, ?_, ?_⟩
  · rw [contentHash, Base32.encode_eq, List.map_take]
  · have hten := List.length_take_of_le (hlength value)
    have hsixteen := Base32.length_digits ⟨2, hten⟩
    rw [hdigits]
    omega
  · rw [hdigits]
    intro b hb
    exact Base32.mem_digits hb
  · intro other
    exact Base32.take_encode_inj (hlength value) (hlength other)

example : contentHash (ascii "abc") = ascii "xj4bnp4pahh6uqkb" := by decide +kernel

end Substitution

end Packwright
