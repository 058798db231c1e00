import Tortue.Domain.Primitive
import Mathlib.Data.Nat.Digits.Lemmas

namespace Tortue

def digitOf (d : Nat) : UInt8 := ascii '0' + d.toUInt8

def valueOf (b : UInt8) : Nat := b.toNat - (ascii '0').toNat

theorem isDigit_iff (b : UInt8) : isDigit b = true ↔ 48 ≤ b.toNat ∧ b.toNat ≤ 57 := by
  have hlow : (ascii '0').toNat = 48 := by decide
  have hhigh : (ascii '9').toNat = 57 := by decide
  simp only [isDigit, Bool.and_eq_true, decide_eq_true_eq, UInt8.le_iff_toNat_le, hlow, hhigh]

theorem toNat_digitOf {d : Nat} (h : d < 10) : (digitOf d).toNat = 48 + d := by
  have hlow : (ascii '0').toNat = 48 := by decide
  have hd : (d.toUInt8).toNat = d := UInt8.toNat_ofNat_of_lt (h.trans (by decide))
  rw [digitOf, UInt8.toNat_add, hlow, hd]
  omega

theorem isDigit_digitOf {d : Nat} (h : d < 10) : isDigit (digitOf d) = true := by
  rw [isDigit_iff, toNat_digitOf h]
  omega

theorem valueOf_digitOf {d : Nat} (h : d < 10) : valueOf (digitOf d) = d := by
  have hlow : (ascii '0').toNat = 48 := by decide
  rw [valueOf, toNat_digitOf h, hlow]
  omega

theorem valueOf_lt {b : UInt8} (h : isDigit b = true) : valueOf b < 10 := by
  have hlow : (ascii '0').toNat = 48 := by decide
  rw [isDigit_iff] at h
  rw [valueOf, hlow]
  omega

theorem digitOf_valueOf {b : UInt8} (h : isDigit b = true) : digitOf (valueOf b) = b := by
  have hlow : (ascii '0').toNat = 48 := by decide
  have hvalue := toNat_digitOf (valueOf_lt h)
  rw [isDigit_iff] at h
  rw [valueOf, hlow] at hvalue
  refine UInt8.toNat_inj.mp ?_
  rw [valueOf, hlow, hvalue]
  omega

theorem digitsValue_append (s : Bytes) (b : UInt8) :
    digitsValue (s ++ [b]) = 10 * digitsValue s + valueOf b := by
  simp only [digitsValue, List.foldl_append, List.foldl_cons, List.foldl_nil]
  rfl

theorem digitsValue_eq (s : Bytes) :
    digitsValue s = Nat.ofDigits 10 (s.reverse.map valueOf) := by
  induction s using List.reverseRecOn with
  | nil => rfl
  | append_singleton s b ih =>
    rw [digitsValue_append, ih, List.reverse_append, List.reverse_singleton, List.singleton_append,
      List.map_cons, Nat.ofDigits_cons, add_comm]

theorem decimal_pos {n : Nat} (h : 0 < n) : decimal n = (Nat.digits 10 n).reverse.map digitOf := by
  rw [decimal, if_neg (by omega)]
  rfl

theorem length_decimal_le {n k : Nat} (hk : 0 < k) (h : n < 10 ^ k) : (decimal n).length ≤ k := by
  rcases Nat.eq_zero_or_pos n with rfl | hpos
  · exact hk
  · rw [decimal_pos hpos, List.length_map, List.length_reverse]
    exact (Nat.digits_length_le_iff (by norm_num) n).mpr h

theorem decimal_zero : decimal 0 = [ascii '0'] := rfl

theorem map_valueOf_digits (n : Nat) :
    ((Nat.digits 10 n).map digitOf).map valueOf = Nat.digits 10 n := by
  rw [List.map_map]
  refine (List.map_congr_left fun d hd => ?_).trans (List.map_id _)
  exact valueOf_digitOf (Nat.digits_lt_base (by norm_num) hd)

theorem digitsValue_decimal (n : Nat) : digitsValue (decimal n) = n := by
  rcases Nat.eq_zero_or_pos n with rfl | hpos
  · decide
  · rw [decimal_pos hpos, digitsValue_eq, ← List.map_reverse, List.reverse_reverse,
      map_valueOf_digits, Nat.ofDigits_digits]

theorem all_isDigit_decimal (n : Nat) : (decimal n).all isDigit = true := by
  rcases Nat.eq_zero_or_pos n with rfl | hpos
  · decide
  · rw [decimal_pos hpos, List.all_eq_true]
    intro b hb
    obtain ⟨d, hd, rfl⟩ := List.mem_map.mp hb
    exact isDigit_digitOf (Nat.digits_lt_base (by norm_num) (List.mem_reverse.mp hd))

theorem decimal_ne_nil (n : Nat) : decimal n ≠ [] := by
  rcases Nat.eq_zero_or_pos n with rfl | hpos
  · decide
  · rw [decimal_pos hpos]
    simpa [Nat.digits_eq_nil_iff_eq_zero] using Nat.pos_iff_ne_zero.mp hpos

theorem parseDigits_decimal (n : Nat) : parseDigits (decimal n) = some n := by
  rw [parseDigits, if_pos ⟨decimal_ne_nil n, all_isDigit_decimal n⟩, digitsValue_decimal]

theorem parseDigits_eq_some {s : Bytes} {n : Nat} :
    parseDigits s = some n ↔ s ≠ [] ∧ s.all isDigit = true ∧ digitsValue s = n := by
  rw [parseDigits, Option.ite_none_right_eq_some, Option.some.injEq, and_assoc]

def Unpadded (s : Bytes) : Prop := s = [ascii '0'] ∨ s.head? ≠ some (ascii '0')

instance (s : Bytes) : Decidable (Unpadded s) :=
  inferInstanceAs (Decidable (s = [ascii '0'] ∨ s.head? ≠ some (ascii '0')))

theorem head_decimal {n : Nat} (h : 0 < n) : (decimal n).head? ≠ some (ascii '0') := by
  have hne : Nat.digits 10 n ≠ [] := Nat.digits_ne_nil_iff_ne_zero.mpr (by omega)
  have hlast := Nat.getLast_digit_ne_zero 10 (Nat.pos_iff_ne_zero.mp h)
  rw [decimal_pos h, List.head?_map, List.head?_reverse, List.getLast?_eq_some_getLast hne]
  intro hzero
  have hdigit := Nat.digits_lt_base (by norm_num) (List.getLast_mem hne)
  have hvalue := valueOf_digitOf hdigit
  rw [Option.map_some, Option.some.injEq] at hzero
  rw [hzero] at hvalue
  exact hlast (hvalue.symm.trans (by decide))

theorem unpadded_decimal (n : Nat) : Unpadded (decimal n) := by
  rcases Nat.eq_zero_or_pos n with rfl | hpos
  · exact .inl decimal_zero
  · exact .inr (head_decimal hpos)

theorem decimal_digitsValue {s : Bytes} (hne : s ≠ []) (hdigits : s.all isDigit = true)
    (hpad : Unpadded s) : decimal (digitsValue s) = s := by
  rcases hpad with rfl | hhead
  · decide
  · rw [List.all_eq_true] at hdigits
    have hback : (s.map valueOf).map digitOf = s := by
      rw [List.map_map]
      exact (List.map_congr_left fun b hb => digitOf_valueOf (hdigits b hb)).trans (List.map_id _)
    have hlt : ∀ d ∈ s.reverse.map valueOf, d < 10 := by
      intro d hd
      obtain ⟨b, hb, rfl⟩ := List.mem_map.mp hd
      exact valueOf_lt (hdigits b (List.mem_reverse.mp hb))
    have hlast : ∀ h : s.reverse.map valueOf ≠ [], (s.reverse.map valueOf).getLast h ≠ 0 := by
      intro h hzero
      cases s with
      | nil => exact hne rfl
      | cons b rest =>
        simp only [List.reverse_cons, List.map_append, List.map_cons, List.map_nil,
          List.getLast_append_singleton] at hzero
        have hb := digitOf_valueOf (hdigits b (List.mem_cons_self ..))
        rw [hzero] at hb
        exact hhead (by rw [List.head?_cons, ← hb]; rfl)
    have hdig := Nat.digits_ofDigits 10 (by norm_num) _ hlt hlast
    rw [← digitsValue_eq] at hdig
    have hpos : 0 < digitsValue s := by
      rcases Nat.eq_zero_or_pos (digitsValue s) with hzero | hpos
      · rw [hzero, Nat.digits_zero] at hdig
        simp [hne] at hdig
      · exact hpos
    rw [decimal_pos hpos, hdig, ← List.map_reverse, List.reverse_reverse, hback]

theorem parseUsize_eq_some {s : Bytes} {n : Nat} :
    parseUsize s = some n ↔ s ≠ [] ∧ s.all isDigit = true ∧ digitsValue s = n ∧ n < 2 ^ 64 := by
  simp only [parseUsize, Option.bind_eq_bind, Option.bind_eq_some_iff, parseDigits_eq_some,
    Option.ite_none_right_eq_some, Option.some.injEq]
  constructor
  · rintro ⟨m, ⟨hne, hdigits, hvalue⟩, hlt, rfl⟩
    exact ⟨hne, hdigits, hvalue, hlt⟩
  · rintro ⟨hne, hdigits, hvalue, hlt⟩
    exact ⟨n, ⟨hne, hdigits, hvalue⟩, hlt, rfl⟩

theorem parseUsize_decimal {n : Nat} (h : n < 2 ^ 64) : parseUsize (decimal n) = some n :=
  parseUsize_eq_some.mpr ⟨decimal_ne_nil n, all_isDigit_decimal n, digitsValue_decimal n, h⟩

-- What `parse_int` refuses before it parses the number.
def Refused (s : Bytes) : Prop :=
  s = [] ∨ ByteStr "-0" <+: s ∨ ([ascii '0'] <+: s ∧ s.length > 1)

instance (s : Bytes) : Decidable (Refused s) := inferInstanceAs (Decidable (_ ∨ _ ∨ _))

theorem parseI64_cons (c : UInt8) (r : Bytes) :
    parseI64 (c :: r) =
      ((if c = ascii '-' then (parseDigits r).map fun n : Nat => -(n : Int)
        else if c = ascii '+' then (parseDigits r).map Int.ofNat
        else (parseDigits (c :: r)).map Int.ofNat).bind fun n =>
          if -2 ^ 63 ≤ n ∧ n < 2 ^ 63 then some (Int64.ofInt n) else none) := by
  simp only [parseI64, Option.bind_eq_bind]
  split_ifs
  · cases parseDigits r <;> rfl
  · rfl
  · rfl

theorem parseI64_cases {s : Bytes} {n : Int64} (h : parseI64 s = some n) :
    (∃ r m, s = ascii '-' :: r ∧ parseDigits r = some m ∧ n.toInt = -(m : Int)) ∨
    (∃ r m, s = ascii '+' :: r ∧ parseDigits r = some m ∧ n.toInt = m) ∨
    (∃ m, s.head? ≠ some (ascii '-') ∧ s.head? ≠ some (ascii '+') ∧ parseDigits s = some m ∧
      n.toInt = m) := by
  cases s with
  | nil => contradiction
  | cons c r =>
    rw [parseI64_cons, Option.bind_eq_some_iff] at h
    obtain ⟨k, hk, hbound⟩ := h
    rw [Option.ite_none_right_eq_some, Option.some.injEq] at hbound
    obtain ⟨⟨hlow, hhigh⟩, rfl⟩ := hbound
    have hn : (Int64.ofInt k).toInt = k := Int64.toInt_ofInt_of_le hlow hhigh
    split_ifs at hk with hminus hplus
    · obtain ⟨m, hm, rfl⟩ := Option.map_eq_some_iff.mp hk
      exact .inl ⟨r, m, by rw [hminus], hm, hn⟩
    · obtain ⟨m, hm, rfl⟩ := Option.map_eq_some_iff.mp hk
      exact .inr (.inl ⟨r, m, by rw [hplus], hm, hn⟩)
    · obtain ⟨m, hm, rfl⟩ := Option.map_eq_some_iff.mp hk
      exact .inr (.inr ⟨m, by simpa using hminus, by simpa using hplus, hm, hn⟩)

theorem decimal_cons (n : Nat) : ∃ c r, decimal n = c :: r ∧ isDigit c = true := by
  have hne := decimal_ne_nil n
  have hall := all_isDigit_decimal n
  cases hn : decimal n with
  | nil => exact absurd hn hne
  | cons c r =>
    rw [hn, List.all_cons, Bool.and_eq_true] at hall
    exact ⟨c, r, rfl, hall.1⟩

theorem parseI64_decimalInt (n : Int64) : parseI64 (decimalInt n.toInt) = some n := by
  have hbound : -2 ^ 63 ≤ n.toInt ∧ n.toInt < 2 ^ 63 := ⟨n.le_toInt, n.toInt_lt⟩
  by_cases hneg : n.toInt < 0
  · have hback : -(n.toInt.natAbs : Int) = n.toInt := by omega
    rw [decimalInt, if_pos hneg, parseI64_cons, if_pos rfl, parseDigits_decimal, Option.map_some,
      Option.bind_some, hback, if_pos hbound, Int64.ofInt_toInt]
  · have hback : Int.ofNat n.toInt.natAbs = n.toInt := by
      rw [Int.ofNat_eq_natCast]
      omega
    obtain ⟨c, r, hc, hdigit⟩ := decimal_cons n.toInt.natAbs
    have hminus : c ≠ ascii '-' := by
      rintro rfl
      contradiction
    have hplus : c ≠ ascii '+' := by
      rintro rfl
      contradiction
    rw [decimalInt, if_neg hneg, hc, parseI64_cons, if_neg hminus, if_neg hplus, ← hc,
      parseDigits_decimal, Option.map_some, Option.bind_some, hback, if_pos hbound,
      Int64.ofInt_toInt]

theorem unpadded_of_not_refused {s : Bytes} (h : ¬ Refused s) : Unpadded s := by
  cases s with
  | nil => exact absurd (.inl rfl) h
  | cons c r =>
    by_cases hc : c = ascii '0'
    · subst hc
      cases r with
      | nil => exact .inl rfl
      | cons d r => exact absurd (.inr (.inr ⟨⟨d :: r, rfl⟩, by simp⟩)) h
    · exact .inr (by simpa using hc)

theorem not_refused_decimal (n : Nat) : ¬ Refused (decimal n) := by
  obtain ⟨c, r, hc, hdigit⟩ := decimal_cons n
  rintro (hnil | hminus | ⟨hzero, hlen⟩)
  · exact decimal_ne_nil n hnil
  · rw [hc] at hminus
    have hc' : ascii '-' = c := (List.cons_prefix_cons.mp hminus).1
    rw [← hc'] at hdigit
    contradiction
  · rcases unpadded_decimal n with hone | hhead
    · rw [hone] at hlen
      simp at hlen
    · rw [hc] at hzero hhead
      exact hhead (by rw [List.head?_cons, (List.cons_prefix_cons.mp hzero).1])

theorem not_refused_decimalInt (n : Int) : ¬ Refused (decimalInt n) := by
  by_cases hneg : n < 0
  · rw [decimalInt, if_pos hneg]
    have hpos : 0 < n.natAbs := by omega
    rintro (hnil | hminus | ⟨hzero, -⟩)
    · contradiction
    · have hprefix : [ascii '0'] <+: decimal n.natAbs := (List.cons_prefix_cons.mp hminus).2
      obtain ⟨t, ht⟩ := hprefix
      exact head_decimal hpos (by rw [← ht]; rfl)
    · have hhead : ascii '0' = ascii '-' := (List.cons_prefix_cons.mp hzero).1
      contradiction
  · rw [decimalInt, if_neg hneg]
    exact not_refused_decimal _

theorem decimalInt_parseI64 {s : Bytes} {n : Int64} (h : parseI64 s = some n) (hs : ¬ Refused s)
    (hplus : s.head? ≠ some (ascii '+')) : decimalInt n.toInt = s := by
  rcases parseI64_cases h with ⟨r, m, rfl, hm, hn⟩ | ⟨r, m, rfl, -, -⟩ | ⟨m, -, -, hm, hn⟩
  · obtain ⟨hne, hdigits, hvalue⟩ := parseDigits_eq_some.mp hm
    have hhead : r.head? ≠ some (ascii '0') := by
      intro hzero
      obtain ⟨t, rfl⟩ := List.head?_eq_some_iff.mp hzero
      exact hs (.inr (.inl ⟨t, rfl⟩))
    have hdecimal := decimal_digitsValue hne hdigits (.inr hhead)
    rw [hvalue] at hdecimal
    have hpos : 0 < m := by
      rcases Nat.eq_zero_or_pos m with rfl | hpos
      · rw [decimal_zero] at hdecimal
        exact absurd (by rw [← hdecimal]; rfl) hhead
      · exact hpos
    have habs : (-(m : Int)).natAbs = m := by omega
    rw [hn, decimalInt, if_pos (by omega), habs, hdecimal]
  · exact absurd rfl hplus
  · obtain ⟨hne, hdigits, hvalue⟩ := parseDigits_eq_some.mp hm
    have hdecimal := decimal_digitsValue hne hdigits (unpadded_of_not_refused hs)
    rw [hvalue] at hdecimal
    rw [hn, decimalInt, if_neg (by omega), Int.natAbs_natCast, hdecimal]

theorem head_decimalInt (n : Int) : (decimalInt n).head? ≠ some (ascii '+') := by
  by_cases hneg : n < 0
  · rw [decimalInt, if_pos hneg, List.head?_cons, ne_eq, Option.some.injEq]
    decide
  · obtain ⟨c, r, hc, hdigit⟩ := decimal_cons n.natAbs
    rw [decimalInt, if_neg hneg, hc, List.head?_cons, ne_eq, Option.some.injEq]
    rintro rfl
    contradiction

theorem parseI64_bytes {s : Bytes} {n : Int64} (h : parseI64 s = some n) {b : UInt8} (hb : b ∈ s) :
    b = ascii '-' ∨ b = ascii '+' ∨ isDigit b = true := by
  have hall : ∀ {r : Bytes} {m : Nat}, parseDigits r = some m → b ∈ r → isDigit b = true :=
    fun hm hin => List.all_eq_true.mp (parseDigits_eq_some.mp hm).2.1 b hin
  rcases parseI64_cases h with ⟨r, m, rfl, hm, -⟩ | ⟨r, m, rfl, hm, -⟩ | ⟨m, -, -, hm, -⟩
  · exact (List.mem_cons.mp hb).imp_right fun hin => .inr (hall hm hin)
  · exact .inr ((List.mem_cons.mp hb).imp_right fun hin => hall hm hin)
  · exact .inr (.inr (hall hm hb))

end Tortue
