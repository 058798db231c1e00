import Mathlib.Data.List.Sort
import Tortue.Domain.Bitfield

namespace Tortue

open Bitfield

structure BitfieldIter where
  bitfield : Bytes
  byteIdx : Nat
  bitIdx : Nat
  deriving DecidableEq, Repr

namespace BitfieldIter

-- The two loops of the source as one recursion over the position.
def next (it : BitfieldIter) : Option (Nat × BitfieldIter) :=
  if it.byteIdx < it.bitfield.length then
    if it.bitIdx < 8 then
      if (it.bitfield.getD it.byteIdx 0 >>> (7 - it.bitIdx).toUInt8) &&& 1 = 1 then
        some (it.byteIdx * 8 + it.bitIdx, { it with bitIdx := it.bitIdx + 1 })
      else next { it with bitIdx := it.bitIdx + 1 }
    else next { it with byteIdx := it.byteIdx + 1, bitIdx := 0 }
  else none
termination_by (it.bitfield.length - it.byteIdx, 8 - it.bitIdx)

def remaining (it : BitfieldIter) : List Nat :=
  List.range' (it.byteIdx * 8 + it.bitIdx)
    (it.bitfield.length * 8 - (it.byteIdx * 8 + it.bitIdx))

theorem remaining_cons {it : BitfieldIter} (hbyte : it.byteIdx < it.bitfield.length)
    (hbit : it.bitIdx < 8) : it.remaining =
      (it.byteIdx * 8 + it.bitIdx) :: remaining { it with bitIdx := it.bitIdx + 1 } := by
  obtain ⟨k, hk⟩ : ∃ k, it.bitfield.length * 8 - (it.byteIdx * 8 + it.bitIdx) = k + 1 :=
    ⟨it.bitfield.length * 8 - (it.byteIdx * 8 + it.bitIdx) - 1, by omega⟩
  have hrest : it.bitfield.length * 8 - (it.byteIdx * 8 + (it.bitIdx + 1)) = k := by omega
  simp only [remaining, hk, hrest, List.range'_succ, Nat.add_assoc]

theorem bitSet_at {bytes : Bytes} {byteIdx bitIdx : Nat} (hbit : bitIdx < 8) :
    (bytes.getD byteIdx 0 >>> (7 - bitIdx).toUInt8) &&& 1 = 1 ↔
      bitSet bytes (byteIdx * 8 + bitIdx) = true := by
  have hdiv : (byteIdx * 8 + bitIdx) / 8 = byteIdx := by omega
  have hmod : (byteIdx * 8 + bitIdx) % 8 = bitIdx := by omega
  rw [shifted_iff _ hbit, bitSet, hdiv, hmod]

def ahead (it : BitfieldIter) : List Nat := it.remaining.filter (bitSet it.bitfield)

theorem ahead_eq_next (it : BitfieldIter) (h : it.bitIdx ≤ 8) :
    (it.next = none ∧ it.ahead = []) ∨
      ∃ i it', it.next = some (i, it') ∧ it'.bitIdx ≤ 8 ∧ it.ahead = i :: it'.ahead := by
  fun_induction next it with
  | case1 it hbyte hbit hset =>
    refine .inr ⟨_, _, rfl, hbit, ?_⟩
    rw [ahead, remaining_cons hbyte hbit, List.filter_cons_of_pos ((bitSet_at hbit).mp hset)]
    rfl
  | case2 it hbyte hbit hset ih =>
    have hskip : it.ahead = ahead { it with bitIdx := it.bitIdx + 1 } := by
      rw [ahead, remaining_cons hbyte hbit, List.filter_cons_of_neg (mt (bitSet_at hbit).mpr hset)]
      rfl
    rw [hskip]
    exact ih hbit
  | case3 it hbyte hbit ih =>
    have hsame : it.ahead = ahead { it with byteIdx := it.byteIdx + 1, bitIdx := 0 } := by
      have hpos : it.byteIdx * 8 + it.bitIdx = (it.byteIdx + 1) * 8 + 0 := by omega
      simp only [ahead, remaining, hpos]
    rw [hsame]
    exact ih (Nat.zero_le 8)
  | case4 it hbyte =>
    have hnone : it.bitfield.length * 8 - (it.byteIdx * 8 + it.bitIdx) = 0 := by omega
    exact .inl ⟨rfl, by simp [ahead, remaining, hnone]⟩

def left (it : BitfieldIter) : Nat := 9 * (it.bitfield.length - it.byteIdx) + (8 - it.bitIdx)

theorem next_left {it it' : BitfieldIter} {i : Nat} (h : it.next = some (i, it')) :
    it'.left < it.left := by
  fun_induction next it with
  | case1 it hbyte hbit hset =>
    simp only [Option.some.injEq, Prod.mk.injEq] at h
    rw [← h.2]
    simp only [left]
    omega
  | case2 it hbyte hbit hset ih =>
    have hlt := ih h
    simp only [left] at hlt ⊢
    omega
  | case3 it hbyte hbit ih =>
    have hlt := ih h
    simp only [left] at hlt ⊢
    omega
  | case4 it hbyte => contradiction

-- The whole of a `for` loop over the iterator.
def collect (it : BitfieldIter) : List Nat :=
  match _h : it.next with
  | none => []
  | some (i, it') => i :: collect it'
termination_by it.left
decreasing_by exact next_left _h

theorem collect_eq_ahead (it : BitfieldIter) (h : it.bitIdx ≤ 8) : it.collect = it.ahead := by
  fun_induction collect it with
  | case1 it hnext =>
    rcases ahead_eq_next it h with ⟨-, hahead⟩ | ⟨i, it', hsome, -, -⟩
    · exact hahead.symm
    · rw [hnext] at hsome
      contradiction
  | case2 it i it' hnext ih =>
    rcases ahead_eq_next it h with ⟨hnone, -⟩ | ⟨j, it'', hsome, hle, hahead⟩
    · rw [hnext] at hnone
      contradiction
    · rw [hnext, Option.some.injEq, Prod.mk.injEq] at hsome
      obtain ⟨rfl, rfl⟩ := hsome
      rw [hahead, ih hle]

end BitfieldIter

namespace Bitfield

def intoIter (bf : Bitfield) : BitfieldIter := ⟨bf.data, 0, 0⟩

theorem collect_intoIter (bf : Bitfield) :
    bf.intoIter.collect = (List.range (bf.data.length * 8)).filter (bitSet bf.data) := by
  rw [BitfieldIter.collect_eq_ahead _ (Nat.zero_le 8), BitfieldIter.ahead, BitfieldIter.remaining,
    List.range_eq_range']
  rfl

theorem iter_pairwise (bf : Bitfield) : bf.iter.Pairwise (· < ·) := by
  refine List.pairwise_flatMap.mpr ⟨fun byteIdx _ => ?_, ?_⟩
  · refine List.pairwise_filterMap.mpr (List.pairwise_lt_range.imp fun {a b} hlt i hi j hj => ?_)
    grind
  · refine List.pairwise_lt_range.imp fun {a b} hlt i hi j hj => ?_
    simp only [bitsPerByte, List.mem_filterMap, List.mem_range] at hi hj
    grind

theorem collect_eq_iter (bf : Bitfield) : bf.intoIter.collect = bf.iter := by
  rw [collect_intoIter]
  refine (List.pairwise_lt_range.filter _).eq_of_mem_iff bf.iter_pairwise fun i => ?_
  rw [mem_iter, List.mem_filter, List.mem_range, and_iff_right_iff_imp]
  intro hset
  by_contra hout
  rw [bitSet_out (by omega)] at hset
  contradiction

theorem collect_pairwise (bf : Bitfield) : bf.intoIter.collect.Pairwise (· < ·) :=
  bf.collect_eq_iter ▸ bf.iter_pairwise

theorem mem_collect {bf : Bitfield} {i : Nat} :
    i ∈ bf.intoIter.collect ↔ bitSet bf.data i = true := by
  rw [collect_eq_iter, mem_iter]

end Bitfield

end Tortue
