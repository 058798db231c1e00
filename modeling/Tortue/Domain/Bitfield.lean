import Mathlib.Data.Nat.Bitwise
import Tortue.Domain.Primitive

namespace Tortue

structure Bitfield where
  data : Bytes
  pieces : Nat
  deriving DecidableEq

namespace Bitfield

inductive Error where
  | pieceOutOfRange
  deriving DecidableEq, Repr

def bitsPerByte : Nat := 8

def divCeil (a b : Nat) : Nat := (a + b - 1) / b

def new (pieces : Nat) : Bitfield := ⟨List.replicate (divCeil pieces bitsPerByte) 0, pieces⟩

def checkBit (bf : Bitfield) (bit : Nat) : Except Error Unit :=
  if bit ≥ bf.pieces then .error .pieceOutOfRange else .ok ()

-- Most significant bit first.
def mask (bit : Nat) : UInt8 := (1 : UInt8) <<< (7 - bit % bitsPerByte).toUInt8

def setBit (bf : Bitfield) (bit : Nat) : Except Error Bitfield := do
  bf.checkBit bit
  return { bf with data := bf.data.modify (bit / bitsPerByte) (· ||| mask bit) }

def unsetBit (bf : Bitfield) (bit : Nat) : Except Error Bitfield := do
  bf.checkBit bit
  return { bf with data := bf.data.modify (bit / bitsPerByte) (· &&& ~~~mask bit) }

-- A call that fails leaves the bitfield as it was.
def orKeep (bf : Bitfield) : Except Error Bitfield → Bitfield
  | .ok bf' => bf'
  | .error _ => bf

def setAll (bf : Bitfield) : Bitfield :=
  (List.range bf.pieces).foldl (fun bf i => bf.orKeep (bf.setBit i)) bf

def unsetAll (bf : Bitfield) : Bitfield :=
  (List.range bf.pieces).foldl (fun bf i => bf.orKeep (bf.unsetBit i)) bf

def hasBit (bf : Bitfield) (bit : Nat) : Except Error Bool := do
  bf.checkBit bit
  return bf.data.getD (bit / bitsPerByte) 0 &&& mask bit ≠ 0

def extendBytes (bf : Bitfield) (bytes : Bytes) : Except Error Bitfield :=
  if bytes.length ≠ bf.data.length then .error .pieceOutOfRange
  else .ok { bf with data := List.zipWith (· ||| ·) bf.data bytes }

def tryFrom (bytes : Bytes) : Except Error Bitfield :=
  (new (bytes.length * bitsPerByte)).extendBytes bytes

def iter (bf : Bitfield) : List Nat :=
  (List.range bf.data.length).flatMap fun byteIdx =>
    (List.range bitsPerByte).filterMap fun bitIdx =>
      if (bf.data.getD byteIdx 0 >>> (7 - bitIdx).toUInt8) &&& 1 = 1
      then some (byteIdx * 8 + bitIdx) else none

def bitSet (bytes : Bytes) (i : Nat) : Bool := (bytes.getD (i / 8) 0).toNat.testBit (7 - i % 8)

theorem bitSet_zeros (n i : Nat) : bitSet (List.replicate n 0) i = false := by
  unfold bitSet
  rw [List.getD_eq_getElem?_getD, List.getElem?_replicate]
  split <;> simp

theorem bitSet_out {bytes : Bytes} {i : Nat} (h : bytes.length ≤ i / 8) :
    bitSet bytes i = false := by
  unfold bitSet
  rw [List.getD_eq_getElem?_getD, List.getElem?_eq_none h]
  simp

theorem mask_toNat (bit : Nat) : (mask bit).toNat = 2 ^ (7 - bit % 8) := by
  have hall : ∀ r : Fin 8, ((1 : UInt8) <<< (7 - r.val).toUInt8).toNat = 2 ^ (7 - r.val) := by
    decide
  exact hall ⟨bit % 8, Nat.mod_lt _ (by decide)⟩

theorem setBit_ok {bf bf' : Bitfield} {bit : Nat} (h : bf.setBit bit = .ok bf') :
    bit < bf.pieces ∧
      bf' = { bf with data := bf.data.modify (bit / bitsPerByte) (· ||| mask bit) } := by
  simp only [setBit, checkBit, bind, Except.bind, pure, Except.pure] at h
  split_ifs at h with hbit
  simp only [Except.ok.injEq] at h
  exact ⟨by omega, h.symm⟩

theorem bitSet_setBit {bf bf' : Bitfield} {bit : Nat} (h : bf.setBit bit = .ok bf')
    (hlen : bf.data.length = divCeil bf.pieces bitsPerByte) (i : Nat) :
    bitSet bf'.data i = true ↔ i = bit ∨ bitSet bf.data i = true := by
  obtain ⟨hbit, rfl⟩ := setBit_ok h
  have hin : bit / 8 < bf.data.length := by
    simp only [hlen, divCeil, bitsPerByte]
    omega
  obtain ⟨byte, hbyte⟩ : ∃ byte, bf.data[bit / 8]? = some byte :=
    ⟨_, List.getElem?_eq_getElem hin⟩
  simp only [bitSet, bitsPerByte, List.getD_eq_getElem?_getD, List.getElem?_modify]
  by_cases hi : bit / 8 = i / 8
  · have hsame : 7 - bit % 8 = 7 - i % 8 ↔ i = bit := by omega
    simp [← hi, hbyte, mask_toNat, Nat.testBit_two_pow, hsame, or_comm]
  · have hne : i ≠ bit := fun heq => hi (by rw [heq])
    simp [hi, hne]

theorem unsetBit_ok {bf bf' : Bitfield} {bit : Nat} (h : bf.unsetBit bit = .ok bf') :
    bit < bf.pieces ∧
      bf' = { bf with data := bf.data.modify (bit / bitsPerByte) (· &&& ~~~mask bit) } := by
  simp only [unsetBit, checkBit, bind, Except.bind, pure, Except.pure] at h
  split_ifs at h with hbit
  simp only [Except.ok.injEq] at h
  exact ⟨by omega, h.symm⟩

theorem testBit_not_mask (bit i : Nat) :
    (~~~mask bit).toNat.testBit (7 - i % 8) = true ↔ bit % 8 ≠ i % 8 := by
  have hall : ∀ r q : Fin 8,
      (~~~((1 : UInt8) <<< (7 - r.val).toUInt8)).toNat.testBit (7 - q.val) = true ↔ r ≠ q := by
    decide
  have hcase := hall ⟨bit % 8, Nat.mod_lt _ (by decide)⟩ ⟨i % 8, Nat.mod_lt _ (by decide)⟩
  rwa [ne_eq, Fin.mk.injEq] at hcase

theorem bitSet_unsetBit {bf bf' : Bitfield} {bit : Nat} (h : bf.unsetBit bit = .ok bf') (i : Nat) :
    bitSet bf'.data i = true ↔ i ≠ bit ∧ bitSet bf.data i = true := by
  obtain ⟨-, rfl⟩ := unsetBit_ok h
  simp only [bitSet, bitsPerByte, List.getD_eq_getElem?_getD, List.getElem?_modify]
  by_cases hi : bit / 8 = i / 8
  · have hsame : bit % 8 ≠ i % 8 ↔ i ≠ bit := by omega
    cases bf.data[i / 8]? with
    | none => simp [hi]
    | some byte =>
      simp only [hi, if_true, Option.map_eq_map, Option.map_some, Option.getD_some,
        UInt8.toNat_and, Nat.testBit_and, Bool.and_eq_true, testBit_not_mask, hsame, and_comm]
  · have hne : i ≠ bit := fun heq => hi (by rw [heq])
    simp [hi, hne]

theorem bitSet_zipWith {bytes bytes' : Bytes} (h : bytes'.length = bytes.length) (i : Nat) :
    bitSet (List.zipWith (· ||| ·) bytes bytes') i = (bitSet bytes i || bitSet bytes' i) := by
  simp only [bitSet, List.getD_eq_getElem?_getD, List.getElem?_zipWith]
  by_cases hi : i / 8 < bytes.length
  · have hi' : i / 8 < bytes'.length := by omega
    simp [List.getElem?_eq_getElem hi, List.getElem?_eq_getElem hi', Nat.testBit_or]
  · rw [List.getElem?_eq_none (Nat.le_of_not_lt hi),
      List.getElem?_eq_none (h ▸ Nat.le_of_not_lt hi)]
    simp

theorem hasBit_iff (bf : Bitfield) (i : Nat) :
    bf.hasBit i = .ok true ↔ i < bf.pieces ∧ bitSet bf.data i = true := by
  have hmask : (bf.data.getD (i / bitsPerByte) 0 &&& mask i ≠ 0) ↔ bitSet bf.data i = true := by
    rw [ne_eq, ← UInt8.toNat_inj, UInt8.toNat_and, mask_toNat, Nat.and_two_pow]
    cases hbit : bitSet bf.data i <;> simp_all [bitSet, bitsPerByte]
  simp only [hasBit, checkBit, bind, Except.bind, pure, Except.pure]
  split_ifs with hi
  · simp only [false_iff, not_and]
    omega
  · simp only [hmask, Except.ok.injEq, decide_eq_true_eq]
    exact ⟨fun hset => ⟨by omega, hset⟩, And.right⟩

theorem setBit_ok_iff (bf : Bitfield) (bit : Nat) :
    (∃ bf', bf.setBit bit = .ok bf') ↔ bit < bf.pieces := by
  simp only [setBit, checkBit, bind, Except.bind, pure, Except.pure]
  split_ifs with h
  · simp; omega
  · simp; omega

theorem zipWith_or_zeros (bytes : Bytes) :
    List.zipWith (· ||| ·) (List.replicate bytes.length 0) bytes = bytes := by
  induction bytes with
  | nil => rfl
  | cons byte bytes ih => simp [List.replicate_succ, ih]

theorem tryFrom_eq (bytes : Bytes) :
    tryFrom bytes = .ok ⟨bytes, bytes.length * bitsPerByte⟩ := by
  have hlen : divCeil (bytes.length * bitsPerByte) bitsPerByte = bytes.length := by
    simp only [divCeil, bitsPerByte]
    omega
  simp [tryFrom, extendBytes, new, hlen, zipWith_or_zeros]

theorem shifted_iff (byte : UInt8) {r : Nat} (hr : r < 8) :
    (byte >>> (7 - r).toUInt8) &&& 1 = 1 ↔ byte.toNat.testBit (7 - r) = true := by
  have hshift : ((7 - r).toUInt8).toNat % 8 = 7 - r := by
    simp only [Nat.toUInt8, UInt8.toNat_ofNat']
    omega
  rw [← UInt8.toNat_inj, UInt8.toNat_and, UInt8.toNat_shiftRight, hshift, Nat.testBit]
  simp [Nat.and_comm]

theorem mem_iter {bf : Bitfield} {p : Nat} : p ∈ bf.iter ↔ bitSet bf.data p = true := by
  simp only [iter, List.mem_flatMap, List.mem_range, List.mem_filterMap, bitsPerByte, bitSet]
  constructor
  · rintro ⟨i, hi, r, hr, hbit⟩
    split at hbit
    · next hset =>
      rw [Option.some.injEq] at hbit
      have hdiv : p / 8 = i := by omega
      have hmod : p % 8 = r := by omega
      rw [hdiv, hmod]
      exact (shifted_iff _ hr).mp hset
    · contradiction
  · intro hset
    by_cases hin : p / 8 < bf.data.length
    · refine ⟨p / 8, hin, p % 8, Nat.mod_lt _ (by decide), ?_⟩
      rw [if_pos ((shifted_iff _ (Nat.mod_lt _ (by decide))).mpr hset), Option.some.injEq]
      omega
    · have hout : bitSet bf.data p = false := bitSet_out (Nat.le_of_not_lt hin)
      rw [bitSet, hset] at hout
      contradiction

end Bitfield

end Tortue
