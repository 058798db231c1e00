import Tortue.Collections.BitGroups
import Tortue.Domain.Torrent
import Tortue.Domain.Wire

namespace Tortue

open Collections

structure MagnetLink where
  infoHash : InfoHash
  trackers : List String
  name : Option String
  peers : List String
  deriving DecidableEq

namespace Magnet

inductive Error where
  | invalidScheme
  | missingXt
  | invalidInfoHash (text : String)
  deriving DecidableEq, Repr

def alphabet : Bytes := ByteStr "ABCDEFGHIJKLMNOPQRSTUVWXYZ234567"

def toAsciiUppercase (b : UInt8) : UInt8 :=
  if ascii 'a' ≤ b ∧ b ≤ ascii 'z' then b - 32 else b

def invalidCharacter (byte : UInt8) : Error :=
  .invalidInfoHash ("invalid base32 character: ".push (Char.ofNat byte.toNat))

def position (byte : UInt8) : Except Error Nat :=
  match alphabet.findIdx? (· = toAsciiUppercase byte) with
  | some val => .ok val
  | none => .error (invalidCharacter byte)

-- The locals of the decoding loop; `bits` is a `u32`.
structure Base32 where
  bits : Nat
  bitCount : Nat
  output : Bytes
  deriving DecidableEq, Repr

namespace Base32

def start : Base32 := ⟨0, 0, []⟩

def shift (st : Base32) (val : Nat) : Base32 :=
  { st with bits := (st.bits <<< 5) % 2 ^ 32 ||| val, bitCount := st.bitCount + 5 }

def emit (st : Base32) : Base32 :=
  if st.bitCount ≥ 8 then
    { bits := st.bits &&& ((1 <<< (st.bitCount - 8)) - 1)
      bitCount := st.bitCount - 8
      output := st.output ++ [(st.bits >>> (st.bitCount - 8)).toUInt8] }
  else st

def push (st : Base32) (val : Nat) : Base32 := (st.shift val).emit

def step (st : Base32) (byte : UInt8) : Except Error Base32 := do
  let val ← position byte
  return st.push val

def accumulators (st : Base32) : Bytes → List Nat
  | [] => [st.bits]
  | byte :: rest =>
    match position byte with
    | .error _ => [st.bits]
    | .ok val => st.bits :: (st.shift val).bits :: accumulators (st.push val) rest

end Base32

def base32Decode (s : String) : Except Error Bytes :=
  Base32.output <$> (utf8Bytes s).foldlM Base32.step .start

def infoHash (text : String) (bytes : Bytes) : Except Error InfoHash :=
  if h : bytes.length = 20 then .ok ⟨bytes, h⟩ else .error (.invalidInfoHash text)

-- `hex::decode` is a parameter; an error of it is its text.
def parseBtih (hexDecode : String → Except String Bytes) (hash : String) :
    Except Error InfoHash :=
  if (utf8Bytes hash).length = 40 then
    match hexDecode hash with
    | .error text => .error (.invalidInfoHash text)
    | .ok bytes => infoHash "expected 20 bytes" bytes
  else if (utf8Bytes hash).length = 32 then do
    let bytes ← base32Decode hash
    infoHash "base32 decode did not yield 20 bytes" bytes
  else
    .error (.invalidInfoHash
      ("expected 40 hex or 32 base32 chars, got " ++ toString (utf8Bytes hash).length))

namespace Base32

structure Holds (l : List Bool) (st : Base32) : Prop where
  bound : st.bits < 2 ^ st.bitCount
  short : st.bitCount < 8
  read : l = st.output.flatMap (fun byte => Collections.bits 8 byte.toNat) ++
    Collections.bits st.bitCount st.bits

theorem holds_start : Holds [] start := ⟨by decide, by decide, rfl⟩

theorem Holds.small {l : List Bool} {st : Base32} (h : Holds l st) : st.bits < 2 ^ 7 :=
  Nat.lt_of_lt_of_le h.bound (Nat.pow_le_pow_right (by decide) (Nat.le_of_lt_succ h.short))

theorem shift_bits {l : List Bool} {st : Base32} (h : Holds l st) {val : Nat} (hv : val < 2 ^ 5) :
    (st.shift val).bits = 2 ^ 5 * st.bits + val := by
  have hsmall := h.small
  have hfits : st.bits <<< 5 < 2 ^ 32 := by
    rw [Nat.shiftLeft_eq]
    omega
  rw [shift, Nat.mod_eq_of_lt hfits, ← Nat.shiftLeft_add_eq_or_of_lt hv, Nat.shiftLeft_eq,
    Nat.mul_comm]

theorem shift_bound {l : List Bool} {st : Base32} (h : Holds l st) {val : Nat} (hv : val < 2 ^ 5) :
    (st.shift val).bits < 2 ^ (st.bitCount + 5) := by
  have hbound := h.bound
  rw [shift_bits h hv, Nat.pow_add]
  omega

theorem holds_emit {l : List Bool} {st : Base32} (hbound : st.bits < 2 ^ st.bitCount)
    (hcount : st.bitCount < 16) (hread : l =
      st.output.flatMap (fun byte => Collections.bits 8 byte.toNat) ++
        Collections.bits st.bitCount st.bits) : Holds l st.emit := by
  rw [emit]
  split
  · next hfull =>
    obtain ⟨n, count, output⟩ := st
    obtain ⟨k, rfl⟩ : ∃ k, count = 8 + k := ⟨count - 8, (Nat.add_sub_of_le hfull).symm⟩
    have hsplit : 2 ^ k * (n / 2 ^ k) + n % 2 ^ k = n := Nat.div_add_mod ..
    have hlow : n % 2 ^ k < 2 ^ k := Nat.mod_lt _ (Nat.two_pow_pos k)
    have hbyte : n / 2 ^ k < 2 ^ 8 := by
      rw [Nat.div_lt_iff_lt_mul (Nat.two_pow_pos k), ← Nat.pow_add]
      exact hbound
    have hshort : k < 8 := Nat.lt_of_add_lt_add_left hcount
    have height : (n / 2 ^ k).toUInt8.toNat = n / 2 ^ k := Nat.mod_eq_of_lt hbyte
    simp only [Nat.add_sub_cancel_left, Nat.one_shiftLeft, Nat.and_two_pow_sub_one_eq_mod,
      Nat.shiftRight_eq_div_pow]
    refine ⟨hlow, hshort, ?_⟩
    simp only [List.flatMap_append, List.flatMap_cons, List.flatMap_nil, List.append_nil, height]
    rw [hread, List.append_assoc, ← bits_append 8 _ hlow, hsplit]
  · next hfew => exact ⟨hbound, Nat.lt_of_not_le hfew, hread⟩

theorem Holds.push {l : List Bool} {st : Base32} (h : Holds l st) {val : Nat} (hv : val < 2 ^ 5) :
    Holds (l ++ Collections.bits 5 val) (st.push val) := by
  have hshort := h.short
  refine holds_emit (shift_bound h hv) (show st.bitCount + 5 < 16 by omega) ?_
  rw [shift_bits h hv, h.read, List.append_assoc, ← bits_append st.bitCount _ hv]
  rfl

theorem Holds.pushes {l : List Bool} {st : Base32} (h : Holds l st) {vals : List Nat}
    (hv : ∀ val ∈ vals, val < 2 ^ 5) :
    Holds (l ++ vals.flatMap (Collections.bits 5)) (vals.foldl Base32.push st) := by
  induction vals generalizing l st with
  | nil => simpa using h
  | cons val vals ih =>
    obtain ⟨hval, hvals⟩ := List.forall_mem_cons.mp hv
    have hnext := ih (h.push hval) hvals
    rwa [List.append_assoc] at hnext

theorem position_lt {byte : UInt8} {val : Nat} (h : position byte = .ok val) : val < 2 ^ 5 := by
  unfold position at h
  split at h
  · next hfound =>
    rw [Except.ok.injEq] at h
    obtain ⟨hlt, -⟩ := List.findIdx?_eq_some_iff_getElem.mp hfound
    rw [← h]
    exact hlt
  · contradiction

theorem accumulators_lt {l : List Bool} {st : Base32} (h : Holds l st) (bytes : Bytes) :
    ∀ n ∈ st.accumulators bytes, n < 2 ^ 12 := by
  induction bytes generalizing l st with
  | nil =>
    have hsmall := h.small
    simp only [accumulators, List.mem_singleton, forall_eq]
    omega
  | cons byte rest ih =>
    have hsmall := h.small
    rw [accumulators]
    split
    · simp only [List.mem_singleton, forall_eq]
      omega
    · next val hval =>
      have hv := position_lt hval
      simp only [List.forall_mem_cons, shift_bits h hv]
      exact ⟨by omega, by omega, ih (h.push hv)⟩

end Base32

end Magnet

end Tortue
