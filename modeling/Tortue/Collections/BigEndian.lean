import Mathlib.Data.UInt
import Mathlib.Tactic.Ring

namespace Collections

namespace BigEndian

def encode : Nat → Nat → List UInt8
  | 0, _ => []
  | width + 1, n => (n / 256 ^ width).toUInt8 :: encode width n

def push (n : Nat) (b : UInt8) : Nat := n * 256 + b.toNat

def decode (bytes : List UInt8) : Nat := bytes.foldl push 0

@[simp] theorem length_encode (width n : Nat) : (encode width n).length = width := by
  induction width with
  | zero => rfl
  | succ width ih => rw [encode, List.length_cons, ih]

theorem foldl_push (n : Nat) (bytes : List UInt8) :
    bytes.foldl push n = n * 256 ^ bytes.length + decode bytes := by
  induction bytes generalizing n with
  | nil => rw [List.foldl_nil, List.length_nil, pow_zero, mul_one]; rfl
  | cons b bytes ih =>
    rw [decode, List.foldl_cons, List.foldl_cons, ih, ih (push 0 b), List.length_cons, pow_succ,
      push, push]
    ring

theorem decode_cons (b : UInt8) (bytes : List UInt8) :
    decode (b :: bytes) = b.toNat * 256 ^ bytes.length + decode bytes := by
  rw [decode, List.foldl_cons, foldl_push, push, Nat.zero_mul, Nat.zero_add]

theorem decode_lt (bytes : List UInt8) : decode bytes < 256 ^ bytes.length := by
  induction bytes with
  | nil => exact Nat.one_pos
  | cons b bytes ih =>
    have hb : b.toNat + 1 ≤ 256 := b.toNat_lt
    calc decode (b :: bytes) = b.toNat * 256 ^ bytes.length + decode bytes := decode_cons b bytes
      _ < (b.toNat + 1) * 256 ^ bytes.length := by
        rw [Nat.succ_mul]
        exact Nat.add_lt_add_left ih _
      _ ≤ 256 * 256 ^ bytes.length := Nat.mul_le_mul_right _ hb
      _ = 256 ^ (b :: bytes).length := by rw [List.length_cons, pow_succ']

theorem decode_encode (width n : Nat) : decode (encode width n) = n % 256 ^ width := by
  induction width with
  | zero => rw [pow_zero, Nat.mod_one]; rfl
  | succ width ih =>
    have hdigit : (n / 256 ^ width).toUInt8.toNat = n / 256 ^ width % 256 := rfl
    rw [encode, decode_cons, length_encode, ih, hdigit, pow_succ, Nat.mod_mul, Nat.add_comm,
      Nat.mul_comm]

theorem encode_add (width k n : Nat) : encode width (k * 256 ^ width + n) = encode width n := by
  induction width generalizing k with
  | zero => rfl
  | succ width ih =>
    have hhigh : k * 256 ^ (width + 1) + n = k * 256 * 256 ^ width + n := by ring
    rw [encode, encode, hhigh, ih]
    congr 1
    rw [Nat.add_comm, Nat.add_mul_div_right _ _ (Nat.pow_pos (by decide))]
    apply UInt8.toNat_inj.mp
    show (n / 256 ^ width + k * 256) % 256 = n / 256 ^ width % 256
    rw [Nat.add_mul_mod_self_right]

theorem encode_decode {bytes : List UInt8} {width : Nat} (h : bytes.length = width) :
    encode width (decode bytes) = bytes := by
  subst h
  induction bytes with
  | nil => rfl
  | cons b bytes ih =>
    have hhigh : (b.toNat * 256 ^ bytes.length + decode bytes) / 256 ^ bytes.length = b.toNat := by
      rw [Nat.add_comm, Nat.add_mul_div_right _ _ (Nat.pow_pos (by decide)),
        Nat.div_eq_of_lt (decode_lt bytes), Nat.zero_add]
    rw [List.length_cons, encode, decode_cons, hhigh, encode_add, ih]
    exact congrArg (· :: bytes) UInt8.ofNat_toNat

end BigEndian

end Collections
