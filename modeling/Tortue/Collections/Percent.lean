import Mathlib.Data.List.Basic
import Mathlib.Data.UInt

namespace Collections

namespace Percent

def percent : UInt8 := 37

def hexChar (digit : Nat) : UInt8 :=
  if digit < 10 then (48 + digit).toUInt8 else (55 + digit).toUInt8

def toDigit (b : UInt8) : Option Nat :=
  if 48 ≤ b ∧ b ≤ 57 then some (b.toNat - 48)
  else if 65 ≤ b ∧ b ≤ 70 then some (b.toNat - 55)
  else if 97 ≤ b ∧ b ≤ 102 then some (b.toNat - 87)
  else none

def escape (b : UInt8) : List UInt8 := [percent, hexChar (b.toNat / 16), hexChar (b.toNat % 16)]

def encode (kept : UInt8 → Bool) (bytes : List UInt8) : List UInt8 :=
  bytes.flatMap fun b => if kept b then [b] else escape b

structure Decodes (decode : List UInt8 → List UInt8) : Prop where
  nil : decode [] = []
  plain : ∀ b rest, b ≠ percent → decode (b :: rest) = b :: decode rest
  escaped : ∀ {high low : UInt8} {m n : Nat}, toDigit high = some m → toDigit low = some n →
    ∀ rest, decode (percent :: high :: low :: rest) = (16 * m + n).toUInt8 :: decode rest

theorem toDigit_hexChar {digit : Nat} (h : digit < 16) : toDigit (hexChar digit) = some digit := by
  have hall : ∀ digit < 16, toDigit (hexChar digit) = some digit := by decide
  exact hall digit h

section Decoding

variable {decode : List UInt8 → List UInt8}

theorem Decodes.decode_escape (hdecode : Decodes decode) (b : UInt8) (rest : List UInt8) :
    decode (escape b ++ rest) = b :: decode rest := by
  have hbyte : b.toNat < 256 := b.toNat_lt
  have hjoin : (16 * (b.toNat / 16) + b.toNat % 16).toUInt8 = b := by
    rw [Nat.div_add_mod]
    exact UInt8.ofNat_toNat
  have hhigh := toDigit_hexChar (show b.toNat / 16 < 16 by omega)
  have hlow := toDigit_hexChar (show b.toNat % 16 < 16 by omega)
  rw [escape, List.cons_append, List.cons_append, List.cons_append, List.nil_append,
    hdecode.escaped hhigh hlow, hjoin]

variable {kept : UInt8 → Bool}

theorem Decodes.decode_encode_append (hdecode : Decodes decode) (h : kept percent = false)
    (bytes rest : List UInt8) : decode (encode kept bytes ++ rest) = bytes ++ decode rest := by
  induction bytes with
  | nil => rfl
  | cons b bytes ih =>
    rw [encode, List.flatMap_cons, List.append_assoc]
    split_ifs with hb
    · have hplain : b ≠ percent := by
        rintro rfl
        rw [h] at hb
        contradiction
      rw [List.singleton_append, hdecode.plain b _ hplain]
      exact congrArg (b :: ·) ih
    · rw [hdecode.decode_escape]
      exact congrArg (b :: ·) ih

theorem Decodes.decode_encode (hdecode : Decodes decode) (h : kept percent = false)
    (bytes : List UInt8) : decode (encode kept bytes) = bytes := by
  have hall := hdecode.decode_encode_append h bytes []
  rwa [List.append_nil, hdecode.nil, List.append_nil] at hall

end Decoding

theorem mem_encode {kept : UInt8 → Bool} {b : UInt8} {bytes : List UInt8}
    (h : b ∈ encode kept bytes) :
    kept b = true ∨ b = percent ∨ ∃ digit < 16, b = hexChar digit := by
  obtain ⟨c, -, hc⟩ := List.mem_flatMap.mp h
  split_ifs at hc with hkeeps
  · rw [List.mem_singleton] at hc
    exact .inl (hc ▸ hkeeps)
  · have hbyte : c.toNat < 256 := c.toNat_lt
    simp only [escape, List.mem_cons, List.not_mem_nil, or_false] at hc
    rcases hc with rfl | rfl | rfl
    · exact .inr (.inl rfl)
    · exact .inr (.inr ⟨_, by omega, rfl⟩)
    · exact .inr (.inr ⟨_, by omega, rfl⟩)

end Percent

end Collections
