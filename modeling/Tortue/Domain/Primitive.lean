import Mathlib.Data.Nat.Digits.Defs

namespace Tortue

abbrev Bytes := List UInt8

abbrev Octets (n : Nat) := { b : Bytes // b.length = n }

-- Arithmetic on `usize` and `u64` as a release build on a 64-bit target performs it.
def wrap (n : Nat) : Nat := n % 2 ^ 64

theorem wrap_of_lt {n : Nat} (h : n < 2 ^ 64) : wrap n = n := Nat.mod_eq_of_lt h

def ascii (c : Char) : UInt8 := c.toNat.toUInt8

def ByteStr (s : String) : Bytes := s.toList.map ascii

def fromUtf8 (b : Bytes) : Option String := String.fromUTF8? ⟨b.toArray⟩

def decimal (n : Nat) : Bytes :=
  if n = 0 then [ascii '0'] else (Nat.digits 10 n).reverse.map fun d => ascii '0' + d.toUInt8

def decimalInt (n : Int) : Bytes :=
  if n < 0 then ascii '-' :: decimal n.natAbs else decimal n.natAbs

def isDigit (b : UInt8) : Bool := ascii '0' ≤ b && b ≤ ascii '9'

def digitsValue (b : Bytes) : Nat :=
  b.foldl (fun acc d => 10 * acc + (d.toNat - (ascii '0').toNat)) 0

def parseDigits (b : Bytes) : Option Nat :=
  if b ≠ [] ∧ b.all isDigit then some (digitsValue b) else none

-- `str::parse::<usize>` on a string without a sign.
def parseUsize (b : Bytes) : Option Nat := do
  let n ← parseDigits b
  if n < 2 ^ 64 then some n else none

-- `str::parse::<i64>` takes one leading sign of either kind.
def parseI64 (b : Bytes) : Option Int64 := do
  let n ← match b with
    | c :: rest =>
      if c = ascii '-' then (parseDigits rest).map fun n => -(n : Int)
      else if c = ascii '+' then (parseDigits rest).map Int.ofNat
      else (parseDigits b).map Int.ofNat
    | [] => none
  if -2 ^ 63 ≤ n ∧ n < 2 ^ 63 then some (Int64.ofInt n) else none

def chunksExact (n : Nat) (data : Bytes) : List (Octets n) :=
  List.ofFn fun i : Fin (data.length / n) => ⟨(data.drop (n * i)).take n, by
    have hle : n * (i + 1) ≤ data.length :=
      (Nat.mul_le_mul_left n i.isLt).trans (Nat.mul_div_le data.length n)
    rw [Nat.mul_succ] at hle
    simp only [List.length_take, List.length_drop]
    omega⟩

end Tortue
