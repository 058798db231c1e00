import Tortue.Domain.RoundTrip

namespace Tortue

namespace Utf8

def continues (b : UInt8) : Bool := 0x80 ≤ b && b ≤ 0xBF

def width (b : UInt8) : Nat :=
  if b < 0x80 then 1
  else if 0xC2 ≤ b ∧ b ≤ 0xDF then 2
  else if 0xE0 ≤ b ∧ b ≤ 0xEF then 3
  else if 0xF0 ≤ b ∧ b ≤ 0xF4 then 4
  else 0

def second (b next : UInt8) : Bool :=
  continues next && !(b = 0xE0 && next < 0xA0) && !(b = 0xED && next > 0x9F) &&
    !(b = 0xF0 && next < 0x90) && !(b = 0xF4 && next > 0x8F)

def scan (bytes : Bytes) : Nat × Bool :=
  let at' := fun i => bytes.getD i 0
  match width (at' 0) with
  | 1 => (1, true)
  | 2 => if continues (at' 1) then (2, true) else (1, false)
  | 3 =>
    if !second (at' 0) (at' 1) then (1, false)
    else if continues (at' 2) then (3, true) else (2, false)
  | 4 =>
    if !second (at' 0) (at' 1) then (1, false)
    else if !continues (at' 2) then (2, false)
    else if continues (at' 3) then (4, true) else (3, false)
  | _ => (1, false)

def replacement : Char := Char.ofNat 0xFFFD

def replaced : Nat → Bytes → List Char
  | 0, _ | _, [] => []
  | fuel + 1, bytes =>
    let (n, valid) := scan bytes
    let chars := if valid then ((fromUtf8 (bytes.take n)).getD "").toList else [replacement]
    chars ++ replaced fuel (bytes.drop n)

end Utf8

-- `String::from_utf8_lossy`: what is no UTF-8 is replaced, character by character.
def fromUtf8Lossy (bytes : Bytes) : String :=
  match fromUtf8 bytes with
  | some s => s
  | none => String.ofList (Utf8.replaced bytes.length bytes)

theorem fromUtf8Lossy_utf8Bytes (s : String) : fromUtf8Lossy (utf8Bytes s) = s := by
  rw [fromUtf8Lossy, fromUtf8_utf8Bytes]

example : fromUtf8Lossy [0x61, 0xE2, 0x82, 0x62, 0xFF, 0xC3, 0xA9] =
    String.ofList ['a', Utf8.replacement, 'b', Utf8.replacement, Char.ofNat 0xE9] := by
  decide +kernel

def asciiString (bytes : Bytes) : String := String.ofList (bytes.map fun b => Char.ofNat b.toNat)

theorem utf8Bytes_asciiString {bytes : Bytes} (h : ∀ b ∈ bytes, b < 128) :
    utf8Bytes (asciiString bytes) = bytes := by
  have hchar : ∀ n < 128, String.utf8EncodeChar (Char.ofNat n) = [n.toUInt8] := by
    decide +kernel
  have hall : ∀ l : Bytes, (∀ b ∈ l, b < 128) →
      (l.map fun b => Char.ofNat b.toNat).flatMap String.utf8EncodeChar = l := by
    intro l hl
    induction l with
    | nil => rfl
    | cons b l ih =>
      have hb : b.toNat < 128 := UInt8.lt_iff_toNat_lt.mp (hl b List.mem_cons_self)
      rw [List.map_cons, List.flatMap_cons, hchar b.toNat hb,
        ih fun c hc => hl c (List.mem_cons_of_mem _ hc)]
      exact congrArg (· :: l) UInt8.ofNat_toNat
  simp [utf8Bytes, asciiString, List.utf8Encode, hall bytes h]

end Tortue
