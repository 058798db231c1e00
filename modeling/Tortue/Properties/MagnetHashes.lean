import Tortue.Domain.Magnet

namespace Tortue

open Collections

namespace Magnet

def bitsOf (x : Bytes) : List Bool := x.flatMap fun byte => bits 8 byte.toNat

-- RFC 4648 without padding: five bits to a character, the last ones filled up with zeros.
def base32Encode (x : Bytes) : Bytes :=
  (groups 5 false (bitsOf x)).map fun group => alphabet.getD (ofBits group) 0

def hexDigits : Bytes := ByteStr "0123456789ABCDEF"

def hexEncode (x : Bytes) : Bytes :=
  x.flatMap fun byte => [hexDigits.getD (byte.toNat / 16) 0, hexDigits.getD (byte.toNat % 16) 0]

def Spells (s : String) (encoding : Bytes) : Prop :=
  (utf8Bytes s).map toAsciiUppercase = encoding

instance (s : String) (encoding : Bytes) : Decidable (Spells s encoding) :=
  inferInstanceAs (Decidable (_ = _))

theorem length_bitsOf (x : Bytes) : (bitsOf x).length = 8 * x.length := by
  simp [bitsOf, List.length_flatMap, Nat.mul_comm]

theorem bitsOf_injective : Function.Injective bitsOf :=
  flatMap_injective (by decide) (fun _ => length_bits 8 _) fun a b h =>
    UInt8.toNat_inj.mp (bits_inj a.toNat_lt b.toNat_lt h)

theorem length_hexEncode (x : Bytes) : (hexEncode x).length = 2 * x.length := by
  simp [hexEncode, List.length_flatMap, Nat.mul_comm]

theorem Spells.length {s : String} {encoding : Bytes} (h : Spells s encoding) :
    (utf8Bytes s).length = encoding.length := by
  rw [← h, List.length_map]

theorem length_base32Encode (x : Bytes) :
    (base32Encode x).length = (8 * x.length + 4) / 5 := by
  simp [base32Encode, groups, length_bitsOf]

theorem position_alphabet {byte : UInt8} {val : Nat} (hv : val < 2 ^ 5)
    (h : toAsciiUppercase byte = alphabet.getD val 0) : position byte = .ok val := by
  have hall : ∀ v : Fin 32, alphabet.findIdx? (· = alphabet.getD v.val 0) = some v.val := by
    decide
  rw [position, h, hall ⟨val, hv⟩]

theorem position_cases (byte : UInt8) :
    (toAsciiUppercase byte ∈ alphabet ∧ ∃ val, position byte = .ok val) ∨
      (toAsciiUppercase byte ∉ alphabet ∧ position byte = .error (invalidCharacter byte)) := by
  unfold position
  split
  · next val hfound =>
    obtain ⟨hlt, hat, -⟩ := List.findIdx?_eq_some_iff_getElem.mp hfound
    exact .inl ⟨of_decide_eq_true hat ▸ List.getElem_mem hlt, val, rfl⟩
  · next hnone =>
    refine .inr ⟨fun hmem => ?_, rfl⟩
    have hno := List.findIdx?_eq_none_iff.mp hnone _ hmem
    simp at hno

theorem foldlM_step {bytes : Bytes} {vals : List Nat} (hv : ∀ val ∈ vals, val < 2 ^ 5)
    (h : bytes.map toAsciiUppercase = vals.map (alphabet.getD · 0)) (st : Base32) :
    bytes.foldlM Base32.step st = .ok (vals.foldl Base32.push st) := by
  induction vals generalizing bytes st with
  | nil =>
    rw [List.map_nil, List.map_eq_nil_iff] at h
    rw [h]
    rfl
  | cons val vals ih =>
    obtain ⟨byte, rest, rfl, hbyte, hrest⟩ := List.map_eq_cons_iff.mp h
    obtain ⟨hval, hvals⟩ := List.forall_mem_cons.mp hv
    rw [List.foldlM_cons, Base32.step, position_alphabet hval hbyte]
    exact ih hvals hrest (st.push val)

theorem foldlM_error {bytes : Bytes} (h : ∃ byte ∈ bytes, toAsciiUppercase byte ∉ alphabet)
    (st : Base32) : ∃ byte ∈ bytes, toAsciiUppercase byte ∉ alphabet ∧
      bytes.foldlM Base32.step st = .error (invalidCharacter byte) := by
  induction bytes generalizing st with
  | nil => simp at h
  | cons byte rest ih =>
    rw [List.foldlM_cons, Base32.step]
    rcases position_cases byte with ⟨hin, val, hval⟩ | ⟨hout, herror⟩
    · have hrest : ∃ byte ∈ rest, toAsciiUppercase byte ∉ alphabet := by
        obtain ⟨other, hother, hother'⟩ := h
        rcases List.mem_cons.mp hother with rfl | hmem
        · exact absurd hin hother'
        · exact ⟨other, hmem, hother'⟩
      obtain ⟨other, hother, hout, hfold⟩ := ih hrest (st.push val)
      exact ⟨other, List.mem_cons_of_mem _ hother, hout, by rw [hval]; exact hfold⟩
    · exact ⟨byte, List.mem_cons_self, hout, by rw [herror]; rfl⟩

theorem flatMap_values (x : Bytes) : ∃ pad < 5,
    ((groups 5 false (bitsOf x)).map ofBits).flatMap (bits 5) =
      bitsOf x ++ List.replicate pad false := by
  obtain ⟨pad, hpad, hflatten, -⟩ := flatten_groups (w := 5) (by decide) false (bitsOf x)
  refine ⟨pad, hpad, ?_⟩
  rw [← hflatten, List.flatMap_map, ← List.flatMap_id']
  refine List.flatMap_congr fun group hgroup => ?_
  have hbits := bits_ofBits group
  rwa [length_of_mem_groups hgroup] at hbits

theorem output_of_holds {x : Bytes} {st : Base32} {pad : Nat} (hpad : pad < 5)
    (h : Base32.Holds (bitsOf x ++ List.replicate pad false) st) : st.output = x := by
  have hread : bitsOf x ++ List.replicate pad false =
      bitsOf st.output ++ bits st.bitCount st.bits := h.read
  have hlen := congrArg List.length hread
  simp only [List.length_append, length_bitsOf, List.length_replicate, length_bits] at hlen
  have hshort := h.short
  have hsame : (bitsOf x).length = (bitsOf st.output).length := by
    simp only [length_bitsOf]
    omega
  exact (bitsOf_injective (List.append_inj hread hsame).1).symm

theorem base32Decode_spelling {x : Bytes} {s : String} (h : Spells s (base32Encode x)) :
    base32Decode s = .ok x := by
  have hv : ∀ val ∈ (groups 5 false (bitsOf x)).map ofBits, val < 2 ^ 5 := by
    intro val hval
    obtain ⟨group, hgroup, rfl⟩ := List.mem_map.mp hval
    exact length_of_mem_groups hgroup ▸ ofBits_lt group
  have hmap : (utf8Bytes s).map toAsciiUppercase =
      ((groups 5 false (bitsOf x)).map ofBits).map (alphabet.getD · 0) := by
    rw [List.map_map]
    exact h
  obtain ⟨pad, hpad, hvalues⟩ := flatMap_values x
  have hholds := Base32.holds_start.pushes hv
  rw [List.nil_append, hvalues] at hholds
  rw [base32Decode, foldlM_step hv hmap]
  exact congrArg Except.ok (output_of_holds hpad hholds)

theorem base32Decode_error {s : String}
    (h : ∃ byte ∈ utf8Bytes s, toAsciiUppercase byte ∉ alphabet) :
    ∃ byte ∈ utf8Bytes s, toAsciiUppercase byte ∉ alphabet ∧
      base32Decode s = .error (invalidCharacter byte) := by
  obtain ⟨byte, hmem, hout, hfold⟩ := foldlM_error h .start
  exact ⟨byte, hmem, hout, by rw [base32Decode, hfold]; rfl⟩

theorem infoHash_ok (text : String) (h : InfoHash) : infoHash text h.val = .ok h := by
  rw [infoHash, dif_pos h.property]

theorem parseBtih_base32 (hexDecode : String → Except String Bytes) {h : InfoHash} {s : String}
    (hs : Spells s (base32Encode h.val)) :
    (utf8Bytes s).length = 32 ∧ parseBtih hexDecode s = .ok h := by
  have hlen : (utf8Bytes s).length = 32 := by
    rw [hs.length, length_base32Encode, h.property]
  refine ⟨hlen, ?_⟩
  simp only [parseBtih, hlen, base32Decode_spelling hs]
  exact infoHash_ok _ h

theorem parseBtih_hex {hexDecode : String → Except String Bytes}
    (hhex : ∀ x s, Spells s (hexEncode x) → hexDecode s = .ok x) {h : InfoHash} {s : String}
    (hs : Spells s (hexEncode h.val)) :
    (utf8Bytes s).length = 40 ∧ parseBtih hexDecode s = .ok h := by
  have hlen : (utf8Bytes s).length = 40 := by
    rw [hs.length, length_hexEncode, h.property]
  refine ⟨hlen, ?_⟩
  simp only [parseBtih, hlen, hhex _ s hs]
  exact infoHash_ok _ h

theorem info_hash_spellings (hexDecode : String → Except String Bytes) :
    (∀ x s, Spells s (base32Encode x) → base32Decode s = .ok x) ∧
      (∀ s, ∀ n ∈ Base32.start.accumulators (utf8Bytes s), n < 2 ^ 13) ∧
      (∀ (h : InfoHash) s, Spells s (base32Encode h.val) →
        (utf8Bytes s).length = 32 ∧ parseBtih hexDecode s = .ok h) ∧
      ((∀ x s, Spells s (hexEncode x) → hexDecode s = .ok x) →
        ∀ (h : InfoHash) s, Spells s (hexEncode h.val) →
          (utf8Bytes s).length = 40 ∧ parseBtih hexDecode s = .ok h) ∧
      ∀ s, (∃ byte ∈ utf8Bytes s, toAsciiUppercase byte ∉ alphabet) →
        ∃ byte ∈ utf8Bytes s, toAsciiUppercase byte ∉ alphabet ∧
          base32Decode s = .error (invalidCharacter byte) := by
  refine ⟨fun _ _ => base32Decode_spelling, fun s n hn => ?_, fun _ _ => parseBtih_base32 hexDecode,
    fun hhex _ _ => parseBtih_hex hhex, fun _ => base32Decode_error⟩
  have hlt := Base32.accumulators_lt Base32.holds_start _ n hn
  omega

end Magnet

namespace Sample

open Magnet

def hexPairs : Bytes → Option Bytes
  | [] => some []
  | [_] => none
  | high :: low :: rest => do
    let high ← hexDigits.findIdx? (· = toAsciiUppercase high)
    let low ← hexDigits.findIdx? (· = toAsciiUppercase low)
    return (16 * high + low).toUInt8 :: (← hexPairs rest)

def hexDecode (s : String) : Except String Bytes :=
  match hexPairs (utf8Bytes s) with
  | some bytes => .ok bytes
  | none => .error "invalid hex"

theorem hexPairs_spelling {bytes x : Bytes} (h : bytes.map toAsciiUppercase = hexEncode x) :
    hexPairs bytes = some x := by
  induction x generalizing bytes with
  | nil =>
    rw [List.map_eq_nil_iff.mp h]
    rfl
  | cons byte x ih =>
    obtain ⟨high, tail, rfl, hhigh, htail⟩ := List.map_eq_cons_iff.mp h
    obtain ⟨low, rest, rfl, hlow, hrest⟩ := List.map_eq_cons_iff.mp htail
    have hall : ∀ v : Fin 16, hexDigits.findIdx? (· = hexDigits.getD v.val 0) = some v.val := by
      decide
    have hbyte : byte.toNat < 256 := byte.toNat_lt
    have hjoin : (16 * (byte.toNat / 16) + byte.toNat % 16).toUInt8 = byte := by
      rw [Nat.div_add_mod]
      exact UInt8.ofNat_toNat
    simp only [hexPairs, hhigh, hlow, hall ⟨byte.toNat / 16, by omega⟩,
      hall ⟨byte.toNat % 16, by omega⟩, ih hrest, Option.bind_eq_bind, Option.bind_some,
      Option.pure_def, hjoin]

theorem hexDecode_spelling (x : Bytes) (s : String) (h : Spells s (hexEncode x)) :
    hexDecode s = .ok x := by
  rw [hexDecode, hexPairs_spelling h]

def magnetHash : InfoHash :=
  ⟨[0xdd, 0x82, 0x55, 0xec, 0xdc, 0x7c, 0xa5, 0x5f, 0xb0, 0xbb,
    0xf8, 0x13, 0x23, 0xd8, 0x70, 0x62, 0xdb, 0x1f, 0x6d, 0x1c], rfl⟩

end Sample

namespace Magnet

theorem info_hash_spelled :
    parseBtih Sample.hexDecode "3wbfl3G4pssv7MF37ajshwdqmlnr63I4" = .ok Sample.magnetHash ∧
      parseBtih Sample.hexDecode "dd8255ecdc7ca55fb0bbf81323D87062db1f6d1c" =
        .ok Sample.magnetHash := by
  obtain ⟨-, -, hbase32, hhex, -⟩ := info_hash_spellings Sample.hexDecode
  exact ⟨(hbase32 Sample.magnetHash _ (by decide +kernel)).2,
    (hhex Sample.hexDecode_spelling Sample.magnetHash _ (by decide +kernel)).2⟩

end Magnet

end Tortue
