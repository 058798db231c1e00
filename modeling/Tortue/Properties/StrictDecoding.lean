import Tortue.Domain.RoundTrip

namespace Tortue

theorem u32Bytes_foldl (a b c d : UInt8) :
    u32Bytes ([a, b, c, d].foldl (fun n b => n * 2 ^ 8 + b.toNat) 0) = [a, b, c, d] := by
  have ha := a.toNat_lt
  have hb := b.toNat_lt
  have hc := c.toNat_lt
  have hd := d.toNat_lt
  simp only [u32Bytes, List.foldl_cons, List.foldl_nil, List.cons.injEq, and_true]
  refine ⟨?_, ?_, ?_, ?_⟩ <;>
    · apply UInt8.toNat.inj
      rw [Nat.toUInt8, UInt8.toNat_ofNat']
      omega

theorem u32Bytes_readU32 {payload : Bytes} {offset : Nat} (h : offset + 4 ≤ payload.length) :
    u32Bytes (readU32 payload offset) = (payload.drop offset).take 4 := by
  have hlength : ((payload.drop offset).take 4).length = 4 := by
    rw [List.length_take, List.length_drop]
    omega
  obtain ⟨a, b, c, d, hbytes⟩ := List.length_eq_four.mp hlength
  rw [readU32, hbytes, u32Bytes_foldl]

namespace Message

theorem expectLength_eq_ok {payload : Bytes} {length : Nat} {m r : Message} :
    expectLength payload length m = .ok r ↔ payload.length = length ∧ m = r := by
  rw [expectLength]
  split_ifs with h
  · simp [h]
  · rw [not_not] at h
    simp [h]

theorem encodeRange_decodeRange {payload : Bytes} (h : payload.length = 12) :
    encodeRange (decodeRange payload) = payload := by
  simp only [encodeRange, decodeRange]
  rw [u32Bytes_readU32 (by omega), u32Bytes_readU32 (by omega), u32Bytes_readU32 (by omega)]
  rw [List.drop_zero, ← List.take_add, ← List.take_add, List.take_of_length_le (by omega)]

theorem u32Bytes_whole {payload : Bytes} (h : payload.length = 4) :
    u32Bytes (readU32 payload 0) = payload := by
  rw [u32Bytes_readU32 (by omega), List.drop_zero, List.take_of_length_le (by omega)]

def layout (id : UInt8) : Option Nat :=
  match id.toNat with
  | 0 | 1 | 2 | 3 | 14 | 15 => some 0
  | 4 | 13 | 17 => some 4
  | 6 | 8 | 16 => some 12
  | _ => none

def Strict (o : Collections.IterOrder) (data : Bytes) : Prop :=
  ∀ m, decode data = .ok m → m ≠ .unimplemented → (∀ hs, m ≠ .extensionHandshake hs) →
    m.encode o = data

def Trailing (data : Bytes) : Prop :=
  ∃ id payload, data = id :: payload ∧ id.toNat < 4 ∧ payload ≠ []

variable {o : Collections.IterOrder} {id : UInt8} {payload : Bytes} {m : Message}

theorem decode_bare (o : Collections.IterOrder) (payload : Bytes) (h : id.toNat < 4) :
    ∃ m, decode (id :: payload) = .ok m ∧ m.encode o = [id] ∧ m ≠ .unimplemented ∧
      ∀ hs, m ≠ .extensionHandshake hs := by
  have hid : id = 0 ∨ id = 1 ∨ id = 2 ∨ id = 3 := by
    simp only [← UInt8.toNat_inj]
    simp
    omega
  rcases hid with rfl | rfl | rfl | rfl
  · exact ⟨.choke, rfl, rfl, by simp⟩
  · exact ⟨.unchoke, rfl, rfl, by simp⟩
  · exact ⟨.interested, rfl, rfl, by simp⟩
  · exact ⟨.notInterested, rfl, rfl, by simp⟩

theorem encode_decodeExtended (h : decodeExtended payload = .ok m)
    (hhandshake : ∀ hs, m ≠ .extensionHandshake hs) : m.encode o = 20 :: payload := by
  cases payload with
  | nil => contradiction
  | cons extId payload =>
    rw [decodeExtended] at h
    split_ifs at h with hid
    · obtain ⟨b, -, hm⟩ := Except.bind_eq_ok.mp h
      exact absurd (Except.ok.inj hm).symm (hhandshake _)
    · rw [← Except.ok.inj h, encode]

theorem encode_decodePiece (h : decodePiece payload = .ok m) : m.encode o = 7 :: payload := by
  rw [decodePiece] at h
  split_ifs at h with hlength
  rw [← Except.ok.inj h, encode, u32Bytes_readU32 (by omega), u32Bytes_readU32 (by omega),
    List.drop_zero, ← List.take_add, List.take_append_drop]

theorem encode_decoded (hid : ¬ id.toNat < 4) (h : decode (id :: payload) = .ok m)
    (hknown : m ≠ .unimplemented) (hhandshake : ∀ hs, m ≠ .extensionHandshake hs) :
    m.encode o = id :: payload := by
  have hsame : ∀ n : UInt8, id.toNat = n.toNat → id = n := fun n hn => UInt8.toNat_inj.mp hn
  rw [decode] at h
  split at h
  case h_1 | h_2 | h_3 | h_4 => omega
  case h_5 heq =>
    obtain ⟨hlength, rfl⟩ := expectLength_eq_ok.mp h
    rw [encode, hsame 4 heq, u32Bytes_whole hlength]
  case h_6 heq => rw [← Except.ok.inj h, encode, hsame 5 heq]
  case h_7 heq =>
    obtain ⟨hlength, rfl⟩ := expectLength_eq_ok.mp h
    rw [encode, hsame 6 heq, encodeRange_decodeRange hlength]
  case h_8 heq => rw [encode_decodePiece h, hsame 7 heq]
  case h_9 heq =>
    obtain ⟨hlength, rfl⟩ := expectLength_eq_ok.mp h
    rw [encode, hsame 8 heq, encodeRange_decodeRange hlength]
  case h_10 heq => rw [encode_decodeExtended h hhandshake, hsame 20 heq]
  case h_11 heq =>
    obtain ⟨hlength, rfl⟩ := expectLength_eq_ok.mp h
    rw [encode, hsame 13 heq, u32Bytes_whole hlength]
  case h_12 heq =>
    obtain ⟨hlength, rfl⟩ := expectLength_eq_ok.mp h
    rw [encode, hsame 14 heq, List.length_eq_zero_iff.mp hlength]
  case h_13 heq =>
    obtain ⟨hlength, rfl⟩ := expectLength_eq_ok.mp h
    rw [encode, hsame 15 heq, List.length_eq_zero_iff.mp hlength]
  case h_14 heq =>
    obtain ⟨hlength, rfl⟩ := expectLength_eq_ok.mp h
    rw [encode, hsame 16 heq, encodeRange_decodeRange hlength]
  case h_15 heq =>
    obtain ⟨hlength, rfl⟩ := expectLength_eq_ok.mp h
    rw [encode, hsame 17 heq, u32Bytes_whole hlength]
  case h_16 => exact absurd (Except.ok.inj h).symm hknown

theorem strict_iff (o : Collections.IterOrder) (data : Bytes) :
    Strict o data ↔ ¬ Trailing data := by
  constructor
  · rintro hstrict ⟨id, payload, rfl, hid, hne⟩
    obtain ⟨m, hdecode, hencode, hknown, hhandshake⟩ := decode_bare o payload hid
    have hsame := hstrict m hdecode hknown hhandshake
    rw [hencode, List.cons.injEq] at hsame
    exact hne hsame.2.symm
  · intro hclean m h hknown hhandshake
    cases data with
    | nil => rw [← Except.ok.inj h, encode]
    | cons id payload =>
      by_cases hid : id.toNat < 4
      · have hempty : payload = [] := by_contra fun hne => hclean ⟨id, payload, rfl, hid, hne⟩
        obtain ⟨r, hdecode, hencode, -⟩ := decode_bare o payload hid
        rw [hdecode] at h
        rw [← Except.ok.inj h, hencode, hempty]
      · exact encode_decoded hid h hknown hhandshake

theorem expectLength_error {length : Nat} (h : payload.length ≠ length) (m : Message) :
    expectLength payload length m = .error .invalidMessage := by
  rw [expectLength, if_pos h]

theorem layout_cases {length : Nat} (h : layout id = some length) :
    (id.toNat < 4 ∧ length = 0) ∨ ((id = 14 ∨ id = 15) ∧ length = 0) ∨
      ((id = 4 ∨ id = 13 ∨ id = 17) ∧ length = 4) ∨
      ((id = 6 ∨ id = 8 ∨ id = 16) ∧ length = 12) := by
  simp only [← UInt8.toNat_inj]
  rw [layout] at h
  split at h
  case h_1 heq => exact .inl ⟨by omega, (Option.some.inj h).symm⟩
  all_goals simp_all

theorem decode_other_length {length : Nat} (hlayout : layout id = some length)
    (hlength : payload.length ≠ length) (hid : ¬ id.toNat < 4) :
    decode (id :: payload) = .error .invalidMessage := by
  obtain ⟨hlow, -⟩ | ⟨hid, rfl⟩ | ⟨hid, rfl⟩ | ⟨hid, rfl⟩ := layout_cases hlayout
  · exact absurd hlow hid
  · rcases hid with rfl | rfl <;> exact expectLength_error hlength _
  · rcases hid with rfl | rfl | rfl <;> exact expectLength_error hlength _
  · rcases hid with rfl | rfl | rfl <;> exact expectLength_error hlength _

theorem strict_and_layout_iff (o : Collections.IterOrder) (data : Bytes) :
    (Strict o data ↔ ¬ Trailing data) ∧
    ∀ id payload length, data = id :: payload → layout id = some length →
      payload.length ≠ length → (decode data = .error .invalidMessage ↔ ¬ Trailing data) := by
  refine ⟨strict_iff o data, ?_⟩
  rintro id payload length rfl hlayout hlength
  constructor
  · rintro herror ⟨other, rest, hdata, hid, -⟩
    obtain ⟨m, hdecode, -⟩ := decode_bare o rest hid
    rw [hdata, hdecode] at herror
    contradiction
  · intro hclean
    refine decode_other_length hlayout hlength fun hid => hclean ⟨id, payload, rfl, hid, ?_⟩
    rintro rfl
    obtain ⟨-, rfl⟩ | ⟨hother, rfl⟩ | ⟨hother, rfl⟩ | ⟨hother, rfl⟩ := layout_cases hlayout
    · exact hlength rfl
    · exact hlength rfl
    · rcases hother with rfl | rfl | rfl <;> contradiction
    · rcases hother with rfl | rfl | rfl <;> contradiction

theorem trailing_choke_decoded : ¬ ∀ (o : Collections.IterOrder) (data : Bytes) (m : Message),
    decode data = .ok m → m ≠ .unimplemented → (∀ hs, m ≠ .extensionHandshake hs) →
      m.encode o = data := by
  intro hall
  have hsame := hall .insertion [0, 1] .choke rfl (by simp) (by simp)
  exact absurd hsame (by decide)

end Message

end Tortue
