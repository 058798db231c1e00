import Tortue.Domain.Termination

namespace Tortue

namespace Bencode

abbrev Value := { v : Bencode // v.WellFormed }

theorem decoded_wellFormed {data rest : Bytes} {v : Bencode}
    (h : decodeWithRest data = .ok (v, rest)) : v.WellFormed := by
  obtain ⟨s, rfl, -⟩ := decodeWithRest_eq_ok.mp h
  exact s.value_wellFormed

theorem decode_undoes_encode (v : Value) (rest : Bytes) :
    decodeWithRest (v.val.encode ++ rest) = .ok (v.val, rest) :=
  decodeWithRest_encode v.property rest

def rewritten (data : Bytes) : Option Bytes :=
  (decodeWithRest data).toOption.map fun r => r.1.encode ++ r.2

theorem rewritten_eq_some {data other : Bytes} (h : rewritten data = some other) :
    ∃ v rest, decodeWithRest data = .ok (v, rest) ∧ v.encode ++ rest = other := by
  cases hread : decodeWithRest data with
  | error e =>
    rw [rewritten, hread] at h
    contradiction
  | ok r =>
    rw [rewritten, hread] at h
    exact ⟨r.1, r.2, rfl, Option.some.inj h⟩

theorem decoded_canonical_iff {data rest : Bytes} {v : Bencode}
    (h : decodeWithRest data = .ok (v, rest)) :
    ∃ s : Spelling, v = s.value ∧ data = s.render ++ rest ∧
      (∀ t r, data = t.render ++ r → t = s) ∧ (data = v.encode ++ rest ↔ s.Canonical) := by
  obtain ⟨s, rfl, rfl⟩ := decodeWithRest_eq_ok.mp h
  refine ⟨s, rfl, rfl, fun t r hother => ?_, ?_⟩
  · exact (Spelling.render_inj s t rest r hother).1.symm
  · rw [← s.encode_value_eq_iff, List.append_cancel_right_eq]
    exact eq_comm

theorem decoded_signed_number : ∃ v, decodeWithRest (ByteStr "i+5e") = .ok (v, []) ∧
    ∃ s : Spelling, v = s.value ∧ ByteStr "i+5e" = s.render ++ [] ∧
      (∀ t r, ByteStr "i+5e" = t.render ++ r → t = s) ∧
      (ByteStr "i+5e" = v.encode ++ [] ↔ s.Canonical) := by
  have hread : decodeWithRest (ByteStr "i+5e") = .ok (.int 5, []) := rfl
  exact ⟨.int 5, hread, decoded_canonical_iff hread⟩

theorem loose_inputs (data : String) (h : data ∈ ["i+5e", "02:ab", "d1:bi1e1:ai2ee",
    "d1:ai1e1:ai2ee"]) : ∃ v rest, decodeWithRest (ByteStr data) = .ok (v, rest) ∧
      ByteStr data ≠ v.encode ++ rest := by
  have hother : ∀ s ∈ ["i+5e", "02:ab", "d1:bi1e1:ai2ee", "d1:ai1e1:ai2ee"],
      ∃ other, rewritten (ByteStr s) = some other ∧ ByteStr s ≠ other := by
    simp only [List.forall_mem_cons]
    exact ⟨⟨ByteStr "i5e", by decide +kernel⟩, ⟨ByteStr "2:ab", by decide +kernel⟩,
      ⟨ByteStr "d1:ai2e1:bi1ee", by decide +kernel⟩, ⟨ByteStr "d1:ai2ee", by decide +kernel⟩,
      by simp⟩
  obtain ⟨other, hsome, hne⟩ := hother data h
  obtain ⟨v, rest, hread, rfl⟩ := rewritten_eq_some hsome
  exact ⟨v, rest, hread, hne⟩

theorem loose_inputs_decoded : ¬ ∀ (data rest : Bytes) (v : Bencode),
    decodeWithRest data = .ok (v, rest) → data = v.encode ++ rest := by
  intro hall
  obtain ⟨v, rest, hread, hne⟩ := loose_inputs "i+5e" (by simp)
  exact hne (hall _ _ _ hread)

open Decoder

theorem halts_fuelFor (data : Bytes) : Halts (parse (fuelFor data)) data :=
  (halts_parse (fuelFor data)).1 data (by unfold fuelFor; omega)

theorem parse_fuelFor (data : Bytes) {fuel : Nat} (h : fuelFor data ≤ fuel) :
    parse fuel data = parse (fuelFor data) data := by
  obtain ⟨k, rfl⟩ := Nat.exists_eq_add_of_le h
  exact parse_add (halts_fuelFor data) k

theorem decodeWithRest_eq_error (data : Bytes) (e : Error) :
    decodeWithRest data = .error e ↔ parse (fuelFor data) data = .error (.error e) := by
  have hhalts := halts_fuelFor data
  unfold decodeWithRest
  cases hres : parse (fuelFor data) data with
  | ok r => simp
  | error f =>
    cases f with
    | error e' => simp
    | outOfFuel => exact absurd hres hhalts

theorem decodeWithRest_local {consumed rest : Bytes} {v : Bencode}
    (h : decodeWithRest (consumed ++ rest) = .ok (v, rest)) (r : Bytes) :
    decodeWithRest (consumed ++ r) = .ok (v, r) := by
  obtain ⟨s, rfl, hdata⟩ := decodeWithRest_eq_ok.mp h
  rw [List.append_cancel_right hdata]
  exact decodeWithRest_eq_ok.mpr ⟨s, rfl, rfl⟩

theorem decoder_self_delimiting (data : Bytes) :
    (∀ fuel, fuelFor data ≤ fuel → Halts (parse fuel) data ∧
      parse fuel data = parse (fuelFor data) data) ∧
    (∀ e, decodeWithRest data = .error e ↔ parse (fuelFor data) data = .error (.error e)) ∧
    (∀ fuel v rest, parse fuel data = .ok (v, rest) →
      ∃ consumed, consumed ≠ [] ∧ data = consumed ++ rest) ∧
    (∀ key rest, parseDictKey data = .ok (key, rest) →
      ∃ consumed, consumed ≠ [] ∧ data = consumed ++ rest) ∧
    ∀ v rest consumed, decodeWithRest data = .ok (v, rest) → data = consumed ++ rest →
      ∀ r, decodeWithRest (consumed ++ r) = .ok (v, r) := by
  refine ⟨fun fuel hfuel => ?_, decodeWithRest_eq_error data, fun _ _ _ => parse_consumes,
    fun _ _ => parseDictKey_consumes, ?_⟩
  · have hsame := parse_fuelFor data hfuel
    exact ⟨fun hout => halts_fuelFor data (hsame.symm.trans hout), hsame⟩
  · rintro v rest consumed hdecode rfl r
    exact decodeWithRest_local hdecode r

end Bencode

end Tortue
