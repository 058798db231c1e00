import Tortue.Domain.Decoding

namespace Tortue

namespace Bencode

mutual

-- What the source's own types can hold: maps in key order, slices of addressable length.
def WellFormed : Bencode → Prop
  | .int _ => True
  | .bytes b => b.length < 2 ^ 64
  | .list items => WellFormedItems items
  | .dict entries => WellFormedEntries entries

def WellFormedItems : List Bencode → Prop
  | [] => True
  | item :: items => WellFormed item ∧ WellFormedItems items

def WellFormedEntries : List (Bytes × Bencode) → Prop
  | [] => True
  | (key, v) :: entries => key.length < 2 ^ 64 ∧ (∀ e ∈ entries, key < e.1) ∧ WellFormed v ∧
      WellFormedEntries entries

end

theorem dictInsert_last {key : Bytes} {v : Bencode} {found : List (Bytes × Bencode)}
    (h : ∀ e ∈ found, e.1 < key) : dictInsert key v found = found ++ [(key, v)] := by
  induction found with
  | nil => rfl
  | cons e found ih =>
    obtain ⟨k, w⟩ := e
    have hk : k < key := h (k, w) (List.mem_cons_self ..)
    have hne : key ≠ k := by
      rintro rfl
      exact List.lt_irrefl _ hk
    rw [dictInsert, if_neg (List.lt_asymm hk), if_neg hne, List.cons_append,
      ih fun e he => h e (List.mem_cons_of_mem _ he)]

theorem mem_dictInsert {key : Bytes} {v : Bencode} {found : List (Bytes × Bencode)}
    {e : Bytes × Bencode} (h : e ∈ dictInsert key v found) : e = (key, v) ∨ e ∈ found := by
  induction found with
  | nil => exact .inl (List.mem_singleton.mp h)
  | cons d found ih =>
    obtain ⟨k, w⟩ := d
    simp only [dictInsert] at h
    split_ifs at h
    · exact List.mem_cons.mp h
    · exact (List.mem_cons.mp h).imp_right fun he => List.mem_cons_of_mem _ he
    · rcases List.mem_cons.mp h with he | he
      · exact .inr (by rw [he]; exact List.mem_cons_self ..)
      · exact (ih he).imp_right fun he => List.mem_cons_of_mem _ he

theorem dictInsert_wellFormed {key : Bytes} {v : Bencode} {found : List (Bytes × Bencode)}
    (hkey : key.length < 2 ^ 64) (hv : v.WellFormed) (h : WellFormedEntries found) :
    WellFormedEntries (dictInsert key v found) := by
  induction found with
  | nil =>
    simp only [dictInsert, WellFormedEntries]
    exact ⟨hkey, by simp, hv, trivial⟩
  | cons d found ih =>
    obtain ⟨k, w⟩ := d
    simp only [WellFormedEntries] at h
    obtain ⟨hk, hlow, hw, hfound⟩ := h
    simp only [dictInsert]
    split_ifs with hlt heq
    · simp only [WellFormedEntries]
      refine ⟨hkey, fun e he => ?_, hv, hk, hlow, hw, hfound⟩
      rcases List.mem_cons.mp he with rfl | he
      · exact hlt
      · exact List.lt_trans hlt (hlow e he)
    · simp only [WellFormedEntries]
      exact ⟨hkey, heq ▸ hlow, hv, hfound⟩
    · simp only [WellFormedEntries]
      refine ⟨hk, fun e he => ?_, hw, ih hfound⟩
      rcases mem_dictInsert he with rfl | he
      · refine List.not_le.mp fun hle => heq ?_
        exact List.le_antisymm hle (List.not_lt.mp hlt)
      · exact hlow e he

theorem dictGet_cons (key k : Bytes) (v : Bencode) (entries : List (Bytes × Bencode)) :
    dictGet k ((key, v) :: entries) = if key = k then some v else dictGet k entries := by
  simp only [dictGet, List.find?_cons]
  split_ifs with h <;> simp [h]

theorem dictGet_insert (key k : Bytes) (v : Bencode) (found : List (Bytes × Bencode)) :
    dictGet k (dictInsert key v found) = if key = k then some v else dictGet k found := by
  induction found with
  | nil => rw [dictInsert, dictGet_cons]
  | cons d found ih =>
    obtain ⟨k', w⟩ := d
    simp only [dictInsert]
    split
    · rw [dictGet_cons]
    · split
      · next heq =>
        rw [dictGet_cons, dictGet_cons, heq]
        split_ifs <;> rfl
      · next heq =>
        rw [dictGet_cons, ih, dictGet_cons]
        split_ifs with hk' hk
        · exact absurd (hk.trans hk'.symm) heq
        · rfl
        · rfl
        · rfl

namespace Spelling

mutual

theorem value_wellFormed : ∀ s : Spelling, s.value.WellFormed
  | .int n => by simp only [value, WellFormed]
  | .bytes t => by
    simp only [value, WellFormed]
    exact (parseUsize_eq_some.mp t.parses).2.2.2
  | .list items => by
    simp only [value, WellFormed]
    exact values_wellFormed items
  | .dict entries => by
    simp only [value, WellFormed]
    exact collect_wellFormed entries [] (by simp only [WellFormedEntries])

theorem values_wellFormed : ∀ items : List Spelling, WellFormedItems (values items)
  | [] => by simp only [values, WellFormedItems]
  | item :: items => by
    simp only [values, WellFormedItems]
    exact ⟨value_wellFormed item, values_wellFormed items⟩

theorem collect_wellFormed : ∀ (entries : List (Text × Spelling))
    (found : List (Bytes × Bencode)), WellFormedEntries found →
    WellFormedEntries (collect entries found)
  | [], found, h => by
    simp only [collect]
    exact h
  | (key, item) :: entries, found, h => by
    simp only [collect]
    have hkey := (parseUsize_eq_some.mp key.parses).2.2.2
    exact collect_wellFormed entries _ (dictInsert_wellFormed hkey (value_wellFormed item) h)

end

mutual

theorem exists_canonical : ∀ v : Bencode, v.WellFormed →
    ∃ s : Spelling, s.Canonical ∧ s.value = v ∧ s.render = v.encode
  | .int n, _ => by
    refine ⟨.int (.of n), ?_, by rw [value]; rfl, ?_⟩
    · simp only [Canonical]
      exact head_decimalInt _
    · simp only [render, encode]
      rfl
  | .bytes b, h => by
    simp only [WellFormed] at h
    refine ⟨.bytes (.of b h), ?_, by rw [value]; rfl, ?_⟩
    · simp only [Canonical]
      exact unpadded_decimal _
    · simp only [render, encode]
      rfl
  | .list items, h => by
    simp only [WellFormed] at h
    obtain ⟨ss, hcanonical, hvalues, hrender⟩ := exists_canonicalItems items h
    refine ⟨.list ss, ?_, by rw [value, hvalues], by rw [render, encode, hrender]⟩
    simp only [Canonical]
    exact hcanonical
  | .dict entries, h => by
    simp only [WellFormed] at h
    obtain ⟨es, hcanonical, -, hcollect, hrender⟩ := exists_canonicalEntries entries h
    have hvalue : collect es [] = entries := by
      rw [hcollect [] (by simp), List.nil_append]
    refine ⟨.dict es, ?_, by rw [value, hvalue], by rw [render, encode, hrender]⟩
    simp only [Canonical]
    exact hcanonical

theorem exists_canonicalItems : ∀ items : List Bencode, WellFormedItems items →
    ∃ ss, CanonicalItems ss ∧ values ss = items ∧ renderItems ss = encodeItems items
  | [], _ => ⟨[], by simp only [CanonicalItems], by rw [values], by rw [renderItems, encodeItems]⟩
  | item :: items, h => by
    simp only [WellFormedItems] at h
    obtain ⟨s, hcanonical, hvalue, hrender⟩ := exists_canonical item h.1
    obtain ⟨ss, hcanonicals, hvalues, hrenders⟩ := exists_canonicalItems items h.2
    refine ⟨s :: ss, ?_, by rw [values, hvalue, hvalues], ?_⟩
    · simp only [CanonicalItems]
      exact ⟨hcanonical, hcanonicals⟩
    · rw [renderItems, encodeItems, hrender, hrenders]

theorem exists_canonicalEntries : ∀ entries : List (Bytes × Bencode), WellFormedEntries entries →
    ∃ es, CanonicalEntries es ∧ es.map (fun e => e.1.bytes) = entries.map Prod.fst ∧
      (∀ found : List (Bytes × Bencode), (∀ d ∈ found, ∀ e ∈ entries, d.1 < e.1) →
        collect es found = found ++ entries) ∧
      renderEntries es = encodeEntries entries
  | [], _ => by
    refine ⟨[], by simp only [CanonicalEntries], rfl, fun found _ => ?_, ?_⟩
    · rw [collect, List.append_nil]
    · rw [renderEntries, encodeEntries]
  | (key, v) :: entries, h => by
    simp only [WellFormedEntries] at h
    obtain ⟨hkey, hlow, hv, hentries⟩ := h
    obtain ⟨s, hcanonical, hvalue, hrender⟩ := exists_canonical v hv
    obtain ⟨es, hcanonicals, hkeys, hcollect, hrenders⟩ := exists_canonicalEntries entries hentries
    refine ⟨(.of key hkey, s) :: es, ?_, ?_, fun found hfound => ?_, ?_⟩
    · simp only [CanonicalEntries]
      refine ⟨unpadded_decimal _, fun e he => ?_, hcanonical, hcanonicals⟩
      have hin : e.1.bytes ∈ entries.map Prod.fst := hkeys ▸ List.mem_map.mpr ⟨e, he, rfl⟩
      obtain ⟨d, hd, hbytes⟩ := List.mem_map.mp hin
      exact hbytes ▸ hlow d hd
    · rw [List.map_cons, List.map_cons, hkeys]
      rfl
    · have hlast : dictInsert key v found = found ++ [(key, v)] :=
        dictInsert_last fun d hd => hfound d hd _ (List.mem_cons_self ..)
      have hstep : collect es (found ++ [(key, v)]) = found ++ [(key, v)] ++ entries := by
        refine hcollect _ fun d hd e he => ?_
        rcases List.mem_append.mp hd with hd | hd
        · exact hfound d hd e (List.mem_cons_of_mem _ he)
        · rw [List.mem_singleton] at hd
          exact hd ▸ hlow e he
      rw [collect, hvalue]
      have hbytes : (Text.of key hkey).bytes = key := rfl
      rw [hbytes, hlast, hstep, List.append_assoc, List.singleton_append]
    · rw [renderEntries, encodeEntries, hrender, hrenders]
      rfl

end

mutual

theorem encode_canonical : ∀ s : Spelling, s.Canonical → s.value.encode = s.render
  | .int n, h => by
    simp only [Canonical] at h
    rw [value, encode, render, n.canonical_iff.mp h]
  | .bytes t, h => by
    simp only [Canonical] at h
    rw [value, encode, render, t.canonical_iff.mp h]
  | .list items, h => by
    simp only [Canonical] at h
    rw [value, encode, render, encode_canonicalItems items h]
  | .dict entries, h => by
    simp only [Canonical] at h
    obtain ⟨tail, hcollect, hencode⟩ := encode_canonicalEntries entries h [] (by simp)
    rw [value, encode, render, hcollect, List.nil_append, hencode]

theorem encode_canonicalItems : ∀ items : List Spelling, CanonicalItems items →
    encodeItems (values items) = renderItems items
  | [], _ => by rw [values, encodeItems, renderItems]
  | item :: items, h => by
    simp only [CanonicalItems] at h
    rw [values, encodeItems, renderItems, encode_canonical item h.1,
      encode_canonicalItems items h.2]

theorem encode_canonicalEntries : ∀ es : List (Text × Spelling), CanonicalEntries es →
    ∀ found : List (Bytes × Bencode), (∀ d ∈ found, ∀ e ∈ es, d.1 < e.1.bytes) →
      ∃ tail, collect es found = found ++ tail ∧ encodeEntries tail = renderEntries es
  | [], _, found, _ => ⟨[], by rw [collect, List.append_nil], by rw [encodeEntries, renderEntries]⟩
  | (key, item) :: es, h, found, hfound => by
    simp only [CanonicalEntries] at h
    obtain ⟨hkey, hlow, hitem, hes⟩ := h
    have hlast := dictInsert_last (v := item.value) fun d hd =>
      hfound d hd _ (List.mem_cons_self ..)
    obtain ⟨tail, hcollect, hencode⟩ := encode_canonicalEntries es hes
      (found ++ [(key.bytes, item.value)]) (by
        intro d hd e he
        rcases List.mem_append.mp hd with hd | hd
        · exact hfound d hd e (List.mem_cons_of_mem _ he)
        · rw [List.mem_singleton] at hd
          exact hd ▸ hlow e he)
    refine ⟨(key.bytes, item.value) :: tail, ?_, ?_⟩
    · rw [collect, hlast, hcollect, List.append_assoc, List.singleton_append]
    · rw [encodeEntries, renderEntries, hencode, encode_canonical item hitem,
        key.canonical_iff.mp hkey]

end

theorem encode_value_eq_iff (s : Spelling) : s.value.encode = s.render ↔ s.Canonical := by
  refine ⟨fun h => ?_, encode_canonical s⟩
  obtain ⟨t, hcanonical, -, hrender⟩ := exists_canonical s.value s.value_wellFormed
  have hsame : t.render ++ [] = s.render ++ [] := by rw [hrender, h]
  obtain ⟨rfl, -⟩ := render_inj t s [] [] hsame
  exact hcanonical

end Spelling

theorem decodeWithRest_eq_ok {data rest : Bytes} {v : Bencode} :
    decodeWithRest data = .ok (v, rest) ↔
      ∃ s : Spelling, v = s.value ∧ data = s.render ++ rest := by
  constructor
  · intro h
    simp only [decodeWithRest] at h
    split at h
    · next r hr =>
      rw [Except.ok.injEq] at h
      subst h
      exact (Decoder.spelled _).1 _ _ _ hr
    · contradiction
    · contradiction
  · rintro ⟨s, rfl, rfl⟩
    have hsize : s.size ≤ fuelFor (s.render ++ rest) := by
      have hlt := s.size_lt
      simp only [fuelFor, List.length_append]
      omega
    rw [decodeWithRest, s.parse_render _ rest hsize]

theorem decodeWithRest_encode {v : Bencode} (h : v.WellFormed) (rest : Bytes) :
    decodeWithRest (v.encode ++ rest) = .ok (v, rest) := by
  obtain ⟨s, -, hvalue, hrender⟩ := Spelling.exists_canonical v h
  exact decodeWithRest_eq_ok.mpr ⟨s, hvalue.symm, by rw [hrender]⟩

theorem decode_eq_ok {data : Bytes} {v : Bencode} (h : decode data = .ok v) :
    ∃ (s : Spelling) (rest : Bytes), v = s.value ∧ data = s.render ++ rest := by
  rw [decode] at h
  cases hr : decodeWithRest data with
  | error e =>
    rw [hr] at h
    contradiction
  | ok r =>
    rw [hr] at h
    obtain ⟨s, hv, hdata⟩ := decodeWithRest_eq_ok.mp (hr.trans (by rfl))
    refine ⟨s, r.2, ?_, hdata⟩
    rw [← hv]
    exact (Except.ok.inj h).symm

theorem decode_encode {v : Bencode} (h : v.WellFormed) : decode v.encode = .ok v := by
  have hr := decodeWithRest_encode h []
  rw [List.append_nil] at hr
  rw [decode, hr]
  rfl

end Bencode

end Tortue
