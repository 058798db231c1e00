import Tortue.Domain.Spelling

namespace Tortue

namespace Bencode

namespace Decoder

variable {α β : Type} {data rest : Bytes}

theorem bind_eq_ok {x : Decoder α} {f : α → Decoder β} {r : β × Bytes} :
    (x >>= f) data = .ok r ↔ ∃ a rest, x data = .ok (a, rest) ∧ f a rest = .ok r := by
  simp only [bind, StateT.bind, Except.bind]
  constructor
  · intro h
    split at h
    · contradiction
    · next p hp => exact ⟨p.1, p.2, hp, h⟩
  · rintro ⟨a, rest, hx, hf⟩
    rw [hx]
    exact hf

theorem pure_eq_ok {a b : α} : (pure a : Decoder α) data = .ok (b, rest) ↔ a = b ∧ data = rest := by
  have hrun : (pure a : Decoder α) data = .ok (a, data) := rfl
  rw [hrun, Except.ok.injEq, Prod.mk.injEq]

theorem fail_eq_ok {e : Error} {r : α × Bytes} : (fail e : Decoder α) data = .ok r ↔ False := by
  simp [fail, throw, throwThe, MonadExceptOf.throw, StateT.lift, bind, Except.bind]

theorem fail_bind_eq_ok {e : Error} {f : α → Decoder β} {r : β × Bytes} :
    (fail e >>= f) data = .ok r ↔ False := by
  simp [bind_eq_ok, fail_eq_ok]

theorem get_eq_ok {a : Bytes} :
    (MonadState.get : Decoder Bytes) data = .ok (a, rest) ↔ a = data ∧ rest = data := by
  have hrun : (MonadState.get : Decoder Bytes) data = .ok (data, data) := rfl
  rw [hrun, Except.ok.injEq, Prod.mk.injEq]
  exact and_congr eq_comm eq_comm

theorem set_eq_ok {a : Bytes} {u : PUnit} :
    (set a : Decoder PUnit) data = .ok (u, rest) ↔ rest = a := by
  have hrun : (set a : Decoder PUnit) data = .ok (⟨⟩, a) := rfl
  rw [hrun, Except.ok.injEq, Prod.mk.injEq]
  exact ⟨fun h => h.2.symm, fun h => ⟨rfl, h.symm⟩⟩

theorem peekByte_eq_ok {b : UInt8} :
    peekByte data = .ok (b, rest) ↔ data.head? = some b ∧ rest = data := by
  cases data with
  | nil =>
    have hrun : peekByte [] = .error (.error .unexpectedEof) := rfl
    simp [hrun]
  | cons c t =>
    have hrun : peekByte (c :: t) = .ok (c, c :: t) := rfl
    rw [hrun, Except.ok.injEq, Prod.mk.injEq, List.head?_cons, Option.some.injEq]
    exact and_congr_right fun _ => eq_comm

theorem nextByte_eq_ok {b : UInt8} : nextByte data = .ok (b, rest) ↔ data = b :: rest := by
  cases data with
  | nil =>
    have hrun : nextByte [] = .error (.error .unexpectedEof) := rfl
    simp [hrun]
  | cons c t =>
    have hrun : nextByte (c :: t) = .ok (c, t) := rfl
    rw [hrun, Except.ok.injEq, Prod.mk.injEq, List.cons.injEq]

theorem consumeByte_eq_ok {b : UInt8} {u : Unit} :
    consumeByte b data = .ok (u, rest) ↔ data = b :: rest := by
  simp only [consumeByte, bind_eq_ok, nextByte_eq_ok]
  constructor
  · rintro ⟨c, t, rfl, h⟩
    split at h
    · rw [fail_eq_ok] at h
      contradiction
    · next hc =>
      rw [pure_eq_ok] at h
      rw [h.2, not_not.mp hc]
  · rintro rfl
    refine ⟨b, rest, rfl, ?_⟩
    rw [if_neg (not_not.mpr rfl), pure_eq_ok]
    exact ⟨rfl, rfl⟩

theorem span_eq {p : UInt8 → Bool} {s t : Bytes} {b : UInt8} (hs : ∀ c ∈ s, p c = true)
    (hb : p b = false) :
    (s ++ b :: t).takeWhile p = s ∧ (s ++ b :: t).dropWhile p = b :: t := by
  rw [List.takeWhile_append_of_pos hs, List.dropWhile_append_of_pos hs]
  simp [hb]

theorem parseInt_eq_ok {v : Bencode} :
    parseInt data = .ok (v, rest) ↔ ∃ n : Numeral, v = .int n.value ∧ data = n.render ++ rest := by
  simp only [parseInt, bind_eq_ok, consumeByte_eq_ok, get_eq_ok, set_eq_ok]
  constructor
  · rintro ⟨_, _, rfl, _, t, ⟨rfl, rfl⟩, _, _, rfl, b, _, hpeek, h⟩
    obtain ⟨-, rfl⟩ := peekByte_eq_ok.mp hpeek
    split at h
    · exact (fail_bind_eq_ok.mp h).elim
    · next hs =>
      cases hvalue : parseI64 (t.takeWhile fun c => decide (c ≠ ascii 'e')) with
      | none =>
        rw [hvalue] at h
        contradiction
      | some value =>
        rw [hvalue] at h
        simp only [bind_eq_ok, consumeByte_eq_ok, pure_eq_ok] at h
        obtain ⟨_, r, hdrop, rfl, rfl⟩ := h
        refine ⟨⟨_, value, hs, hvalue⟩, rfl, ?_⟩
        have hspan := List.takeWhile_append_dropWhile
          (p := fun c => decide (c ≠ ascii 'e')) (l := t)
        simp only [Numeral.render, List.cons_append, List.append_assoc, List.nil_append]
        rw [← hdrop, hspan]
  · rintro ⟨n, rfl, rfl⟩
    have hdata : n.render ++ rest = ascii 'i' :: (n.digits ++ ascii 'e' :: rest) := by
      simp only [Numeral.render, List.cons_append, List.append_assoc, List.nil_append]
    obtain ⟨htake, hdrop⟩ := span_eq (p := fun c => decide (c ≠ ascii 'e')) (t := rest)
      (fun c hc => decide_eq_true (n.not_end hc)) (decide_eq_false (not_not.mpr rfl))
    refine ⟨(), _, hdata, _, _, ⟨rfl, rfl⟩, ⟨⟩, _, rfl, ascii 'e', ascii 'e' :: rest, ?_, ?_⟩
    · exact peekByte_eq_ok.mpr ⟨by rw [hdrop]; rfl, hdrop.symm⟩
    · rw [htake, n.parses]
      refine (congrFun (if_neg n.accepted) _).trans (bind_eq_ok.mpr ⟨(), rest, ?_, ?_⟩)
      · exact consumeByte_eq_ok.mpr rfl
      · exact pure_eq_ok.mpr ⟨rfl, rfl⟩

theorem parseLen_eq_ok {len : Nat} :
    parseLen data = .ok (len, rest) ↔
      ∃ s, data = s ++ ascii ':' :: rest ∧ parseUsize s = some len := by
  simp only [parseLen, bind_eq_ok, get_eq_ok, set_eq_ok]
  constructor
  · rintro ⟨_, t, ⟨rfl, rfl⟩, _, _, rfl, b, _, hpeek, h⟩
    obtain ⟨-, rfl⟩ := peekByte_eq_ok.mp hpeek
    split at h
    · exact (fail_bind_eq_ok.mp h).elim
    · cases hlen : parseUsize (t.takeWhile isDigit) with
      | none =>
        rw [hlen] at h
        contradiction
      | some n =>
        rw [hlen] at h
        simp only [bind_eq_ok, consumeByte_eq_ok, pure_eq_ok] at h
        obtain ⟨_, r, hdrop, rfl, rfl⟩ := h
        refine ⟨_, ?_, hlen⟩
        rw [← hdrop, List.takeWhile_append_dropWhile]
  · rintro ⟨s, rfl, hlen⟩
    have hdigits := (parseUsize_eq_some.mp hlen).2.1
    obtain ⟨htake, hdrop⟩ := span_eq (p := isDigit) (b := ascii ':') (t := rest)
      (List.all_eq_true.mp hdigits) (by decide)
    refine ⟨_, _, ⟨rfl, rfl⟩, ⟨⟩, _, rfl, ascii ':', ascii ':' :: rest, ?_, ?_⟩
    · exact peekByte_eq_ok.mpr ⟨by rw [hdrop]; rfl, hdrop.symm⟩
    · rw [htake, hlen, if_neg (not_not.mpr rfl)]
      exact bind_eq_ok.mpr ⟨(), rest, consumeByte_eq_ok.mpr rfl, pure_eq_ok.mpr ⟨rfl, rfl⟩⟩

theorem parseByteString_eq_ok {b : Bytes} :
    parseByteString data = .ok (b, rest) ↔ ∃ t : Text, b = t.bytes ∧ data = t.render ++ rest := by
  simp only [parseByteString, bind_eq_ok, parseLen_eq_ok, get_eq_ok]
  constructor
  · rintro ⟨len, _, ⟨s, rfl, hlen⟩, _, r, ⟨rfl, rfl⟩, h⟩
    split at h
    · exact (fail_bind_eq_ok.mp h).elim
    · next hlong =>
      simp only [bind_eq_ok, set_eq_ok, pure_eq_ok] at h
      obtain ⟨_, _, rfl, rfl, rfl⟩ := h
      have htake : (r.take len).length = len := List.length_take_of_le (by omega)
      refine ⟨⟨s, r.take len, by rw [htake, hlen]⟩, rfl, ?_⟩
      simp only [Text.render, List.append_assoc, List.cons_append, List.take_append_drop]
  · rintro ⟨t, rfl, rfl⟩
    refine ⟨t.bytes.length, t.bytes ++ rest, ⟨t.len, ?_, t.parses⟩, _, _, ⟨rfl, rfl⟩, ?_⟩
    · simp only [Text.render, List.append_assoc, List.cons_append]
    · rw [if_neg (by simp)]
      simp only [bind_eq_ok, set_eq_ok, pure_eq_ok]
      exact ⟨⟨⟩, _, rfl, List.take_left, List.drop_left⟩

theorem parseDictKey_eq_ok {b : Bytes} :
    parseDictKey data = .ok (b, rest) ↔ ∃ t : Text, b = t.bytes ∧ data = t.render ++ rest := by
  rw [← parseByteString_eq_ok, parseDictKey]
  cases parseByteString data <;> simp

theorem parse_cases {fuel : Nat} {v : Bencode} (h : parse (fuel + 1) data = .ok (v, rest)) :
    (∃ n : Numeral, v = .int n.value ∧ data = n.render ++ rest) ∨
    (∃ items t, data = ascii 'l' :: t ∧ parseItems fuel t = .ok (items, ascii 'e' :: rest) ∧
      v = .list items) ∨
    (∃ entries t, data = ascii 'd' :: t ∧
      parseEntries fuel [] t = .ok (entries, ascii 'e' :: rest) ∧ v = .dict entries) ∨
    ∃ t : Text, v = .bytes t.bytes ∧ data = t.render ++ rest := by
  simp only [parse, bind_eq_ok] at h
  obtain ⟨b, _, hpeek, h⟩ := h
  obtain ⟨-, rfl⟩ := peekByte_eq_ok.mp hpeek
  split_ifs at h
  · exact .inl (parseInt_eq_ok.mp h)
  · simp only [bind_eq_ok, consumeByte_eq_ok, pure_eq_ok] at h
    obtain ⟨_, t, hdata, items, _, hitems, _, _, rfl, rfl, rfl⟩ := h
    exact .inr (.inl ⟨items, t, hdata, hitems, rfl⟩)
  · simp only [bind_eq_ok, consumeByte_eq_ok, pure_eq_ok] at h
    obtain ⟨_, t, hdata, entries, _, hentries, _, _, rfl, rfl, rfl⟩ := h
    exact .inr (.inr (.inl ⟨entries, t, hdata, hentries, rfl⟩))
  · simp only [parseBytes, bind_eq_ok, parseByteString_eq_ok, pure_eq_ok] at h
    obtain ⟨_, _, ⟨t, rfl, rfl⟩, rfl, rfl⟩ := h
    exact .inr (.inr (.inr ⟨t, rfl, rfl⟩))
  · rw [fail_eq_ok] at h
    contradiction

theorem parseItems_cases {fuel : Nat} {items : List Bencode}
    (h : parseItems (fuel + 1) data = .ok (items, rest)) :
    (items = [] ∧ rest = data) ∨
    ∃ item tail t, parse fuel data = .ok (item, t) ∧ parseItems fuel t = .ok (tail, rest) ∧
      items = item :: tail := by
  simp only [parseItems, bind_eq_ok] at h
  obtain ⟨b, _, hpeek, h⟩ := h
  obtain ⟨-, rfl⟩ := peekByte_eq_ok.mp hpeek
  split_ifs at h
  · rw [pure_eq_ok] at h
    exact .inl ⟨h.1.symm, h.2.symm⟩
  · simp only [bind_eq_ok, pure_eq_ok] at h
    obtain ⟨item, t, hitem, tail, _, htail, rfl, rfl⟩ := h
    exact .inr ⟨item, tail, t, hitem, htail, rfl⟩

theorem parseEntries_cases {fuel : Nat} {found entries : List (Bytes × Bencode)}
    (h : parseEntries (fuel + 1) found data = .ok (entries, rest)) :
    (entries = found ∧ rest = data) ∨
    ∃ (key : Text) (v : Bencode) (t u : Bytes), data = key.render ++ t ∧
      parse fuel t = .ok (v, u) ∧
      parseEntries fuel (dictInsert key.bytes v found) u = .ok (entries, rest) := by
  simp only [parseEntries, bind_eq_ok] at h
  obtain ⟨b, _, hpeek, h⟩ := h
  obtain ⟨-, rfl⟩ := peekByte_eq_ok.mp hpeek
  split_ifs at h
  · rw [pure_eq_ok] at h
    exact .inl ⟨h.1.symm, h.2.symm⟩
  · simp only [bind_eq_ok, parseDictKey_eq_ok] at h
    obtain ⟨_, t, ⟨key, rfl, rfl⟩, v, u, hv, hentries⟩ := h
    exact .inr ⟨key, v, t, u, rfl, hv, hentries⟩

theorem spelled (fuel : Nat) :
    (∀ data v rest, parse fuel data = .ok (v, rest) →
      ∃ s : Spelling, v = s.value ∧ data = s.render ++ rest) ∧
    (∀ data items rest, parseItems fuel data = .ok (items, rest) →
      ∃ ss, items = Spelling.values ss ∧ data = Spelling.renderItems ss ++ rest) ∧
    (∀ data found entries rest, parseEntries fuel found data = .ok (entries, rest) →
      ∃ es, entries = Spelling.collect es found ∧ data = Spelling.renderEntries es ++ rest) := by
  induction fuel with
  | zero =>
    refine ⟨fun data v rest h => ?_, fun data items rest h => ?_,
      fun data found entries rest h => ?_⟩
    · simp only [parse] at h
      contradiction
    · simp only [parseItems] at h
      contradiction
    · simp only [parseEntries] at h
      contradiction
  | succ fuel ih =>
    obtain ⟨ihValue, ihItems, ihEntries⟩ := ih
    refine ⟨fun data v rest h => ?_, fun data items rest h => ?_,
      fun data found entries rest h => ?_⟩
    · rcases parse_cases h with ⟨n, rfl, rfl⟩ | ⟨items, t, rfl, hitems, rfl⟩ |
        ⟨entries, t, rfl, hentries, rfl⟩ | ⟨t, rfl, rfl⟩
      · exact ⟨.int n, by rw [Spelling.value], by rw [Spelling.render]⟩
      · obtain ⟨ss, rfl, rfl⟩ := ihItems _ _ _ hitems
        refine ⟨.list ss, by rw [Spelling.value], ?_⟩
        simp only [Spelling.render, List.cons_append, List.append_assoc, List.nil_append]
      · obtain ⟨es, rfl, rfl⟩ := ihEntries _ _ _ _ hentries
        refine ⟨.dict es, by rw [Spelling.value], ?_⟩
        simp only [Spelling.render, List.cons_append, List.append_assoc, List.nil_append]
      · exact ⟨.bytes t, by rw [Spelling.value], by rw [Spelling.render]⟩
    · rcases parseItems_cases h with ⟨rfl, rfl⟩ | ⟨item, tail, t, hitem, htail, rfl⟩
      · exact ⟨[], by rw [Spelling.values], by rw [Spelling.renderItems, List.nil_append]⟩
      · obtain ⟨s, rfl, rfl⟩ := ihValue _ _ _ hitem
        obtain ⟨ss, rfl, rfl⟩ := ihItems _ _ _ htail
        exact ⟨s :: ss, by rw [Spelling.values], by rw [Spelling.renderItems, List.append_assoc]⟩
    · rcases parseEntries_cases h with ⟨rfl, rfl⟩ | ⟨key, v, t, u, rfl, hv, hentries⟩
      · exact ⟨[], by rw [Spelling.collect], by rw [Spelling.renderEntries, List.nil_append]⟩
      · obtain ⟨s, rfl, rfl⟩ := ihValue _ _ _ hv
        obtain ⟨es, rfl, rfl⟩ := ihEntries _ _ _ _ hentries
        refine ⟨(key, s) :: es, by rw [Spelling.collect], ?_⟩
        rw [Spelling.renderEntries, List.append_assoc, List.append_assoc]

theorem parse_int (fuel : Nat) (n : Numeral) :
    parse (fuel + 1) (n.render ++ rest) = .ok (.int n.value, rest) := by
  simp only [parse]
  refine bind_eq_ok.mpr ⟨ascii 'i', n.render ++ rest, peekByte_eq_ok.mpr ⟨rfl, rfl⟩, ?_⟩
  rw [if_pos rfl, parseInt_eq_ok]
  exact ⟨n, rfl, rfl⟩

theorem parse_bytes (fuel : Nat) (t : Text) :
    parse (fuel + 1) (t.render ++ rest) = .ok (.bytes t.bytes, rest) := by
  obtain ⟨c, r, hc, hdigit⟩ := t.render_cons
  have hother : ∀ d, isDigit d = false → c ≠ d := by
    rintro d hd rfl
    rw [hdigit] at hd
    contradiction
  simp only [parse]
  refine bind_eq_ok.mpr ⟨c, t.render ++ rest, peekByte_eq_ok.mpr ⟨by rw [hc]; rfl, rfl⟩, ?_⟩
  rw [if_neg (hother _ (by decide)), if_neg (hother _ (by decide)),
    if_neg (hother _ (by decide)), if_pos hdigit]
  exact bind_eq_ok.mpr ⟨t.bytes, rest, parseByteString_eq_ok.mpr ⟨t, rfl, rfl⟩,
    pure_eq_ok.mpr ⟨rfl, rfl⟩⟩

theorem parse_list {fuel : Nat} {items : List Bencode}
    (h : parseItems fuel data = .ok (items, ascii 'e' :: rest)) :
    parse (fuel + 1) (ascii 'l' :: data) = .ok (.list items, rest) := by
  simp only [parse]
  refine bind_eq_ok.mpr ⟨ascii 'l', ascii 'l' :: data, peekByte_eq_ok.mpr ⟨rfl, rfl⟩, ?_⟩
  rw [if_neg (by decide), if_pos rfl]
  refine bind_eq_ok.mpr ⟨(), data, consumeByte_eq_ok.mpr rfl, ?_⟩
  refine bind_eq_ok.mpr ⟨items, _, h, ?_⟩
  exact bind_eq_ok.mpr ⟨(), rest, consumeByte_eq_ok.mpr rfl, pure_eq_ok.mpr ⟨rfl, rfl⟩⟩

theorem parse_dict {fuel : Nat} {entries : List (Bytes × Bencode)}
    (h : parseEntries fuel [] data = .ok (entries, ascii 'e' :: rest)) :
    parse (fuel + 1) (ascii 'd' :: data) = .ok (.dict entries, rest) := by
  simp only [parse]
  refine bind_eq_ok.mpr ⟨ascii 'd', ascii 'd' :: data, peekByte_eq_ok.mpr ⟨rfl, rfl⟩, ?_⟩
  rw [if_neg (by decide), if_neg (by decide), if_pos rfl]
  refine bind_eq_ok.mpr ⟨(), data, consumeByte_eq_ok.mpr rfl, ?_⟩
  refine bind_eq_ok.mpr ⟨entries, _, h, ?_⟩
  exact bind_eq_ok.mpr ⟨(), rest, consumeByte_eq_ok.mpr rfl, pure_eq_ok.mpr ⟨rfl, rfl⟩⟩

theorem parseItems_nil (fuel : Nat) :
    parseItems (fuel + 1) (ascii 'e' :: rest) = .ok ([], ascii 'e' :: rest) := by
  simp only [parseItems]
  refine bind_eq_ok.mpr ⟨ascii 'e', _, peekByte_eq_ok.mpr ⟨rfl, rfl⟩, ?_⟩
  rw [if_pos rfl, pure_eq_ok]
  exact ⟨rfl, rfl⟩

theorem parseEntries_nil (fuel : Nat) (found : List (Bytes × Bencode)) :
    parseEntries (fuel + 1) found (ascii 'e' :: rest) = .ok (found, ascii 'e' :: rest) := by
  simp only [parseEntries]
  refine bind_eq_ok.mpr ⟨ascii 'e', _, peekByte_eq_ok.mpr ⟨rfl, rfl⟩, ?_⟩
  rw [if_pos rfl, pure_eq_ok]
  exact ⟨rfl, rfl⟩

theorem parseItems_cons {fuel : Nat} {item : Bencode} {items : List Bencode} {b : UInt8}
    {t u : Bytes} (hb : b ≠ ascii 'e') (hitem : parse fuel (b :: t) = .ok (item, u))
    (hitems : parseItems fuel u = .ok (items, rest)) :
    parseItems (fuel + 1) (b :: t) = .ok (item :: items, rest) := by
  simp only [parseItems]
  refine bind_eq_ok.mpr ⟨b, _, peekByte_eq_ok.mpr ⟨rfl, rfl⟩, ?_⟩
  rw [if_neg hb]
  refine bind_eq_ok.mpr ⟨item, u, hitem, ?_⟩
  exact bind_eq_ok.mpr ⟨items, rest, hitems, pure_eq_ok.mpr ⟨rfl, rfl⟩⟩

theorem parseEntries_cons {fuel : Nat} {found entries : List (Bytes × Bencode)} {key : Text}
    {v : Bencode} {t u : Bytes} (hv : parse fuel t = .ok (v, u))
    (hentries : parseEntries fuel (dictInsert key.bytes v found) u = .ok (entries, rest)) :
    parseEntries (fuel + 1) found (key.render ++ t) = .ok (entries, rest) := by
  obtain ⟨c, r, hc, hdigit⟩ := key.render_cons
  have hend : c ≠ ascii 'e' := by
    rintro rfl
    contradiction
  simp only [parseEntries]
  refine bind_eq_ok.mpr ⟨c, key.render ++ t, peekByte_eq_ok.mpr ⟨by rw [hc]; rfl, rfl⟩, ?_⟩
  rw [if_neg hend]
  refine bind_eq_ok.mpr ⟨key.bytes, t, parseDictKey_eq_ok.mpr ⟨key, rfl, rfl⟩, ?_⟩
  exact bind_eq_ok.mpr ⟨v, u, hv, hentries⟩

end Decoder

namespace Spelling

theorem render_cons (s : Spelling) : ∃ c r, s.render = c :: r ∧ c ≠ ascii 'e' := by
  cases s with
  | int n => exact ⟨ascii 'i', n.digits ++ [ascii 'e'], by rw [render]; rfl, by decide⟩
  | bytes t =>
    obtain ⟨c, r, hc, hdigit⟩ := t.render_cons
    refine ⟨c, r, by rw [render, hc], ?_⟩
    rintro rfl
    contradiction
  | list items => exact ⟨ascii 'l', renderItems items ++ [ascii 'e'], by rw [render]; rfl,
      by decide⟩
  | dict entries =>
    exact ⟨ascii 'd', renderEntries entries ++ [ascii 'e'], by rw [render]; rfl, by decide⟩

mutual

theorem parse_render : ∀ (s : Spelling) (fuel : Nat) (rest : Bytes), s.size ≤ fuel →
    Decoder.parse fuel (s.render ++ rest) = .ok (s.value, rest)
  | .int n, fuel, rest, h => by
    simp only [size] at h
    obtain ⟨fuel, rfl⟩ := Nat.exists_eq_add_of_le' h
    simp only [render, value]
    exact Decoder.parse_int fuel n
  | .bytes t, fuel, rest, h => by
    simp only [size] at h
    obtain ⟨fuel, rfl⟩ := Nat.exists_eq_add_of_le' h
    simp only [render, value]
    exact Decoder.parse_bytes fuel t
  | .list items, fuel, rest, h => by
    simp only [size] at h
    obtain ⟨fuel, rfl⟩ : ∃ k, fuel = k + 1 := ⟨fuel - 1, by omega⟩
    simp only [render, value, List.cons_append, List.append_assoc, List.nil_append]
    exact Decoder.parse_list (parseItems_render items fuel rest (by omega))
  | .dict entries, fuel, rest, h => by
    simp only [size] at h
    obtain ⟨fuel, rfl⟩ : ∃ k, fuel = k + 1 := ⟨fuel - 1, by omega⟩
    simp only [render, value, List.cons_append, List.append_assoc, List.nil_append]
    exact Decoder.parse_dict (parseEntries_render entries fuel [] rest (by omega))

theorem parseItems_render : ∀ (items : List Spelling) (fuel : Nat) (rest : Bytes),
    sizeItems items ≤ fuel →
    Decoder.parseItems fuel (renderItems items ++ ascii 'e' :: rest) =
      .ok (values items, ascii 'e' :: rest)
  | [], fuel, rest, h => by
    simp only [sizeItems] at h
    obtain ⟨fuel, rfl⟩ := Nat.exists_eq_add_of_le' h
    simp only [renderItems, values, List.nil_append]
    exact Decoder.parseItems_nil fuel
  | item :: items, fuel, rest, h => by
    simp only [sizeItems] at h
    obtain ⟨fuel, rfl⟩ : ∃ k, fuel = k + 1 := ⟨fuel - 1, by omega⟩
    obtain ⟨c, r, hc, hend⟩ := render_cons item
    have hitem := parse_render item fuel (renderItems items ++ ascii 'e' :: rest) (by omega)
    have hitems := parseItems_render items fuel rest (by omega)
    simp only [renderItems, values, List.append_assoc]
    rw [hc, List.cons_append] at hitem ⊢
    exact Decoder.parseItems_cons hend hitem hitems

theorem parseEntries_render : ∀ (entries : List (Text × Spelling)) (fuel : Nat)
    (found : List (Bytes × Bencode)) (rest : Bytes), sizeEntries entries ≤ fuel →
    Decoder.parseEntries fuel found (renderEntries entries ++ ascii 'e' :: rest) =
      .ok (collect entries found, ascii 'e' :: rest)
  | [], fuel, found, rest, h => by
    simp only [sizeEntries] at h
    obtain ⟨fuel, rfl⟩ := Nat.exists_eq_add_of_le' h
    simp only [renderEntries, collect, List.nil_append]
    exact Decoder.parseEntries_nil fuel found
  | (key, item) :: entries, fuel, found, rest, h => by
    simp only [sizeEntries] at h
    obtain ⟨fuel, rfl⟩ : ∃ k, fuel = k + 1 := ⟨fuel - 1, by omega⟩
    have hitem := parse_render item fuel (renderEntries entries ++ ascii 'e' :: rest) (by omega)
    have hentries := parseEntries_render entries fuel
      (dictInsert key.bytes (value item) found) rest (by omega)
    simp only [renderEntries, collect, List.append_assoc]
    exact Decoder.parseEntries_cons hitem hentries

end

mutual

theorem size_lt : ∀ s : Spelling, s.size < 2 * s.render.length
  | .int n => by
    simp only [size, render, Numeral.render, List.cons_append, List.length_cons]
    omega
  | .bytes t => by
    simp only [size, render, Text.render, List.length_append, List.length_cons]
    omega
  | .list items => by
    have hitems := sizeItems_le items
    simp only [size, render, List.cons_append, List.length_cons, List.length_append,
      List.length_nil]
    omega
  | .dict entries => by
    have hentries := sizeEntries_le entries
    simp only [size, render, List.cons_append, List.length_cons, List.length_append,
      List.length_nil]
    omega

theorem sizeItems_le : ∀ items : List Spelling,
    sizeItems items ≤ 2 * (renderItems items).length + 1
  | [] => by simp only [sizeItems, renderItems, List.length_nil]; omega
  | item :: items => by
    have hitem := size_lt item
    have hitems := sizeItems_le items
    simp only [sizeItems, renderItems, List.length_append]
    omega

theorem sizeEntries_le : ∀ entries : List (Text × Spelling),
    sizeEntries entries ≤ 2 * (renderEntries entries).length + 1
  | [] => by simp only [sizeEntries, renderEntries, List.length_nil]; omega
  | (key, item) :: entries => by
    have hitem := size_lt item
    have hentries := sizeEntries_le entries
    simp only [sizeEntries, renderEntries, List.length_append]
    omega

end

end Spelling

theorem Numeral.render_inj {n m : Numeral} {r t : Bytes} (h : n.render ++ r = m.render ++ t) :
    n = m ∧ r = t := by
  have hshape : ∀ (k : Numeral) (u : Bytes),
      k.render ++ u = ascii 'i' :: (k.digits ++ ascii 'e' :: u) := by
    intro k u
    simp only [render, List.cons_append, List.append_assoc, List.nil_append]
  rw [hshape, hshape, List.cons.injEq] at h
  have hspan : ∀ (k : Numeral) (u : Bytes), _ := fun k u =>
    Decoder.span_eq (p := fun c => decide (c ≠ ascii 'e')) (t := u)
      (fun c hc => decide_eq_true (k.not_end hc)) (decide_eq_false (not_not.mpr rfl))
  have hdigits : n.digits = m.digits := by rw [← (hspan n r).1, h.2, (hspan m t).1]
  have hvalue : n.value = m.value := by
    have hparses := n.parses
    rw [hdigits, m.parses, Option.some.injEq] at hparses
    exact hparses.symm
  rw [hdigits, List.append_cancel_left_eq, List.cons.injEq] at h
  refine ⟨?_, h.2.2⟩
  cases n
  cases m
  simp only at hdigits hvalue
  subst hdigits
  subst hvalue
  rfl

theorem Text.render_inj {a b : Text} {r t : Bytes} (h : a.render ++ r = b.render ++ t) :
    a = b ∧ r = t := by
  simp only [render, List.append_assoc, List.cons_append] at h
  have hspan : ∀ (k : Text) (u : Bytes), _ := fun k u =>
    Decoder.span_eq (p := isDigit) (b := ascii ':') (t := u) (fun c hc => k.digits hc) (by decide)
  have hlen : a.len = b.len := by rw [← (hspan a (a.bytes ++ r)).1, h, (hspan b (b.bytes ++ t)).1]
  have hlength : a.bytes.length = b.bytes.length := by
    have hparses := a.parses
    rw [hlen, b.parses, Option.some.injEq] at hparses
    exact hparses.symm
  rw [hlen, List.append_cancel_left_eq, List.cons.injEq] at h
  obtain ⟨hbytes, hrest⟩ := List.append_inj h.2 hlength
  refine ⟨?_, hrest⟩
  cases a
  cases b
  simp only at hlen hbytes
  subst hlen
  subst hbytes
  rfl

namespace Spelling

def Leads (s : Spelling) (c : UInt8) : Prop :=
  match s with
  | .int _ => c = ascii 'i'
  | .bytes _ => isDigit c = true
  | .list _ => c = ascii 'l'
  | .dict _ => c = ascii 'd'

theorem leads (s : Spelling) : ∃ c r, s.render = c :: r ∧ s.Leads c := by
  cases s with
  | int n => exact ⟨ascii 'i', n.digits ++ [ascii 'e'], by rw [render]; rfl, rfl⟩
  | bytes t =>
    obtain ⟨c, r, hc, hdigit⟩ := t.render_cons
    exact ⟨c, r, by rw [render, hc], hdigit⟩
  | list items => exact ⟨ascii 'l', renderItems items ++ [ascii 'e'], by rw [render]; rfl, rfl⟩
  | dict entries => exact ⟨ascii 'd', renderEntries entries ++ [ascii 'e'], by rw [render]; rfl,
      rfl⟩

theorem leads_same {a b : Spelling} {r t : Bytes} (h : a.render ++ r = b.render ++ t) :
    ∃ c, a.Leads c ∧ b.Leads c := by
  obtain ⟨c, u, hc, hlead⟩ := a.leads
  obtain ⟨d, v, hd, hlead'⟩ := b.leads
  rw [hc, hd, List.cons_append, List.cons_append, List.cons.injEq] at h
  exact ⟨c, hlead, h.1 ▸ hlead'⟩

mutual

theorem render_inj : ∀ (a b : Spelling) (r t : Bytes), a.render ++ r = b.render ++ t →
    a = b ∧ r = t
  | .int n, b, r, t, h => by
    obtain ⟨c, hc, hlead⟩ := leads_same h
    simp only [Leads] at hc
    subst hc
    cases b with
    | int m =>
      simp only [render] at h
      obtain ⟨rfl, hrest⟩ := Numeral.render_inj h
      exact ⟨rfl, hrest⟩
    | _ => exact absurd hlead (by simp only [Leads]; decide)
  | .bytes a, b, r, t, h => by
    obtain ⟨c, hc, hlead⟩ := leads_same h
    simp only [Leads] at hc
    cases b with
    | bytes b =>
      simp only [render] at h
      obtain ⟨rfl, hrest⟩ := Text.render_inj h
      exact ⟨rfl, hrest⟩
    | _ =>
      simp only [Leads] at hlead
      subst hlead
      contradiction
  | .list items, b, r, t, h => by
    obtain ⟨c, hc, hlead⟩ := leads_same h
    simp only [Leads] at hc
    subst hc
    cases b with
    | list items' =>
      simp only [render, List.cons_append, List.append_assoc, List.nil_append, List.cons.injEq,
        true_and] at h
      obtain ⟨rfl, hrest⟩ := renderItems_inj items items' r t h
      exact ⟨rfl, hrest⟩
    | _ => exact absurd hlead (by simp only [Leads]; decide)
  | .dict entries, b, r, t, h => by
    obtain ⟨c, hc, hlead⟩ := leads_same h
    simp only [Leads] at hc
    subst hc
    cases b with
    | dict entries' =>
      simp only [render, List.cons_append, List.append_assoc, List.nil_append, List.cons.injEq,
        true_and] at h
      obtain ⟨rfl, hrest⟩ := renderEntries_inj entries entries' r t h
      exact ⟨rfl, hrest⟩
    | _ => exact absurd hlead (by simp only [Leads]; decide)

theorem renderItems_inj : ∀ (a b : List Spelling) (r t : Bytes),
    renderItems a ++ ascii 'e' :: r = renderItems b ++ ascii 'e' :: t → a = b ∧ r = t
  | [], b, r, t, h => by
    cases b with
    | nil =>
      simp only [renderItems, List.nil_append, List.cons.injEq, true_and] at h
      exact ⟨rfl, h⟩
    | cons item b =>
      obtain ⟨c, u, hc, hend⟩ := item.render_cons
      simp only [renderItems, List.nil_append, hc, List.cons_append, List.cons.injEq] at h
      exact absurd h.1.symm hend
  | item :: a, b, r, t, h => by
    cases b with
    | nil =>
      obtain ⟨c, u, hc, hend⟩ := item.render_cons
      simp only [renderItems, List.nil_append, hc, List.cons_append, List.cons.injEq] at h
      exact absurd h.1 hend
    | cons item' b =>
      simp only [renderItems, List.append_assoc] at h
      obtain ⟨rfl, htail⟩ := render_inj item item' _ _ h
      obtain ⟨rfl, hrest⟩ := renderItems_inj a b r t htail
      exact ⟨rfl, hrest⟩

theorem renderEntries_inj : ∀ (a b : List (Text × Spelling)) (r t : Bytes),
    renderEntries a ++ ascii 'e' :: r = renderEntries b ++ ascii 'e' :: t → a = b ∧ r = t
  | [], b, r, t, h => by
    cases b with
    | nil =>
      simp only [renderEntries, List.nil_append, List.cons.injEq, true_and] at h
      exact ⟨rfl, h⟩
    | cons entry b =>
      obtain ⟨key, item⟩ := entry
      obtain ⟨c, u, hc, hdigit⟩ := key.render_cons
      simp only [renderEntries, List.nil_append, hc, List.cons_append, List.cons.injEq] at h
      rw [← h.1] at hdigit
      contradiction
  | (key, item) :: a, b, r, t, h => by
    cases b with
    | nil =>
      obtain ⟨c, u, hc, hdigit⟩ := key.render_cons
      simp only [renderEntries, List.nil_append, hc, List.cons_append, List.cons.injEq] at h
      rw [h.1] at hdigit
      contradiction
    | cons entry b =>
      obtain ⟨key', item'⟩ := entry
      simp only [renderEntries, List.append_assoc] at h
      obtain ⟨rfl, hitem⟩ := Text.render_inj h
      obtain ⟨rfl, htail⟩ := render_inj item item' _ _ hitem
      obtain ⟨rfl, hrest⟩ := renderEntries_inj a b r t htail
      exact ⟨rfl, hrest⟩

end

end Spelling

end Bencode

end Tortue
