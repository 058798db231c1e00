import Tortue.Domain.Canonical

namespace Tortue

namespace Bencode

namespace Decoder

variable {α β : Type} {data rest : Bytes} {fuel : Nat}

def Halts (x : Decoder α) (data : Bytes) : Prop := x data ≠ .error .outOfFuel

def Extends (x x' : Decoder α) (data : Bytes) : Prop := Halts x data → x' data = x data

theorem bind_of_error {x : Decoder α} {f : α → Decoder β} {e : Fault} (h : x data = .error e) :
    (x >>= f) data = .error e := by
  simp only [bind, StateT.bind, Except.bind, h]

theorem bind_of_ok {x : Decoder α} {f : α → Decoder β} {a : α} (h : x data = .ok (a, rest)) :
    (x >>= f) data = f a rest := by
  simp only [bind, StateT.bind, Except.bind, h]

theorem halts_bind {x : Decoder α} {f : α → Decoder β} (hx : Halts x data)
    (hf : ∀ a rest, x data = .ok (a, rest) → Halts (f a) rest) : Halts (x >>= f) data := by
  intro hout
  cases hres : x data with
  | error e =>
    rw [bind_of_error hres, Except.error.injEq] at hout
    exact hx (hres.trans (congrArg Except.error hout))
  | ok r =>
    rw [bind_of_ok hres] at hout
    exact hf r.1 r.2 hres hout

theorem extends_bind {x x' : Decoder α} {f f' : α → Decoder β} (hx : Extends x x' data)
    (hf : ∀ a rest, x data = .ok (a, rest) → Extends (f a) (f' a) rest) :
    Extends (x >>= f) (x' >>= f') data := by
  intro hhalts
  cases hres : x data with
  | error e =>
    have hhalts' : Halts x data := fun hout => hhalts (bind_of_error hout)
    rw [bind_of_error hres, bind_of_error ((hx hhalts').trans hres)]
  | ok r =>
    have hhalts' : Halts x data := fun hout => by
      rw [hres] at hout
      contradiction
    rw [Halts, bind_of_ok hres] at hhalts
    rw [bind_of_ok hres, bind_of_ok ((hx hhalts').trans hres)]
    exact hf r.1 r.2 hres hhalts

theorem extends_refl (x : Decoder α) (data : Bytes) : Extends x x data := fun _ => rfl

theorem halts_pure (a : α) (data : Bytes) : Halts (pure a) data := fun h => by contradiction

theorem halts_fail (e : Error) (data : Bytes) : Halts (fail e : Decoder α) data := by
  simp [Halts, fail, throw, throwThe, MonadExceptOf.throw, StateT.lift, bind, Except.bind]

theorem halts_fail_bind (e : Error) (f : α → Decoder β) (data : Bytes) :
    Halts (fail e >>= f) data :=
  halts_bind (halts_fail e data) fun _ _ h => by simp [fail_eq_ok] at h

theorem halts_get (data : Bytes) : Halts (MonadState.get : Decoder Bytes) data :=
  fun h => by contradiction

theorem halts_set (s data : Bytes) : Halts (set s : Decoder PUnit) data := fun h => by contradiction

theorem halts_peekByte (data : Bytes) : Halts peekByte data := by
  cases data <;> exact fun h => by contradiction

theorem halts_nextByte (data : Bytes) : Halts nextByte data := by
  cases data <;> exact fun h => by contradiction

theorem halts_consumeByte (b : UInt8) (data : Bytes) : Halts (consumeByte b) data := by
  refine halts_bind (halts_nextByte data) fun c rest _ => ?_
  split
  · exact halts_fail _ rest
  · exact halts_pure _ rest

theorem halts_parseInt (data : Bytes) : Halts parseInt data := by
  refine halts_bind (halts_consumeByte _ data) fun _ t _ => halts_bind (halts_get t) fun s u _ => ?_
  refine halts_bind (halts_set _ u) fun _ v _ => halts_bind (halts_peekByte v) fun _ w _ => ?_
  dsimp only
  split
  · exact halts_fail_bind _ _ w
  · split
    · exact halts_fail _ w
    · exact halts_bind (halts_consumeByte _ w) fun _ _ _ => halts_pure _ _

theorem halts_parseLen (data : Bytes) : Halts parseLen data := by
  refine halts_bind (halts_get data) fun s t _ => halts_bind (halts_set _ t) fun _ u _ => ?_
  refine halts_bind (halts_peekByte u) fun _ v _ => ?_
  dsimp only
  split
  · exact halts_fail_bind _ _ v
  · split
    · exact halts_fail _ v
    · exact halts_bind (halts_consumeByte _ v) fun _ _ _ => halts_pure _ _

theorem halts_parseByteString (data : Bytes) : Halts parseByteString data := by
  refine halts_bind (halts_parseLen data) fun len t _ => halts_bind (halts_get t) fun s u _ => ?_
  split
  · exact halts_fail_bind _ _ u
  · exact halts_bind (halts_set _ u) fun _ _ _ => halts_pure _ _

theorem halts_parseDictKey (data : Bytes) : Halts parseDictKey data := by
  rw [Halts, parseDictKey]
  cases parseByteString data <;> simp

theorem parse_consumes {v : Bencode} (h : parse fuel data = .ok (v, rest)) :
    ∃ consumed, consumed ≠ [] ∧ data = consumed ++ rest := by
  obtain ⟨s, -, hdata⟩ := (spelled fuel).1 data v rest h
  obtain ⟨c, r, hc, -⟩ := s.render_cons
  exact ⟨s.render, by simp [hc], hdata⟩

theorem parseDictKey_consumes {key : Bytes} (h : parseDictKey data = .ok (key, rest)) :
    ∃ consumed, consumed ≠ [] ∧ data = consumed ++ rest := by
  obtain ⟨t, -, hdata⟩ := parseDictKey_eq_ok.mp h
  obtain ⟨c, r, hc, -⟩ := t.render_cons
  exact ⟨t.render, by simp [hc], hdata⟩

theorem shorter_of_consumes (h : ∃ consumed, consumed ≠ [] ∧ data = consumed ++ rest) :
    rest.length < data.length := by
  obtain ⟨consumed, hne, rfl⟩ := h
  have hpos := List.length_pos_iff.mpr hne
  rw [List.length_append]
  omega

theorem halts_parse (fuel : Nat) :
    (∀ data, 2 * data.length + 1 ≤ fuel → Halts (parse fuel) data) ∧
    (∀ data, 2 * data.length + 2 ≤ fuel → Halts (parseItems fuel) data) ∧
    ∀ data found, 2 * data.length + 2 ≤ fuel → Halts (parseEntries fuel found) data := by
  induction fuel with
  | zero => simp
  | succ fuel ih =>
    obtain ⟨ihValue, ihItems, ihEntries⟩ := ih
    refine ⟨fun data hfuel => ?_, fun data hfuel => ?_, fun data found hfuel => ?_⟩
    · rw [parse]
      refine halts_bind (halts_peekByte data) fun b t hpeek => ?_
      obtain ⟨-, rfl⟩ := peekByte_eq_ok.mp hpeek
      split_ifs
      · exact halts_parseInt t
      · refine halts_bind (halts_consumeByte _ t) fun _ u hu => ?_
        rw [consumeByte_eq_ok.mp hu, List.length_cons] at hfuel
        refine halts_bind (ihItems u (by omega)) fun _ w _ => ?_
        exact halts_bind (halts_consumeByte _ w) fun _ _ _ => halts_pure _ _
      · refine halts_bind (halts_consumeByte _ t) fun _ u hu => ?_
        rw [consumeByte_eq_ok.mp hu, List.length_cons] at hfuel
        refine halts_bind (ihEntries u [] (by omega)) fun _ w _ => ?_
        exact halts_bind (halts_consumeByte _ w) fun _ _ _ => halts_pure _ _
      · exact halts_bind (halts_parseByteString t) fun _ _ _ => halts_pure _ _
      · exact halts_fail _ t
    · rw [parseItems]
      refine halts_bind (halts_peekByte data) fun b t hpeek => ?_
      obtain ⟨-, rfl⟩ := peekByte_eq_ok.mp hpeek
      split_ifs
      · exact halts_pure _ t
      · refine halts_bind (ihValue t (by omega)) fun _ u hu => ?_
        have hlt := shorter_of_consumes (parse_consumes hu)
        exact halts_bind (ihItems u (by omega)) fun _ _ _ => halts_pure _ _
    · rw [parseEntries]
      refine halts_bind (halts_peekByte data) fun b t hpeek => ?_
      obtain ⟨-, rfl⟩ := peekByte_eq_ok.mp hpeek
      split_ifs
      · exact halts_pure _ t
      · refine halts_bind (halts_parseDictKey t) fun _ u hu => ?_
        have hkey := shorter_of_consumes (parseDictKey_consumes hu)
        refine halts_bind (ihValue u (by omega)) fun _ w hw => ?_
        have hvalue := shorter_of_consumes (parse_consumes hw)
        exact ihEntries w _ (by omega)

theorem extends_succ (fuel : Nat) :
    (∀ data, Extends (parse fuel) (parse (fuel + 1)) data) ∧
    (∀ data, Extends (parseItems fuel) (parseItems (fuel + 1)) data) ∧
    ∀ data found, Extends (parseEntries fuel found) (parseEntries (fuel + 1) found) data := by
  induction fuel with
  | zero =>
    refine ⟨fun data h => ?_, fun data h => ?_, fun data found h => ?_⟩
    · exact absurd (by rw [parse]; rfl) h
    · exact absurd (by rw [parseItems]; rfl) h
    · exact absurd (by rw [parseEntries]; rfl) h
  | succ fuel ih =>
    obtain ⟨ihValue, ihItems, ihEntries⟩ := ih
    refine ⟨fun data => ?_, fun data => ?_, fun data found => ?_⟩
    · rw [parse, parse]
      refine extends_bind (extends_refl peekByte data) fun b t _ => ?_
      split_ifs
      · exact extends_refl parseInt t
      · refine extends_bind (extends_refl _ t) fun _ u _ => ?_
        exact extends_bind (ihItems u) fun _ w _ => extends_refl _ w
      · refine extends_bind (extends_refl _ t) fun _ u _ => ?_
        exact extends_bind (ihEntries u []) fun _ w _ => extends_refl _ w
      · exact extends_refl _ t
      · exact extends_refl _ t
    · rw [parseItems, parseItems]
      refine extends_bind (extends_refl peekByte data) fun b t _ => ?_
      split_ifs
      · exact extends_refl _ t
      · refine extends_bind (ihValue t) fun _ u _ => ?_
        exact extends_bind (ihItems u) fun _ w _ => extends_refl _ w
    · rw [parseEntries, parseEntries]
      refine extends_bind (extends_refl peekByte data) fun b t _ => ?_
      split_ifs
      · exact extends_refl _ t
      · refine extends_bind (extends_refl _ t) fun _ u _ => ?_
        exact extends_bind (ihValue u) fun _ w _ => ihEntries w _

theorem parse_add {data : Bytes} (h : Halts (parse fuel) data) (k : Nat) :
    parse (fuel + k) data = parse fuel data := by
  induction k with
  | zero => rfl
  | succ k ih =>
    have hhalts : Halts (parse (fuel + k)) data := fun hout => h (ih.symm.trans hout)
    exact ((extends_succ (fuel + k)).1 data hhalts).trans ih

end Decoder

end Bencode

end Tortue
