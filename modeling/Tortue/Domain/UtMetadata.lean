import Tortue.Domain.Parsing
import Tortue.Domain.Wire

namespace Tortue

open Collections

namespace Message

theorem liftBencode_eq_ok {α : Type} {x : Except Bencode.Error α} {a : α} :
    liftBencode x = .ok a ↔ x = .ok a := by
  cases x <;> simp [liftBencode]

theorem decode_extension {extId : UInt8} (h : extId ≠ 0) (payload : Bytes) (o : IterOrder) :
    decode ((Message.extension extId payload).encode o) = .ok (.extension extId payload) := by
  have hdecode : decode (20 :: extId :: payload) = decodeExtended (extId :: payload) := rfl
  rw [encode, hdecode, decodeExtended, if_neg h]

end Message

namespace UtMetadataMessage

theorem asUsize_asI64 {n : Nat} (h : n < 2 ^ 64) : asUsize (asI64 n) = n := by
  rw [asUsize, asI64, UInt64.toUInt64_toInt64, UInt64.toNat_ofNat_of_lt' h]

theorem fields_wellFormed (entries : List (String × Int64))
    (h : ∀ e ∈ entries, (ByteStr e.1).length < 2 ^ 64) : (fields entries).WellFormed := by
  have hfold : ∀ found : List (Bytes × Bencode), Bencode.WellFormedEntries found →
      Bencode.WellFormedEntries (entries.foldl (fun dict e =>
        Bencode.dictInsert (ByteStr e.1) (.int e.2) dict) found) := by
    induction entries with
    | nil => exact fun found hfound => hfound
    | cons e entries ih =>
      intro found hfound
      refine ih (fun e he => h e (List.mem_cons_of_mem _ he)) _ ?_
      refine Bencode.dictInsert_wellFormed (h e (List.mem_cons_self ..)) ?_ hfound
      simp only [Bencode.WellFormed]
  rw [fields, Bencode.WellFormed]
  exact hfold [] (by simp only [Bencode.WellFormedEntries])

theorem getInt_fields {entries : List (String × Int64)} {key : String} {n : Int64}
    (h : (entries.reverse.find? fun e => ByteStr e.1 = ByteStr key).map Prod.snd = some n) :
    (fields entries).getInt key = .ok n := by
  refine Bencode.getInt_eq_ok.mpr (Bencode.get_eq_ok.mpr ⟨_, rfl, ?_⟩)
  induction entries using List.reverseRecOn with
  | nil => contradiction
  | append_singleton entries e ih =>
    rw [List.reverse_append, List.reverse_singleton, List.singleton_append, List.find?_cons] at h
    rw [List.foldl_append, List.foldl_cons, List.foldl_nil, Bencode.dictGet_insert]
    split_ifs with he
    · simp only [he, decide_true, Option.map_some, Option.some.injEq] at h
      rw [h]
    · simp only [he, decide_false] at h
      exact ih h

theorem decode_request {piece : Nat} (h : piece < 2 ^ 64) :
    decode (request piece).encode = .ok (.request piece) := by
  have hread := Bencode.decodeWithRest_encode (fields_wellFormed
    [("msg_type", 0), ("piece", asI64 piece)] (by simp +decide)) []
  rw [List.append_nil] at hread
  rw [decode, encode, hread]
  simp only [Except.bind_eq_ok, Message.liftBencode_eq_ok]
  refine ⟨_, rfl, 0, getInt_fields (by simp +decide), asI64 piece, ?_, ?_⟩
  · exact getInt_fields (by simp +decide)
  · rw [if_pos rfl, asUsize_asI64 h]
    rfl

theorem decode_reject {piece : Nat} (h : piece < 2 ^ 64) :
    decode (reject piece).encode = .ok (.reject piece) := by
  have hread := Bencode.decodeWithRest_encode (fields_wellFormed
    [("msg_type", 2), ("piece", asI64 piece)] (by simp +decide)) []
  rw [List.append_nil] at hread
  rw [decode, encode, hread]
  simp only [Except.bind_eq_ok, Message.liftBencode_eq_ok]
  refine ⟨_, rfl, 2, getInt_fields (by simp +decide), asI64 piece, ?_, ?_⟩
  · exact getInt_fields (by simp +decide)
  · rw [if_neg (by decide), if_neg (by decide), if_pos rfl, asUsize_asI64 h]
    rfl

theorem decode_data {piece totalSize : Nat} (block : Bytes) (hpiece : piece < 2 ^ 64)
    (hsize : totalSize < 2 ^ 64) :
    decode (data piece totalSize block).encode = .ok (.data piece totalSize block) := by
  have hread := Bencode.decodeWithRest_encode (fields_wellFormed
    [("msg_type", 1), ("piece", asI64 piece), ("total_size", asI64 totalSize)]
    (by simp +decide)) block
  rw [decode, encode, hread]
  simp only [Except.bind_eq_ok, Message.liftBencode_eq_ok]
  refine ⟨_, rfl, 1, getInt_fields (by simp +decide), asI64 piece, ?_, ?_⟩
  · exact getInt_fields (by simp +decide)
  · rw [if_neg (by decide), if_pos rfl]
    simp only [Except.bind_eq_ok, Message.liftBencode_eq_ok]
    refine ⟨asI64 totalSize, getInt_fields (by simp +decide), ?_⟩
    rw [asUsize_asI64 hpiece, asUsize_asI64 hsize]
    rfl

-- The counters are `usize`.
def Sized : UtMetadataMessage → Prop
  | .request piece | .reject piece => piece < 2 ^ 64
  | .data piece totalSize _ => piece < 2 ^ 64 ∧ totalSize < 2 ^ 64
  | .unimplemented => True

theorem asUsize_lt (n : Int64) : asUsize n < 2 ^ 64 := n.toUInt64.toNat_lt

theorem decoded_sized {payload : Bytes} {m : UtMetadataMessage} (h : decode payload = .ok m) :
    m.Sized := by
  simp only [decode, Except.bind_eq_ok] at h
  obtain ⟨⟨dict, rest⟩, -, msgType, -, piece, -, h⟩ := h
  split_ifs at h
  · rw [← Except.ok.inj h]
    exact asUsize_lt piece
  · obtain ⟨totalSize, -, hm⟩ := Except.bind_eq_ok.mp h
    rw [← Except.ok.inj hm]
    exact ⟨asUsize_lt piece, asUsize_lt totalSize⟩
  · rw [← Except.ok.inj h]
    exact asUsize_lt piece
  · rw [← Except.ok.inj h]
    trivial

end UtMetadataMessage

end Tortue
