import Tortue.Domain.UtMetadata

namespace Tortue

open Collections

theorem fromUtf8_utf8Bytes (s : String) : fromUtf8 (utf8Bytes s) = some s := by
  have hbytes : (⟨(utf8Bytes s).toArray⟩ : ByteArray) = s.toByteArray := by simp [utf8Bytes]
  rw [fromUtf8, hbytes, String.fromUTF8?, dif_pos s.isValidUTF8]
  rfl

theorem utf8Bytes_injective {s t : String} (h : utf8Bytes s = utf8Bytes t) : s = t := by
  have hdecoded := congrArg fromUtf8 h
  rwa [fromUtf8_utf8Bytes, fromUtf8_utf8Bytes, Option.some.injEq] at hdecoded

theorem readU32_u32Bytes {n : Nat} (h : n < 2 ^ 32) (pre post : Bytes) :
    readU32 (pre ++ (u32Bytes n ++ post)) pre.length = n := by
  have htake : ((pre ++ (u32Bytes n ++ post)).drop pre.length).take 4 = u32Bytes n := by
    rw [List.drop_left]
    exact List.take_left' rfl
  rw [readU32, htake]
  simp only [u32Bytes, List.foldl_cons, List.foldl_nil, Nat.toUInt8, UInt8.toNat_ofNat']
  omega

theorem length_u32Bytes (n : Nat) : (u32Bytes n).length = 4 := rfl

theorem get_foldl_insert {κ β : Type} [DecidableEq κ] (l : List (κ × β)) (m : HashMap κ β)
    (h : ∀ d ∈ l, ∀ e ∈ l, d.1 = e.1 → d = e) (k : κ) (v : β) :
    (l.foldl (fun m e => m.insert e.1 e.2) m).get k = some v ↔
      (k, v) ∈ l ∨ (k ∉ l.map Prod.fst ∧ m.get k = some v) := by
  induction l generalizing m with
  | nil => simp
  | cons e l ih =>
    rw [List.foldl_cons, ih _ fun d hd f hf => h d (List.mem_cons_of_mem _ hd) f
      (List.mem_cons_of_mem _ hf), HashMap.get_insert, List.map_cons, List.mem_cons, List.mem_cons,
      not_or]
    by_cases hk : k = e.1
    · subst hk
      simp only [if_true, Option.some.injEq, not_true_eq_false, false_and, or_false]
      constructor
      · rintro (hin | ⟨-, rfl⟩)
        · exact .inr hin
        · exact .inl rfl
      · rintro (hnow | hin)
        · by_cases hlater : e.1 ∈ l.map Prod.fst
          · obtain ⟨d, hd, hde⟩ := List.mem_map.mp hlater
            have hsame := h d (List.mem_cons_of_mem _ hd) e (List.mem_cons_self ..) hde
            rw [hnow, ← hsame]
            exact .inl hd
          · exact .inr ⟨hlater, congrArg Prod.snd hnow.symm⟩
        · exact .inl hin
    · have hne : (k, v) ≠ e := fun heq => hk (congrArg Prod.fst heq)
      simp [hk, hne]

namespace Bencode

theorem length_encodeBytes_ge (b : Bytes) : b.length ≤ (encodeBytes b).length := by
  rw [encodeBytes, List.length_append, List.length_cons]
  omega

theorem length_entry_le {entries : List (Bytes × Bencode)} {e : Bytes × Bencode}
    (h : e ∈ entries) : e.1.length ≤ (encodeEntries entries).length ∧
      e.2.encode.length ≤ (encodeEntries entries).length := by
  induction entries with
  | nil => contradiction
  | cons d entries ih =>
    obtain ⟨k, w⟩ := d
    have hkey := length_encodeBytes_ge k
    simp only [encodeEntries, List.length_append]
    rcases List.mem_cons.mp h with rfl | h
    · constructor <;> simp only <;> omega
    · have hrest := ih h
      omega

theorem dictGet_mem {key : Bytes} {v : Bencode} {entries : List (Bytes × Bencode)}
    (h : dictGet key entries = some v) : (key, v) ∈ entries := by
  obtain ⟨e, he, rfl⟩ := Option.map_eq_some_iff.mp h
  have hkey : e.1 = key := by simpa using List.find?_some he
  exact hkey ▸ List.mem_of_find?_eq_some he

end Bencode

namespace ExtensionHandshake

variable {o : IterOrder} {extensions : HashMap String UInt8}

def extensionEntry (e : String × UInt8) : Bytes × Bencode :=
  (utf8Bytes e.1, .int (Int64.ofNat e.2.toNat))

theorem insert_entries_mem {l : List (String × UInt8)} {found : List (Bytes × Bencode)}
    {e : Bytes × Bencode} (h : e ∈ l.foldl (fun m e =>
      Bencode.dictInsert (extensionEntry e).1 (extensionEntry e).2 m) found) :
    e ∈ l.map extensionEntry ∨ e ∈ found := by
  induction l generalizing found with
  | nil => exact .inr h
  | cons d l ih =>
    rcases ih h with hl | hfound
    · exact .inl (List.mem_cons_of_mem _ hl)
    · rcases Bencode.mem_dictInsert hfound with rfl | hold
      · exact .inl (List.mem_cons_self ..)
      · exact .inr hold

theorem insert_entries_get {l : List (String × UInt8)} (hnodup : (l.map Prod.fst).Nodup)
    {e : String × UInt8} (he : e ∈ l) (found : List (Bytes × Bencode)) :
    Bencode.dictGet (extensionEntry e).1 (l.foldl (fun m e =>
      Bencode.dictInsert (extensionEntry e).1 (extensionEntry e).2 m) found) =
        some (extensionEntry e).2 := by
  have hkept : ∀ l : List (String × UInt8), e.1 ∉ l.map Prod.fst → ∀ found,
      Bencode.dictGet (extensionEntry e).1 (l.foldl (fun m e =>
        Bencode.dictInsert (extensionEntry e).1 (extensionEntry e).2 m) found) =
          Bencode.dictGet (extensionEntry e).1 found := by
    intro l hl
    induction l with
    | nil => exact fun _ => rfl
    | cons d l ih =>
      intro found
      rw [List.map_cons, List.mem_cons, not_or] at hl
      rw [List.foldl_cons, ih hl.2, Bencode.dictGet_insert, if_neg]
      exact fun heq => hl.1 (utf8Bytes_injective heq).symm
  induction l generalizing found with
  | nil => contradiction
  | cons d l ih =>
    obtain ⟨hd, hnodup⟩ := List.nodup_cons.mp hnodup
    rw [List.foldl_cons]
    rcases List.mem_cons.mp he with rfl | he
    · rw [hkept l hd, Bencode.dictGet_insert, if_pos rfl]
    · exact ih hnodup he _

theorem mem_extensionEntries {e : Bytes × Bencode} : e ∈ extensionEntries o extensions ↔
    ∃ name id, extensions.get name = some id ∧ e = extensionEntry (name, id) := by
  have hperm := o.perm extensions.entries
  constructor
  · intro h
    rcases insert_entries_mem h with h | h
    · obtain ⟨⟨name, id⟩, hin, rfl⟩ := List.mem_map.mp h
      exact ⟨name, id, HashMap.mem_entries_iff.mp (hperm.mem_iff.mp hin), rfl⟩
    · contradiction
  · rintro ⟨name, id, hget, rfl⟩
    have hnodup : ((o.arrange extensions.entries).map Prod.fst).Nodup :=
      (hperm.map Prod.fst).nodup_iff.mpr extensions.nodup
    exact Bencode.dictGet_mem (insert_entries_get hnodup
      (hperm.mem_iff.mpr (HashMap.mem_entries_iff.mpr hget)) [])

theorem extensionEntries_wellFormed
    (h : ∀ name id, extensions.get name = some id → (utf8Bytes name).length < 2 ^ 64) :
    Bencode.WellFormedEntries (extensionEntries o extensions) := by
  have hfold : ∀ l : List (String × UInt8), (∀ e ∈ l, (utf8Bytes e.1).length < 2 ^ 64) →
      ∀ found, Bencode.WellFormedEntries found → Bencode.WellFormedEntries (l.foldl (fun m e =>
        Bencode.dictInsert (extensionEntry e).1 (extensionEntry e).2 m) found) := by
    intro l hl
    induction l with
    | nil => exact fun _ hfound => hfound
    | cons e l ih =>
      intro found hfound
      refine ih (fun e he => hl e (List.mem_cons_of_mem _ he)) _ ?_
      refine Bencode.dictInsert_wellFormed (hl e (List.mem_cons_self ..)) ?_ hfound
      simp only [extensionEntry, Bencode.WellFormed]
  refine hfold _ (fun e he => ?_) [] (by simp only [Bencode.WellFormedEntries])
  exact h e.1 e.2 (HashMap.mem_entries_iff.mp ((o.perm extensions.entries).mem_iff.mp he))

theorem readExtension_entry {e : String × UInt8} : readExtension (extensionEntry e) = some e := by
  have hlt : e.2.toNat < 256 := e.2.toNat_lt
  have hint : (Int64.ofNat e.2.toNat).toInt = e.2.toNat := Int64.toInt_ofNat_of_lt (by omega)
  simp only [readExtension, extensionEntry, fromUtf8_utf8Bytes, Option.bind_eq_bind,
    Option.bind_some, hint, Int.toNat_natCast]
  rw [if_pos ⟨by omega, by omega⟩]
  simp

theorem readExtensions_get {payload : Bencode} {name : String} {id : UInt8}
    (h : payload.get "m" = .ok (.dict (extensionEntries o extensions))) :
    (readExtensions payload).get name = some id ↔ extensions.get name = some id := by
  have hmem : ∀ e : String × UInt8,
      e ∈ (extensionEntries o extensions).filterMap readExtension ↔
        extensions.get e.1 = some e.2 := by
    intro e
    rw [List.mem_filterMap]
    constructor
    · rintro ⟨d, hd, hread⟩
      obtain ⟨name, id, hget, rfl⟩ := mem_extensionEntries.mp hd
      rw [readExtension_entry, Option.some.injEq] at hread
      exact hread ▸ hget
    · intro hget
      exact ⟨_, mem_extensionEntries.mpr ⟨e.1, e.2, hget, rfl⟩, readExtension_entry⟩
  simp only [readExtensions, h]
  rw [get_foldl_insert]
  · rw [hmem]
    simp
  · intro d hd e he heq
    have hd := (hmem d).mp hd
    have he := (hmem e).mp he
    rw [heq, he, Option.some.injEq] at hd
    exact Prod.ext heq hd.symm

def dictionary (o : IterOrder) (hs : ExtensionHandshake) : Bencode :=
  let m := Bencode.dictInsert (ByteStr "m") (.dict (extensionEntries o hs.extensions)) []
  .dict (match hs.metadataSize with
    | some size =>
      Bencode.dictInsert (ByteStr "metadata_size") (.int (UtMetadataMessage.asI64 size)) m
    | none => m)

theorem encode_eq (o : IterOrder) (hs : ExtensionHandshake) :
    hs.encode o = (dictionary o hs).encode := rfl

theorem dictionary_extensions (o : IterOrder) (hs : ExtensionHandshake) :
    (dictionary o hs).get "m" = .ok (.dict (extensionEntries o hs.extensions)) := by
  refine Bencode.get_eq_ok.mpr ⟨_, rfl, ?_⟩
  cases hs.metadataSize with
  | none => exact (Bencode.dictGet_insert ..).trans (if_pos rfl)
  | some size =>
    rw [Bencode.dictGet_insert, if_neg (by decide), Bencode.dictGet_insert, if_pos rfl]

theorem dictionary_wellFormed {o : IterOrder} {hs : ExtensionHandshake}
    (h : (hs.encode o).length < 2 ^ 64) : (dictionary o hs).WellFormed := by
  obtain ⟨fields, hdict, hget⟩ := Bencode.get_eq_ok.mp (dictionary_extensions o hs)
  have hentries : (Bencode.encodeEntries (extensionEntries o hs.extensions)).length < 2 ^ 64 := by
    have hfields := (Bencode.length_entry_le (Bencode.dictGet_mem hget)).2
    rw [encode_eq, hdict] at h
    simp only [Bencode.encode, List.length_append, List.length_cons] at h hfields
    omega
  have hwell : (Bencode.dict (extensionEntries o hs.extensions)).WellFormed := by
    rw [Bencode.WellFormed]
    refine extensionEntries_wellFormed fun name id hget => ?_
    have hin : extensionEntry (name, id) ∈ extensionEntries o hs.extensions :=
      mem_extensionEntries.mpr ⟨name, id, hget, rfl⟩
    exact (Bencode.length_entry_le hin).1.trans_lt hentries
  have hm : Bencode.WellFormedEntries (Bencode.dictInsert (ByteStr "m")
      (.dict (extensionEntries o hs.extensions)) []) :=
    Bencode.dictInsert_wellFormed (by decide) hwell (by simp only [Bencode.WellFormedEntries])
  simp only [dictionary, Bencode.WellFormed]
  split
  · exact Bencode.dictInsert_wellFormed (by decide) (by simp only [Bencode.WellFormed]) hm
  · exact hm

theorem readMetadataSize_dictionary (o : IterOrder) {hs : ExtensionHandshake}
    (h : ∀ n, hs.metadataSize = some n → n < 2 ^ 63) :
    readMetadataSize (dictionary o hs) = hs.metadataSize := by
  obtain ⟨extensions, size⟩ := hs
  cases size with
  | none =>
    have hget : (dictionary o ⟨extensions, none⟩).getInt "metadata_size" =
        .error .keyNotFound := rfl
    rw [readMetadataSize, hget]
  | some n =>
    have hget : (dictionary o ⟨extensions, some n⟩).getInt "metadata_size" =
        .ok (UtMetadataMessage.asI64 n) := by
      refine Bencode.getInt_eq_ok.mpr (Bencode.get_eq_ok.mpr ⟨_, rfl, ?_⟩)
      exact (Bencode.dictGet_insert ..).trans (if_pos rfl)
    have hn : (UtMetadataMessage.asI64 n).toInt = n := Int64.toInt_ofNat_of_lt (h n rfl)
    simp only [readMetadataSize, hget, hn]
    rw [if_pos (Int.natCast_nonneg n), Int.toNat_natCast]

end ExtensionHandshake

namespace Message

def Same : Message → Message → Prop
  | .extensionHandshake a, .extensionHandshake b =>
    (∀ name, a.extensions.get name = b.extensions.get name) ∧ a.metadataSize = b.metadataSize
  | a, b => a = b

def Fits : Message → Prop
  | .havePiece index | .suggestPiece index | .allowedFast index => index < 2 ^ 32
  | .request range | .cancel range | .rejectRequest range =>
    range.pieceIndex < 2 ^ 32 ∧ range.pieceOffset < 2 ^ 32 ∧ range.len < 2 ^ 32
  | .piece range data =>
    range.pieceIndex < 2 ^ 32 ∧ range.pieceOffset < 2 ^ 32 ∧ range.len = data.length
  | .extension extId _ => extId ≠ 0
  | .extensionHandshake hs => ∀ n, hs.metadataSize = some n → n < 2 ^ 63
  | .unimplemented => False
  | _ => True

theorem decodeRange_encodeRange {range : BlockRange} (hindex : range.pieceIndex < 2 ^ 32)
    (hoffset : range.pieceOffset < 2 ^ 32) (hlen : range.len < 2 ^ 32) :
    decodeRange (encodeRange range) = range := by
  obtain ⟨index, offset, len⟩ := range
  simp only [decodeRange, encodeRange, BlockRange.mk.injEq]
  refine ⟨?_, ?_, ?_⟩
  · exact readU32_u32Bytes hindex [] (u32Bytes offset ++ u32Bytes len)
  · exact readU32_u32Bytes hoffset (u32Bytes index) (u32Bytes len)
  · exact readU32_u32Bytes hlen (u32Bytes index ++ u32Bytes offset) []

theorem expectLength_ok {payload : Bytes} {length : Nat} {m : Message}
    (h : payload.length = length) : expectLength payload length m = .ok m := by
  rw [expectLength, if_neg (not_not.mpr h)]

theorem decode_range (id : UInt8) {range : BlockRange} (make : BlockRange → Message)
    (hmake : ∀ payload, decode (id :: payload) =
      expectLength payload 12 (make (decodeRange payload)))
    (h : range.pieceIndex < 2 ^ 32 ∧ range.pieceOffset < 2 ^ 32 ∧ range.len < 2 ^ 32) :
    decode (id :: encodeRange range) = .ok (make range) := by
  have hlength : (encodeRange range).length = 12 := rfl
  rw [hmake, expectLength_ok hlength, decodeRange_encodeRange h.1 h.2.1 h.2.2]

theorem decode_index (id : UInt8) {index : Nat} (make : Nat → Message)
    (hmake : ∀ payload, decode (id :: payload) =
      expectLength payload 4 (make (readU32 payload 0))) (h : index < 2 ^ 32) :
    decode (id :: u32Bytes index) = .ok (make index) := by
  have hread : readU32 (u32Bytes index) 0 = index := readU32_u32Bytes h [] []
  rw [hmake, expectLength_ok (length_u32Bytes index), hread]

theorem decode_piece {range : BlockRange} {data : Bytes}
    (h : range.pieceIndex < 2 ^ 32 ∧ range.pieceOffset < 2 ^ 32 ∧ range.len = data.length)
    (o : IterOrder) : decode ((piece range data).encode o) = .ok (.piece range data) := by
  obtain ⟨index, offset, len⟩ := range
  obtain ⟨hindex, hoffset, rfl⟩ := h
  have hzero : readU32 (u32Bytes index ++ (u32Bytes offset ++ data)) 0 = index :=
    readU32_u32Bytes hindex [] (u32Bytes offset ++ data)
  have hfour : readU32 (u32Bytes index ++ (u32Bytes offset ++ data)) 4 = offset :=
    readU32_u32Bytes hoffset (u32Bytes index) data
  have hdrop : (u32Bytes index ++ (u32Bytes offset ++ data)).drop 8 = data := rfl
  have hlength : (u32Bytes index ++ (u32Bytes offset ++ data)).length = data.length + 8 := by
    simp only [List.length_append, length_u32Bytes]
    omega
  have hdecode : decode (7 :: (u32Bytes index ++ u32Bytes offset ++ data)) =
    decodePiece (u32Bytes index ++ u32Bytes offset ++ data) := rfl
  rw [encode, hdecode, List.append_assoc, decodePiece, if_neg (by omega), hlength, hdrop,
    Nat.add_sub_cancel, hzero, hfour]

theorem decode_handshake {hs : ExtensionHandshake} {o : IterOrder}
    (hsize : ∀ n, hs.metadataSize = some n → n < 2 ^ 63)
    (hlength : (hs.encode o).length < 2 ^ 64) :
    ∃ hs', decode ((extensionHandshake hs).encode o) = .ok (.extensionHandshake hs') ∧
      (∀ name, hs.extensions.get name = hs'.extensions.get name) ∧
        hs.metadataSize = hs'.metadataSize := by
  have hdecode : decode (20 :: 0 :: hs.encode o) = decodeExtended (0 :: hs.encode o) := rfl
  have hread := Bencode.decode_encode (ExtensionHandshake.dictionary_wellFormed hlength)
  refine ⟨ExtensionHandshake.fromBencode (ExtensionHandshake.dictionary o hs), ?_,
    fun name => ?_, (ExtensionHandshake.readMetadataSize_dictionary o hsize).symm⟩
  · rw [encode, hdecode, decodeExtended, if_pos rfl]
    simp only [Except.bind_eq_ok, liftBencode_eq_ok]
    exact ⟨_, hread, rfl⟩
  · refine Option.ext fun id => ?_
    exact (ExtensionHandshake.readExtensions_get
      (ExtensionHandshake.dictionary_extensions o hs)).symm

theorem decode_encode {m : Message} {o : IterOrder} (h : m.Fits)
    (hlength : (m.encode o).length < 2 ^ 64) :
    ∃ m', decode (m.encode o) = .ok m' ∧ Same m m' := by
  cases m with
  | havePiece index => exact ⟨_, decode_index 4 .havePiece (fun _ => rfl) h, rfl⟩
  | suggestPiece index => exact ⟨_, decode_index 13 .suggestPiece (fun _ => rfl) h, rfl⟩
  | allowedFast index => exact ⟨_, decode_index 17 .allowedFast (fun _ => rfl) h, rfl⟩
  | request range => exact ⟨_, decode_range 6 .request (fun _ => rfl) h, rfl⟩
  | cancel range => exact ⟨_, decode_range 8 .cancel (fun _ => rfl) h, rfl⟩
  | rejectRequest range => exact ⟨_, decode_range 16 .rejectRequest (fun _ => rfl) h, rfl⟩
  | piece range data => exact ⟨_, decode_piece h o, rfl⟩
  | extension extId payload => exact ⟨_, decode_extension h payload o, rfl⟩
  | extensionHandshake hs =>
    obtain ⟨hs', hdecode, hsame⟩ := decode_handshake (o := o) h (by
      simp only [encode, List.length_cons] at hlength
      omega)
    exact ⟨_, hdecode, hsame⟩
  | unimplemented => exact absurd h fun h => h
  | _ => exact ⟨_, rfl, rfl⟩

end Message

end Tortue
