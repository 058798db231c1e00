import Tortue.Domain.Parsing
import Tortue.Domain.Swarm.Frame

namespace Tortue

namespace Bencode

namespace Spelling

-- Of repeated keys the decoder keeps the last one.
def lastEntry (key : Bytes) (entries : List (Text × Spelling)) : Option Spelling :=
  (entries.reverse.find? fun e => decide (e.1.bytes = key)).map Prod.snd

theorem lastEntry_cons (key : Bytes) (e : Text × Spelling) (entries : List (Text × Spelling)) :
    lastEntry key (e :: entries) =
      (lastEntry key entries).or (if e.1.bytes = key then some e.2 else none) := by
  simp only [lastEntry, List.reverse_cons, List.find?_append, Option.map_or, List.find?_singleton,
    decide_eq_true_eq]
  split_ifs <;> rfl

theorem dictGet_collect (key : Bytes) (entries : List (Text × Spelling))
    (found : List (Bytes × Bencode)) :
    dictGet key (collect entries found) =
      ((lastEntry key entries).map value).or (dictGet key found) := by
  induction entries generalizing found with
  | nil => rw [collect]; rfl
  | cons e entries ih =>
    obtain ⟨k, s⟩ := e
    rw [collect, ih, lastEntry_cons, dictGet_insert]
    cases lastEntry key entries with
    | some t => rfl
    | none =>
      simp only [Option.map_none, Option.none_or]
      split_ifs <;> rfl

theorem lastEntry_infix {key : Bytes} {entries : List (Text × Spelling)} {s : Spelling}
    (h : lastEntry key entries = some s) :
    ∃ before after, renderEntries entries = before ++ s.render ++ after := by
  induction entries with
  | nil => contradiction
  | cons e entries ih =>
    rw [lastEntry_cons, Option.or_eq_some_iff] at h
    simp only [renderEntries]
    rcases h with hlast | ⟨-, hhere⟩
    · obtain ⟨before, after, hsplit⟩ := ih hlast
      refine ⟨e.1.render ++ e.2.render ++ before, after, ?_⟩
      rw [hsplit]
      simp only [List.append_assoc]
    · rw [Option.ite_none_right_eq_some, Option.some.injEq] at hhere
      exact ⟨e.1.render, renderEntries entries, by rw [hhere.2]⟩

end Spelling

end Bencode

open Bencode

namespace Metainfo

def InfoSpelling (data : Bytes) (info : Spelling) : Prop :=
  ∃ entries rest, data = (Spelling.dict entries).render ++ rest ∧
    Spelling.lastEntry (ByteStr "info") entries = some info

theorem InfoSpelling.unique {data : Bytes} {a b : Spelling} (ha : InfoSpelling data a)
    (hb : InfoSpelling data b) : a = b := by
  obtain ⟨entries, rest, hdata, hinfo⟩ := ha
  obtain ⟨entries', rest', hdata', hinfo'⟩ := hb
  obtain ⟨hsame, -⟩ := Spelling.render_inj _ _ _ _ (hdata.symm.trans hdata')
  rw [Spelling.dict.inj hsame, hinfo', Option.some.injEq] at hinfo
  exact hinfo.symm

theorem InfoSpelling.slice {data : Bytes} {info : Spelling} (h : InfoSpelling data info) :
    ∃ before after, data = before ++ info.render ++ after := by
  obtain ⟨entries, rest, rfl, hinfo⟩ := h
  obtain ⟨before, after, hsplit⟩ := Spelling.lastEntry_infix hinfo
  refine ⟨ascii 'd' :: before, after ++ [ascii 'e'] ++ rest, ?_⟩
  rw [Spelling.render, hsplit]
  simp only [List.cons_append, List.append_assoc]

theorem InfoSpelling.decoded {data : Bytes} {info : Spelling} (h : InfoSpelling data info) :
    ∃ root, Bencode.decode data = .ok root ∧ root.get "info" = .ok info.value := by
  obtain ⟨entries, rest, rfl, hinfo⟩ := h
  refine ⟨(Spelling.dict entries).value, ?_, ?_⟩
  · have hread : decodeWithRest ((Spelling.dict entries).render ++ rest) =
        .ok ((Spelling.dict entries).value, rest) := decodeWithRest_eq_ok.mpr ⟨_, rfl, rfl⟩
    rw [Bencode.decode, hread]
    rfl
  · refine get_eq_ok.mpr ⟨Spelling.collect entries [], by rw [Spelling.value], ?_⟩
    rw [Spelling.dictGet_collect, hinfo]
    rfl

theorem infoSpelling_of_decoded {data : Bytes} {root info : Bencode}
    (hroot : Bencode.decode data = .ok root) (hinfo : root.get "info" = .ok info) :
    ∃ s, InfoSpelling data s ∧ s.value = info := by
  obtain ⟨s, rest, rfl, rfl⟩ := decode_eq_ok hroot
  obtain ⟨found, hfound, hget⟩ := get_eq_ok.mp hinfo
  cases s with
  | dict entries =>
    rw [Spelling.value, Bencode.dict.injEq] at hfound
    rw [← hfound, Spelling.dictGet_collect, Option.or_eq_some_iff] at hget
    rcases hget with hlast | ⟨-, hempty⟩
    · obtain ⟨t, ht, rfl⟩ := Option.map_eq_some_iff.mp hlast
      exact ⟨t, ⟨entries, rest, rfl, ht⟩, rfl⟩
    · contradiction
  | _ =>
    rw [Spelling.value] at hfound
    contradiction

theorem infoBytes_eq {sha1 : Sha1} {data : Bytes} {m : Metainfo} (h : tryFrom sha1 data = .ok m) :
    ∃ info, InfoSpelling data info ∧ m.infoBytes = info.value.encode ∧
      m.infoHash = sha1 m.infoBytes := by
  obtain ⟨root, announce, info, parts, hroot, -, hinfo, -, -, rfl⟩ := tryFrom_eq_ok.mp h
  obtain ⟨s, hs, rfl⟩ := infoSpelling_of_decoded hroot hinfo
  exact ⟨s, hs, rfl, rfl⟩

theorem infoBytes_slice_iff {sha1 : Sha1} {data : Bytes} {m : Metainfo}
    (h : tryFrom sha1 data = .ok m) :
    ∃ info before after, InfoSpelling data info ∧
      (∀ other, InfoSpelling data other → other = info) ∧
      (∃ root, Bencode.decode data = .ok root ∧ root.get "info" = .ok info.value) ∧
      data = before ++ info.render ++ after ∧
      ((m.infoBytes = info.render ∧ m.infoHash = sha1 info.render) ↔ info.Canonical) := by
  obtain ⟨info, hinfo, hbytes, hhash⟩ := infoBytes_eq h
  obtain ⟨before, after, hslice⟩ := hinfo.slice
  refine ⟨info, before, after, hinfo, fun other hother => hother.unique hinfo, hinfo.decoded,
    hslice, ?_⟩
  rw [← info.encode_value_eq_iff, ← hbytes]
  constructor
  · exact fun hsame => hsame.1
  · intro hsame
    exact ⟨hsame, by rw [← hsame, hhash]⟩

end Metainfo

namespace Sample

def torrentWith (pieceLength : String) : Bytes :=
  ByteStr "d8:announce1:u4:infod6:lengthi5e4:name1:n12:piece lengthi" ++ ByteStr pieceLength ++
    ByteStr "e6:pieces20:" ++ List.replicate 20 0 ++ ByteStr "ee"

theorem torrentWith_accepted (pieceLength : String) (check : Metainfo → Bool)
    (h : (Metainfo.tryFrom sha1 (torrentWith pieceLength)).toOption.any check = true) :
    ∃ m, Metainfo.tryFrom sha1 (torrentWith pieceLength) = .ok m ∧ check m = true :=
  Except.exists_ok h

end Sample

namespace Metainfo

theorem plain_torrent_slice : ∃ m info, tryFrom Sample.sha1 (Sample.torrentWith "10") = .ok m ∧
    InfoSpelling (Sample.torrentWith "10") info ∧
    ((m.infoBytes = info.render ∧ m.infoHash = Sample.sha1 info.render) ↔ info.Canonical) := by
  obtain ⟨m, hm, -⟩ := Sample.torrentWith_accepted "10" (fun _ => true) (by decide +kernel)
  obtain ⟨info, -, -, hinfo, -, -, -, hiff⟩ := infoBytes_slice_iff hm
  exact ⟨m, info, hm, hinfo, hiff⟩

theorem signed_number_not_slice : ¬ ∀ (sha1 : Sha1) (data : Bytes) (m : Metainfo)
    (info : Spelling), tryFrom sha1 data = .ok m → InfoSpelling data info →
      m.infoBytes = info.render ∧ m.infoHash = sha1 info.render := by
  intro hall
  obtain ⟨m, hm, hother⟩ := Sample.torrentWith_accepted "+10"
    (fun m => !decide (m.infoBytes <:+: Sample.torrentWith "+10")) (by decide +kernel)
  obtain ⟨info, hinfo, -, -⟩ := infoBytes_eq hm
  obtain ⟨before, after, hslice⟩ := hinfo.slice
  have hsame := (hall _ _ m info hm hinfo).1
  rw [Bool.not_eq_true', decide_eq_false_iff_not] at hother
  exact hother ⟨before, after, by rw [hsame, ← hslice]⟩

end Metainfo

end Tortue
