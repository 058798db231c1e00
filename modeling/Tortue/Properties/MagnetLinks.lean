import Tortue.Collections.Percent
import Tortue.Domain.MagnetLink
import Tortue.Properties.MagnetHashes

namespace Tortue

open Collections

namespace Magnet

def pairs (percentDecodeStr : String → Bytes) (query : String) : List (String × String) :=
  (split '&' query).filterMap fun param =>
    (splitOnce '=' param).map fun entry => (entry.1, decodeValue percentDecodeStr entry.2)

def values (key : String) (ps : List (String × String)) : List String :=
  (ps.filter (·.1 = key)).map Prod.snd

def hashes (ps : List (String × String)) : List String :=
  (values "xt" ps).filterMap (stripPrefix "urn:btih:")

structure Describes (hexDecode : String → Except String Bytes) (ps : List (String × String))
    (link : MagnetLink) : Prop where
  infoHash : ∃ hash rest, hashes ps = hash :: rest ∧ parseBtih hexDecode hash = .ok link.infoHash
  trackers : link.trackers = values "tr" ps
  name : link.name = (values "dn" ps).getLast?
  peers : link.peers = values "x.pe" ps

inductive Fails (hexDecode : String → Except String Bytes) (ps : List (String × String)) :
    Error → Prop
  | missing (h : hashes ps = []) : Fails hexDecode ps .missingXt
  | invalid {hash : String} {rest : List String} {e : Error} (h : hashes ps = hash :: rest)
      (he : parseBtih hexDecode hash = .error e) : Fails hexDecode ps e

def escaped (kept : UInt8 → Bool) (value : String) : String :=
  asciiString (Percent.encode kept (utf8Bytes value))

def param (kept : UInt8 → Bool) (entry : String × String) : String :=
  entry.1 ++ String.ofList ['='] ++ escaped kept entry.2

def render (kept : UInt8 → Bool) (ps : List (String × String)) : String :=
  String.ofList (['&'].intercalate (ps.map fun entry => (param kept entry).toList))

structure Safe (kept : UInt8 → Bool) : Prop where
  percent : kept Percent.percent = false
  ampersand : kept (ascii '&') = false
  plain : ∀ b, kept b = true → b < 128

def PlainKey (key : String) : Prop := '&' ∉ key.toList ∧ '=' ∉ key.toList

instance (key : String) : Decidable (PlainKey key) := inferInstanceAs (Decidable (_ ∧ _))

theorem values_cons (key : String) (entry : String × String) (ps : List (String × String)) :
    values key (entry :: ps) = values key [entry] ++ values key ps := by
  rw [values, ← List.singleton_append, List.filter_append, List.map_append]
  rfl

theorem hashes_cons (entry : String × String) (ps : List (String × String)) :
    hashes (entry :: ps) = hashes [entry] ++ hashes ps := by
  rw [hashes, values_cons, List.filterMap_append]
  rfl

namespace Draft

variable (hexDecode : String → Except String Bytes)

def readPair (d : Draft) (entry : String × String) : Except Error Draft :=
  d.read hexDecode entry.1 entry.2

def firstHash : Option InfoHash → List String → Except Error (Option InfoHash)
  | some infoHash, _ => .ok (some infoHash)
  | none, [] => .ok none
  | none, hash :: _ => some <$> parseBtih hexDecode hash

theorem foldlM_readParam (percentDecodeStr : String → Bytes) (l : List String) (d : Draft) :
    l.foldlM (readParam hexDecode percentDecodeStr) d =
      (l.filterMap fun param => (splitOnce '=' param).map fun entry =>
        (entry.1, decodeValue percentDecodeStr entry.2)).foldlM (readPair hexDecode) d := by
  induction l generalizing d with
  | nil => rfl
  | cons param l ih =>
    rw [List.foldlM_cons, readParam]
    rcases hsplit : splitOnce '=' param with _ | ⟨key, raw⟩
    · rw [List.filterMap_cons_none (by rw [hsplit]; rfl)]
      exact ih d
    · rw [List.filterMap_cons_some (b := (key, decodeValue percentDecodeStr raw))
        (by rw [hsplit]; rfl),
        List.foldlM_cons]
      exact congrArg _ (funext ih)

theorem firstHash_append (infoHash : Option InfoHash) (l m : List String) :
    firstHash hexDecode infoHash (l ++ m) =
      firstHash hexDecode infoHash l >>= fun infoHash => firstHash hexDecode infoHash m := by
  rcases infoHash with _ | infoHash
  · rcases l with _ | ⟨hash, l⟩
    · rfl
    · cases h : parseBtih hexDecode hash <;> simp [firstHash, h] <;> rfl
  · rfl

theorem firstHash_nil (infoHash : Option InfoHash) :
    firstHash hexDecode infoHash [] = .ok infoHash := by
  cases infoHash <;> rfl

theorem readPair_eq (d : Draft) (entry : String × String) :
    d.readPair hexDecode entry =
      (firstHash hexDecode d.infoHash (hashes [entry])).map fun infoHash =>
        ⟨infoHash, d.trackers ++ values "tr" [entry],
          (values "dn" [entry]).getLast?.or d.name, d.peers ++ values "x.pe" [entry]⟩ := by
  obtain ⟨key, value⟩ := entry
  obtain ⟨infoHash, trackers, name, peers⟩ := d
  rw [readPair, read]
  by_cases hxt : key = "xt"
  · subst hxt
    rw [if_pos rfl, readXt]
    rcases hhash : stripPrefix "urn:btih:" value with _ | hash
    · have hnone : hashes [("xt", value)] = [] := by simp [hashes, values, hhash]
      rw [hnone, firstHash_nil]
      cases infoHash <;> simp [values] <;> rfl
    · have hone : hashes [("xt", value)] = [hash] := by simp [hashes, values, hhash]
      rw [hone]
      cases infoHash with
      | none => cases hbtih : parseBtih hexDecode hash <;>
          simp [values, firstHash, hbtih] <;> rfl
      | some infoHash => simp [values, firstHash]; rfl
  · have hnone : hashes [(key, value)] = [] := by simp [hashes, values, hxt]
    rw [if_neg hxt, hnone, firstHash_nil]
    split_ifs with hdn htr hpe
    · subst hdn
      simp [values]
      rfl
    · subst htr
      simp [values]
      rfl
    · subst hpe
      simp [values]
      rfl
    · simp [values, hdn, htr, hpe]
      rfl

theorem foldlM_readPair (ps : List (String × String)) (d : Draft) :
    ps.foldlM (readPair hexDecode) d =
      (firstHash hexDecode d.infoHash (hashes ps)).map fun infoHash =>
        ⟨infoHash, d.trackers ++ values "tr" ps, (values "dn" ps).getLast?.or d.name,
          d.peers ++ values "x.pe" ps⟩ := by
  induction ps generalizing d with
  | nil =>
    have hnone : hashes [] = [] := rfl
    rw [hnone, firstHash_nil]
    simp [values]
    rfl
  | cons entry ps ih =>
    rw [List.foldlM_cons, readPair_eq, hashes_cons entry ps, firstHash_append]
    rcases firstHash hexDecode d.infoHash (hashes [entry]) with e | infoHash
    · rfl
    · show ps.foldlM (readPair hexDecode) _ = _
      rw [ih, values_cons "tr" entry ps, values_cons "dn" entry ps, values_cons "x.pe" entry ps]
      rw [List.append_assoc, List.append_assoc, List.getLast?_append, Option.or_assoc]
      rfl

end Draft

section Reading

variable {hexDecode : String → Except String Bytes} {percentDecodeStr : String → Bytes}
  {query : String}

theorem tryFrom_query : tryFrom hexDecode percentDecodeStr ("magnet:?" ++ query) =
    ((pairs percentDecodeStr query).foldlM (Draft.readPair hexDecode) .start).bind fun d =>
      (d.infoHash.elim (.error .missingXt) fun infoHash =>
        .ok ⟨infoHash, d.trackers, d.name, d.peers⟩) := by
  have hquery : stripPrefix "magnet:?" ("magnet:?" ++ query) = some query :=
    stripPrefix_eq_some.mpr rfl
  rw [tryFrom, hquery]
  simp only [Draft.foldlM_readParam]
  rw [← pairs]
  rcases (pairs percentDecodeStr query).foldlM (Draft.readPair hexDecode) .start with e | d
  · rfl
  · obtain ⟨_ | infoHash, trackers, name, peers⟩ := d <;> rfl

theorem tryFrom_missing (h : hashes (pairs percentDecodeStr query) = []) :
    tryFrom hexDecode percentDecodeStr ("magnet:?" ++ query) = .error .missingXt := by
  rw [tryFrom_query, Draft.foldlM_readPair, h]
  rfl

theorem tryFrom_found {hash : String} {rest : List String}
    (h : hashes (pairs percentDecodeStr query) = hash :: rest) :
    tryFrom hexDecode percentDecodeStr ("magnet:?" ++ query) =
      (parseBtih hexDecode hash).map fun infoHash =>
        ⟨infoHash, values "tr" (pairs percentDecodeStr query),
          (values "dn" (pairs percentDecodeStr query)).getLast?,
          values "x.pe" (pairs percentDecodeStr query)⟩ := by
  rw [tryFrom_query, Draft.foldlM_readPair, h, Draft.start, Draft.firstHash]
  cases parseBtih hexDecode hash <;> simp <;> rfl

theorem tryFrom_ok_iff {link : MagnetLink} :
    tryFrom hexDecode percentDecodeStr ("magnet:?" ++ query) = .ok link ↔
      Describes hexDecode (pairs percentDecodeStr query) link := by
  constructor
  · intro h
    rcases hfound : hashes (pairs percentDecodeStr query) with _ | ⟨hash, rest⟩
    · rw [tryFrom_missing hfound] at h
      contradiction
    · rw [tryFrom_found hfound] at h
      rcases hbtih : parseBtih hexDecode hash with e | infoHash
      · rw [hbtih] at h
        contradiction
      · rw [hbtih] at h
        obtain rfl := Except.ok.inj h
        exact ⟨⟨hash, rest, hfound, hbtih⟩, rfl, rfl, rfl⟩
  · rintro ⟨⟨hash, rest, hfound, hbtih⟩, htrackers, hname, hpeers⟩
    rw [tryFrom_found hfound, hbtih, ← htrackers, ← hname, ← hpeers]
    rfl

theorem tryFrom_error_iff {e : Error} :
    tryFrom hexDecode percentDecodeStr ("magnet:?" ++ query) = .error e ↔
      Fails hexDecode (pairs percentDecodeStr query) e := by
  constructor
  · intro h
    rcases hfound : hashes (pairs percentDecodeStr query) with _ | ⟨hash, rest⟩
    · rw [tryFrom_missing hfound] at h
      obtain rfl := Except.error.inj h
      exact .missing hfound
    · rw [tryFrom_found hfound] at h
      rcases hbtih : parseBtih hexDecode hash with e' | infoHash
      · rw [hbtih] at h
        obtain rfl := Except.error.inj h
        exact .invalid hfound hbtih
      · rw [hbtih] at h
        contradiction
  · rintro (hfound | ⟨hfound, hbtih⟩)
    · exact tryFrom_missing hfound
    · rw [tryFrom_found hfound, hbtih]
      rfl

theorem tryFrom_scheme {s : String} (h : ∀ query, s ≠ "magnet:?" ++ query) :
    tryFrom hexDecode percentDecodeStr s = .error .invalidScheme := by
  rcases hquery : stripPrefix "magnet:?" s with _ | query
  · rw [tryFrom, hquery]
  · exact absurd (stripPrefix_eq_some.mp hquery) (h query)

end Reading

section Rendering

variable {decode : Bytes → Bytes} {percentDecodeStr : String → Bytes} {kept : UInt8 → Bool}

theorem encode_lt (h : Safe kept) (bytes : Bytes) : ∀ b ∈ Percent.encode kept bytes, b < 128 := by
  have hdigit : ∀ digit < 16, Percent.hexChar digit < 128 := by decide
  intro b hb
  rcases Percent.mem_encode hb with hkept | rfl | ⟨digit, hlt, rfl⟩
  · exact h.plain b hkept
  · decide
  · exact hdigit digit hlt

theorem decodeValue_escaped (hdecode : Percent.Decodes decode)
    (hstr : ∀ s, percentDecodeStr s = decode (utf8Bytes s)) (h : Safe kept) (value : String) :
    decodeValue percentDecodeStr (escaped kept value) = value := by
  rw [decodeValue, hstr, escaped, utf8Bytes_asciiString (encode_lt h _),
    hdecode.decode_encode h.percent, fromUtf8Lossy_utf8Bytes]

theorem ampersand_notMem_escaped (h : Safe kept) (value : String) :
    '&' ∉ (escaped kept value).toList := by
  intro hmem
  rw [escaped, asciiString, String.toList_ofList] at hmem
  obtain ⟨b, hb, hchar⟩ := List.mem_map.mp hmem
  have hascii : ∀ n < 128, Char.ofNat n = '&' → n = (ascii '&').toNat := by decide
  have hbyte : b = ascii '&' := UInt8.toNat_inj.mp
    (hascii b.toNat (UInt8.lt_iff_toNat_lt.mp (encode_lt h _ b hb)) hchar)
  have hdigit : ∀ digit < 16, ascii '&' ≠ Percent.hexChar digit := by decide
  subst hbyte
  rcases Percent.mem_encode hb with hkept | hpercent | ⟨digit, hlt, heq⟩
  · rw [h.ampersand] at hkept
    contradiction
  · revert hpercent
    decide
  · exact hdigit digit hlt heq

theorem ampersand_notMem_param (h : Safe kept) {entry : String × String}
    (hkey : PlainKey entry.1) : '&' ∉ (param kept entry).toList := by
  simp only [param, String.toList_append, String.toList_ofList, List.mem_append,
    List.mem_singleton, not_or]
  exact ⟨⟨hkey.1, by decide⟩, ampersand_notMem_escaped h _⟩

theorem split_render (h : Safe kept) {ps : List (String × String)} (hne : ps ≠ [])
    (hkeys : ∀ entry ∈ ps, PlainKey entry.1) :
    split '&' (render kept ps) = ps.map (param kept) := by
  have hparts : (render kept ps).toList.splitOn '&' =
      ps.map fun entry => (param kept entry).toList := by
    rw [render, String.toList_ofList]
    refine List.splitOn_intercalate '&' (fun l hl => ?_) (mt List.map_eq_nil_iff.mp hne)
    obtain ⟨entry, hentry, rfl⟩ := List.mem_map.mp hl
    exact ampersand_notMem_param h (hkeys entry hentry)
  rw [split, hparts, List.map_map]
  exact List.map_congr_left fun entry _ => String.ofList_toList

theorem pairs_render (hdecode : Percent.Decodes decode)
    (hstr : ∀ s, percentDecodeStr s = decode (utf8Bytes s)) (h : Safe kept)
    {ps : List (String × String)} (hkeys : ∀ entry ∈ ps, PlainKey entry.1) :
    pairs percentDecodeStr (render kept ps) = ps := by
  rcases ps with _ | ⟨entry, ps⟩
  · rfl
  · rw [pairs, split_render h (List.cons_ne_nil entry ps) hkeys, List.filterMap_map]
    refine (List.filterMap_congr fun entry hentry => ?_).trans List.filterMap_some
    rw [Function.comp_apply, param, splitOnce_append (hkeys entry hentry).2, Option.map_some,
      decodeValue_escaped hdecode hstr h]

end Rendering

theorem links_read (hexDecode : String → Except String Bytes)
    (percentDecodeStr : String → Bytes) :
    (∀ s link, tryFrom hexDecode percentDecodeStr s = .ok link ↔ ∃ query,
      s = "magnet:?" ++ query ∧ Describes hexDecode (pairs percentDecodeStr query) link) ∧
    (∀ s e, tryFrom hexDecode percentDecodeStr s = .error e ↔
      ((∀ query, s ≠ "magnet:?" ++ query) ∧ e = .invalidScheme) ∨ ∃ query,
        s = "magnet:?" ++ query ∧ Fails hexDecode (pairs percentDecodeStr query) e) ∧
    ∀ decode, Percent.Decodes decode → (∀ s, percentDecodeStr s = decode (utf8Bytes s)) →
      ∀ kept, Safe kept → ∀ ps, (∀ entry ∈ ps, PlainKey entry.1) →
        pairs percentDecodeStr (render kept ps) = ps ∧ ∀ link,
          tryFrom hexDecode percentDecodeStr ("magnet:?" ++ render kept ps) = .ok link ↔
            Describes hexDecode ps link := by
  refine ⟨fun s link => ⟨fun h => ?_, ?_⟩, fun s e => ⟨fun h => ?_, ?_⟩,
    fun decode hdecode hstr kept hkept ps hkeys => ?_⟩
  · by_cases hscheme : ∃ query, s = "magnet:?" ++ query
    · obtain ⟨query, rfl⟩ := hscheme
      exact ⟨query, rfl, tryFrom_ok_iff.mp h⟩
    · rw [tryFrom_scheme (not_exists.mp hscheme)] at h
      contradiction
  · rintro ⟨query, rfl, hlink⟩
    exact tryFrom_ok_iff.mpr hlink
  · by_cases hscheme : ∃ query, s = "magnet:?" ++ query
    · obtain ⟨query, rfl⟩ := hscheme
      exact .inr ⟨query, rfl, tryFrom_error_iff.mp h⟩
    · rw [tryFrom_scheme (not_exists.mp hscheme)] at h
      exact .inl ⟨not_exists.mp hscheme, (Except.error.inj h).symm⟩
  · rintro (⟨hscheme, rfl⟩ | ⟨query, rfl, hfails⟩)
    · exact tryFrom_scheme hscheme
    · exact tryFrom_error_iff.mpr hfails
  · have hpairs := pairs_render hdecode hstr hkept hkeys
    refine ⟨hpairs, fun link => ?_⟩
    rw [tryFrom_ok_iff, hpairs]

end Magnet

namespace Sample

open Magnet

def unreserved (b : UInt8) : Bool :=
  (ascii '0' ≤ b && b ≤ ascii '9') || (ascii 'a' ≤ b && b ≤ ascii 'z')

theorem unreserved_safe : Safe unreserved where
  percent := by decide
  ampersand := by decide
  plain := by
    intro b hb
    simp only [unreserved, Bool.or_eq_true, Bool.and_eq_true, decide_eq_true_eq] at hb
    rcases hb with ⟨-, hb⟩ | ⟨-, hb⟩
    · exact UInt8.lt_of_le_of_lt hb (by decide)
    · exact UInt8.lt_of_le_of_lt hb (by decide)

def percentDecode : Bytes → Bytes
  | b :: high :: low :: rest =>
    if b = Percent.percent then
      match Percent.toDigit high, Percent.toDigit low with
      | some high, some low => (16 * high + low).toUInt8 :: percentDecode rest
      | _, _ => b :: percentDecode (high :: low :: rest)
    else b :: percentDecode (high :: low :: rest)
  | b :: rest => b :: percentDecode rest
  | [] => []

theorem percentDecode_decodes : Percent.Decodes percentDecode where
  nil := rfl
  plain := by
    intro b rest hb
    rcases rest with _ | ⟨high, _ | ⟨low, rest⟩⟩
    · rfl
    · rfl
    · rw [percentDecode, if_neg hb]
  escaped := by
    intro high low m n hm hn rest
    rw [percentDecode, if_pos rfl, hm, hn]

def percentDecodeStr (s : String) : Bytes := percentDecode (utf8Bytes s)

def linkParams : List (String × String) :=
  [("tr", "udp://one?a=b&c"), ("xt", "urn:btmh:1220"), ("dn", "first"),
    ("xt", "urn:btih:3wbfl3G4pssv7MF37ajshwdqmlnr63I4"), ("dn", "caf\u00e9 100%"),
    ("xt", "urn:btih:short"), ("tr", "two")]

end Sample

namespace Magnet

theorem rendered_link_read : tryFrom Sample.hexDecode Sample.percentDecodeStr
    ("magnet:?" ++ render Sample.unreserved Sample.linkParams) =
      .ok ⟨Sample.magnetHash, ["udp://one?a=b&c", "two"], some "caf\u00e9 100%", []⟩ := by
  refine (((links_read Sample.hexDecode Sample.percentDecodeStr).2.2 Sample.percentDecode
    Sample.percentDecode_decodes (fun _ => rfl) Sample.unreserved Sample.unreserved_safe
    Sample.linkParams (by decide)).2 _).mpr ⟨⟨_, _, rfl, by decide +kernel⟩, ?_, ?_, ?_⟩
  all_goals decide +kernel

end Magnet

end Tortue
