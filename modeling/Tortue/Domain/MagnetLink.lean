import Tortue.Domain.Magnet
import Tortue.Domain.Utf8

namespace Tortue

namespace Magnet

def stripPrefix (head s : String) : Option String :=
  (head.toList.isPrefixOf? s.toList).map String.ofList

def split (c : Char) (s : String) : List String := (s.toList.splitOn c).map String.ofList

def splitOnce (c : Char) (s : String) : Option (String × String) :=
  match s.toList.span (· ≠ c) with
  | (_, []) => none
  | (before, _ :: after) => some (String.ofList before, String.ofList after)

def decodeValue (percentDecodeStr : String → Bytes) (raw : String) : String :=
  fromUtf8Lossy (percentDecodeStr raw)

structure Draft where
  infoHash : Option InfoHash
  trackers : List String
  name : Option String
  peers : List String
  deriving DecidableEq

namespace Draft

def start : Draft := ⟨none, [], none, []⟩

variable (hexDecode : String → Except String Bytes)

-- Only the first `urn:btih:` counts; a `urn:btmh:` is skipped.
def readXt (d : Draft) (value : String) : Except Error Draft :=
  match d.infoHash, stripPrefix "urn:btih:" value with
  | none, some hash => do
    let infoHash ← parseBtih hexDecode hash
    return { d with infoHash := some infoHash }
  | _, _ => .ok d

def read (d : Draft) (key value : String) : Except Error Draft :=
  if key = "xt" then d.readXt hexDecode value
  else if key = "dn" then .ok { d with name := some value }
  else if key = "tr" then .ok { d with trackers := d.trackers ++ [value] }
  else if key = "x.pe" then .ok { d with peers := d.peers ++ [value] }
  else .ok d

def readParam (percentDecodeStr : String → Bytes) (d : Draft) (param : String) :
    Except Error Draft :=
  match splitOnce '=' param with
  | none => .ok d
  | some (key, raw) => d.read hexDecode key (decodeValue percentDecodeStr raw)

end Draft

-- `MagnetLink::try_from`
def tryFrom (hexDecode : String → Except String Bytes) (percentDecodeStr : String → Bytes)
    (s : String) : Except Error MagnetLink :=
  match stripPrefix "magnet:?" s with
  | none => .error .invalidScheme
  | some query => do
    let d ← (split '&' query).foldlM (Draft.readParam hexDecode percentDecodeStr) .start
    match d.infoHash with
    | none => .error .missingXt
    | some infoHash => return ⟨infoHash, d.trackers, d.name, d.peers⟩

theorem stripPrefix_eq_some {head s rest : String} :
    stripPrefix head s = some rest ↔ s = head ++ rest := by
  rw [stripPrefix, Option.map_eq_some_iff]
  constructor
  · rintro ⟨chars, hchars, rfl⟩
    rw [List.isPrefixOf?_eq_some_iff_append_eq] at hchars
    rw [← String.toList_inj, String.toList_append, String.toList_ofList, hchars]
  · rintro rfl
    refine ⟨rest.toList, ?_, String.ofList_toList⟩
    rw [List.isPrefixOf?_eq_some_iff_append_eq, String.toList_append]

theorem splitOnce_append {c : Char} {before : String} (h : c ∉ before.toList) (after : String) :
    splitOnce c (before ++ String.ofList [c] ++ after) = some (before, after) := by
  have hspan : (before ++ String.ofList [c] ++ after).toList.span (· ≠ c) =
      (before.toList, c :: after.toList) := by
    simp only [String.toList_append, String.toList_ofList, List.append_assoc,
      List.singleton_append, List.span_eq_takeWhile_dropWhile]
    have hall : ∀ x ∈ before.toList, decide (x ≠ c) = true := by
      intro x hx
      rw [decide_eq_true_eq]
      rintro rfl
      exact h hx
    rw [List.takeWhile_append_of_pos hall, List.dropWhile_append_of_pos hall]
    simp
  simp only [splitOnce, hspan, String.ofList_toList]

end Magnet

end Tortue
