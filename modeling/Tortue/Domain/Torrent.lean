import Tortue.Domain.Bencode
import Mathlib.Data.List.Dedup

namespace Tortue

abbrev PieceHash := Octets 20

abbrev InfoHash := Octets 20

-- SHA-1 comes from a crate: the model takes it as a parameter.
abbrev Sha1 := Bytes → PieceHash

def pieceHashLen : Nat := 20

structure File where
  length : Nat
  path : List String
  deriving DecidableEq

inductive Mode where
  | single (length : Nat)
  | multiple (files : List File)
  deriving DecidableEq

structure Metainfo where
  name : String
  announce : List String
  comment : Option String
  createdBy : Option String
  createdAt : Option Int64
  urlList : Option (List String)
  infoBytes : Bytes
  infoHash : InfoHash
  pieceLength : Nat
  pieces : List PieceHash
  mode : Mode
  deriving DecidableEq

namespace Metainfo

inductive Error where
  | bencode (e : Bencode.Error)
  | invalidUtf8
  | unexpectedType
  | negativeLength
  | invalidPiecesLength
  | invalidMetainfoSize
  | torrentTooLarge
  deriving DecidableEq, Repr

def metadataPieceSize : Nat := 16384

def maxTorrentSize : Nat := 42949672960

def fileLengths (m : Metainfo) : List Nat :=
  match m.mode with
  | .single length => [length]
  | .multiple files => files.map File.length

def totalSize (m : Metainfo) : Nat :=
  match m.mode with
  | .single length => length
  | .multiple files => wrap (files.map File.length).sum

def infoBytesBlock (m : Metainfo) (piece : Nat) : Bytes :=
  let start := wrap (piece * metadataPieceSize)
  if start ≥ m.infoBytes.length then [] else (m.infoBytes.drop start).take metadataPieceSize

def validate (m : Metainfo) : Except Error Unit := do
  let maxExpectedSize := wrap (m.pieceLength * m.pieces.length)
  if maxExpectedSize ≤ m.totalSize then throw .invalidMetainfoSize
  if m.totalSize > maxTorrentSize then throw .torrentTooLarge

def liftBencode {α : Type} : Except Bencode.Error α → Except Error α
  | .ok a => .ok a
  | .error e => .error (.bencode e)

def toNat (value : Int64) : Except Error Nat :=
  if value.toInt < 0 then .error .negativeLength else .ok value.toInt.toNat

def bytesToStr : Bencode → Option String
  | .bytes b => fromUtf8 b
  | _ => none

def parsePathComponent (b : Bencode) : Except Error String :=
  match bytesToStr b with
  | some s => .ok s
  | none => .error .invalidUtf8

def parseFile (b : Bencode) : Except Error File := do
  let length ← toNat (← liftBencode (b.getInt "length"))
  let path ← (← liftBencode (b.getList "path")).mapM parsePathComponent
  return ⟨length, path⟩

def parseAnnounceList (tiers : List Bencode) : List (List String) :=
  tiers.filterMap fun tier =>
    match tier with
    | .list urls =>
      let urls := urls.filterMap bytesToStr
      if urls ≠ [] then some urls else none
    | _ => none

def parseAnnounces (root : Bencode) : Except Error (List String) := do
  let mainAnnounce ← liftBencode (root.getUtf8 "announce")
  let tiers := match root.getList "announce-list" with
    | .ok tiers => parseAnnounceList tiers
    | .error _ => []
  return tiers.flatten.foldl (fun announces url =>
    if url ∈ announces then announces else announces ++ [url]) [mainAnnounce]

def parseUrlList (root : Bencode) : Option (List String) := do
  let list ← (root.getList "url-list").toOption
  let v := list.filterMap bytesToStr
  if v ≠ [] then some v else none

def parsePieces (data : Bytes) : Except Error (List PieceHash) :=
  if data.length % pieceHashLen ≠ 0 then .error .invalidPiecesLength
  else .ok (chunksExact pieceHashLen data)

def parseMode (info : Bencode) : Except Error Mode :=
  match info.get "length" with
  | .ok (.int length) => Mode.single <$> toNat length
  | .ok _ => .error .unexpectedType
  | .error _ => do
    let files ← liftBencode (info.getList "files")
    Mode.multiple <$> files.mapM parseFile

def parseInfo (info : Bencode) : Except Error (String × Nat × List PieceHash × Mode) := do
  let name ← liftBencode (info.getUtf8 "name")
  let pieceLength ← toNat (← liftBencode (info.getInt "piece length"))
  let pieces ← parsePieces (← liftBencode (info.getBytes "pieces"))
  let mode ← parseMode info
  return (name, pieceLength, pieces, mode)

def tryFrom (sha1 : Sha1) (data : Bytes) : Except Error Metainfo := do
  let root ← liftBencode (Bencode.decode data)
  let announce ← parseAnnounces root
  let info ← liftBencode (root.get "info")
  let infoBytes := info.encode
  let (name, pieceLength, pieces, mode) ← parseInfo info
  let metainfo : Metainfo :=
    { name, announce, infoBytes, infoHash := sha1 infoBytes, pieceLength, pieces, mode
      comment := (root.getUtf8 "comment").toOption
      createdBy := (root.getUtf8 "created by").toOption
      createdAt := (root.getInt "creation date").toOption
      urlList := parseUrlList root }
  metainfo.validate
  return metainfo

theorem validate_ok_iff (m : Metainfo) : m.validate = .ok () ↔
    m.totalSize < wrap (m.pieceLength * m.pieces.length) ∧ m.totalSize ≤ maxTorrentSize := by
  simp only [validate, bind, Except.bind, throw, throwThe, MonadExceptOf.throw, pure, Except.pure]
  split_ifs with h1 h2 <;> simp <;> omega

theorem totalSize_eq_sum {m : Metainfo} (h : m.fileLengths.sum < 2 ^ 64) :
    m.totalSize = m.fileLengths.sum := by
  unfold totalSize fileLengths at *
  cases hm : m.mode with
  | single length => simp
  | multiple files =>
    rw [hm] at h
    exact wrap_of_lt h

theorem tryFrom_validates {sha1 : Sha1} {data : Bytes} {m : Metainfo}
    (h : tryFrom sha1 data = .ok m) : m.validate = .ok () := by
  simp only [tryFrom, bind, Except.bind, pure, Except.pure] at h
  repeat' split at h
  all_goals first
    | contradiction
    | (simp only [Except.ok.injEq] at h; subst h; assumption)

end Metainfo

end Tortue
