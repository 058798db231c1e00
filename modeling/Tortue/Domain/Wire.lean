import Tortue.Domain.Message

namespace Tortue

open Collections

def utf8Bytes (s : String) : Bytes := s.toUTF8.data.toList

-- `(n as u32).to_be_bytes()`
def u32Bytes (n : Nat) : Bytes :=
  [(n / 2 ^ 24).toUInt8, (n / 2 ^ 16).toUInt8, (n / 2 ^ 8).toUInt8, n.toUInt8]

def readU32 (payload : Bytes) (offset : Nat) : Nat :=
  ((payload.drop offset).take 4).foldl (fun n b => n * 2 ^ 8 + b.toNat) 0

namespace ExtensionHandshake

def readExtension (e : Bytes × Bencode) : Option (String × UInt8) := do
  let name ← fromUtf8 e.1
  match e.2 with
  | .int n => if 0 ≤ n.toInt ∧ n.toInt ≤ 255 then some (name, n.toInt.toNat.toUInt8) else none
  | _ => none

def readExtensions (payload : Bencode) : HashMap String UInt8 :=
  match payload.get "m" with
  | .ok (.dict m) => (m.filterMap readExtension).foldl (fun found e => found.insert e.1 e.2) .empty
  | _ => .empty

def readMetadataSize (payload : Bencode) : Option Nat :=
  match payload.getInt "metadata_size" with
  | .ok n => if 0 ≤ n.toInt then some n.toInt.toNat else none
  | .error _ => none

def fromBencode (payload : Bencode) : ExtensionHandshake where
  extensions := readExtensions payload
  metadataSize := readMetadataSize payload

def extensionEntries (o : IterOrder) (extensions : HashMap String UInt8) :
    List (Bytes × Bencode) :=
  (o.arrange extensions.entries).foldl (fun m e =>
    Bencode.dictInsert (utf8Bytes e.1) (.int (Int64.ofNat e.2.toNat)) m) []

def encode (o : IterOrder) (hs : ExtensionHandshake) : Bytes :=
  let m := Bencode.dictInsert (ByteStr "m") (.dict (extensionEntries o hs.extensions)) []
  let fields := match hs.metadataSize with
    | some size =>
      Bencode.dictInsert (ByteStr "metadata_size") (.int (UtMetadataMessage.asI64 size)) m
    | none => m
  (Bencode.dict fields).encode

end ExtensionHandshake

namespace Message

def encodeRange (range : BlockRange) : Bytes :=
  u32Bytes range.pieceIndex ++ u32Bytes range.pieceOffset ++ u32Bytes range.len

def decodeRange (payload : Bytes) : BlockRange :=
  ⟨readU32 payload 0, readU32 payload 4, readU32 payload 8⟩

def encode (o : IterOrder) : Message → Bytes
  | .keepAlive => []
  | .choke => [0]
  | .unchoke => [1]
  | .interested => [2]
  | .notInterested => [3]
  | .havePiece index => 4 :: u32Bytes index
  | .bitfield bits => 5 :: bits
  | .request range => 6 :: encodeRange range
  | .piece range data => 7 :: (u32Bytes range.pieceIndex ++ u32Bytes range.pieceOffset ++ data)
  | .cancel range => 8 :: encodeRange range
  | .extensionHandshake hs => 20 :: 0 :: hs.encode o
  | .extension extId payload => 20 :: extId :: payload
  | .haveAll => [14]
  | .haveNone => [15]
  | .suggestPiece index => 13 :: u32Bytes index
  | .rejectRequest range => 16 :: encodeRange range
  | .allowedFast index => 17 :: u32Bytes index
  | .unimplemented => []

def expectLength (payload : Bytes) (length : Nat) (message : Message) : Except Error Message :=
  if payload.length ≠ length then .error .invalidMessage else .ok message

def decodeExtended (payload : Bytes) : Except Error Message :=
  match payload with
  | [] => .error .invalidMessage
  | extId :: extPayload =>
    if extId = 0 then do
      let bencoded ← liftBencode (Bencode.decode extPayload)
      return .extensionHandshake (ExtensionHandshake.fromBencode bencoded)
    else .ok (.extension extId extPayload)

def decodePiece (payload : Bytes) : Except Error Message :=
  if payload.length < 8 then .error .invalidMessage
  else .ok (.piece ⟨readU32 payload 0, readU32 payload 4, payload.length - 8⟩ (payload.drop 8))

def decode (data : Bytes) : Except Error Message :=
  match data with
  | [] => .ok .keepAlive
  | msgId :: payload =>
    match msgId.toNat with
    | 0 => .ok .choke
    | 1 => .ok .unchoke
    | 2 => .ok .interested
    | 3 => .ok .notInterested
    | 4 => expectLength payload 4 (.havePiece (readU32 payload 0))
    | 5 => .ok (.bitfield payload)
    | 6 => expectLength payload 12 (.request (decodeRange payload))
    | 7 => decodePiece payload
    | 8 => expectLength payload 12 (.cancel (decodeRange payload))
    | 20 => decodeExtended payload
    | 13 => expectLength payload 4 (.suggestPiece (readU32 payload 0))
    | 14 => expectLength payload 0 .haveAll
    | 15 => expectLength payload 0 .haveNone
    | 16 => expectLength payload 12 (.rejectRequest (decodeRange payload))
    | 17 => expectLength payload 4 (.allowedFast (readU32 payload 0))
    | _ => .ok .unimplemented

end Message

end Tortue
