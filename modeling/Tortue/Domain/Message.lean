import Tortue.Collections.HashMap
import Tortue.Domain.Bencode
import Tortue.Domain.Peer

namespace Tortue

open Collections

def blockSize : Nat := 16 * 1024

structure BlockRange where
  pieceIndex : Nat
  pieceOffset : Nat
  len : Nat
  deriving DecidableEq, Repr

structure ExtensionHandshake where
  extensions : HashMap String UInt8
  metadataSize : Option Nat
  deriving DecidableEq

inductive Message where
  | keepAlive
  | choke
  | unchoke
  | interested
  | notInterested
  | havePiece (piece : Nat)
  | bitfield (bits : Bytes)
  | request (range : BlockRange)
  | piece (range : BlockRange) (data : Bytes)
  | cancel (range : BlockRange)
  | extensionHandshake (hs : ExtensionHandshake)
  | extension (extId : UInt8) (payload : Bytes)
  | suggestPiece (piece : Nat)
  | haveAll
  | haveNone
  | rejectRequest (range : BlockRange)
  | allowedFast (piece : Nat)
  | unimplemented
  deriving DecidableEq

namespace Message

inductive Error where
  | invalidMessage
  | bencode (e : Bencode.Error)
  deriving DecidableEq, Repr

def needsFast : Message → Bool
  | .haveAll | .haveNone | .suggestPiece _ | .rejectRequest _ | .allowedFast _ => true
  | _ => false

def affectsScheduling : Message → Bool
  | .unchoke | .allowedFast _ | .piece _ _ => true
  | _ => false

def liftBencode {α : Type} : Except Bencode.Error α → Except Error α
  | .ok a => .ok a
  | .error e => .error (.bencode e)

end Message

def utMetadataExtId : UInt8 := 1

def utPexExtId : UInt8 := 2

inductive UtMetadataMessage where
  | request (piece : Nat)
  | data (piece totalSize : Nat) (block : Bytes)
  | reject (piece : Nat)
  | unimplemented
  deriving DecidableEq, Repr

namespace UtMetadataMessage

-- The casts between `i64` and `usize` keep the 64 bits.
def asUsize (n : Int64) : Nat := n.toUInt64.toNat

def asI64 (n : Nat) : Int64 := (UInt64.ofNat n).toInt64

def decode (payload : Bytes) : Except Message.Error UtMetadataMessage := do
  let (dict, rest) ← Message.liftBencode (Bencode.decodeWithRest payload)
  let msgType ← Message.liftBencode (dict.getInt "msg_type")
  let piece := asUsize (← Message.liftBencode (dict.getInt "piece"))
  if msgType = 0 then return .request piece
  else if msgType = 1 then
    let totalSize := asUsize (← Message.liftBencode (dict.getInt "total_size"))
    return .data piece totalSize rest
  else if msgType = 2 then return .reject piece
  else return .unimplemented

def fields (entries : List (String × Int64)) : Bencode :=
  .dict (entries.foldl (fun dict e => Bencode.dictInsert (ByteStr e.1) (.int e.2) dict) [])

def encode : UtMetadataMessage → Bytes
  | .request piece => (fields [("msg_type", 0), ("piece", asI64 piece)]).encode
  | .data piece totalSize block =>
    (fields [("msg_type", 1), ("piece", asI64 piece), ("total_size", asI64 totalSize)]).encode
      ++ block
  | .reject piece => (fields [("msg_type", 2), ("piece", asI64 piece)]).encode
  | .unimplemented => []

end UtMetadataMessage

def u16OfBe (hi lo : UInt8) : UInt16 := hi.toUInt16 <<< 8 ||| lo.toUInt16

def u16ToBe (n : UInt16) : Bytes := [(n >>> 8).toUInt8, n.toUInt8]

def splitAddr (n : Nat) (c : Octets (n + 2)) : Octets n × UInt16 :=
  (⟨c.val.take n, by simp [c.property]⟩, u16OfBe (c.val.getD n 0) (c.val.getD (n + 1) 0))

def parseSocketAddrs (bytes : Bytes) : Except Message.Error (List SocketAddr) :=
  if bytes.length % 6 = 0 then
    .ok ((chunksExact 6 bytes).map fun c => .v4 (splitAddr 4 c).1 (splitAddr 4 c).2)
  else if bytes.length % 18 = 0 then
    .ok ((chunksExact 18 bytes).map fun c => .v6 (splitAddr 16 c).1 (splitAddr 16 c).2 0 0)
  else .error .invalidMessage

structure UtPexMessage where
  addrs : HashSet SocketAddr
  deriving DecidableEq

namespace UtPexMessage

structure Fields where
  added : HashSet SocketAddr
  dropped : HashSet SocketAddr
  hasPexField : Bool

def readEntry (f : Fields) (e : Bytes × Bencode) : Except Message.Error Fields :=
  match e.2 with
  | .bytes bytes =>
    if e.1 = ByteStr "added6" ∨ e.1 = ByteStr "added" then do
      let addrs ← parseSocketAddrs bytes
      return { f with hasPexField := true, added := addrs.foldl HashSet.add f.added }
    else if e.1 = ByteStr "dropped6" ∨ e.1 = ByteStr "dropped" then do
      let addrs ← parseSocketAddrs bytes
      return { f with hasPexField := true, dropped := addrs.foldl HashSet.add f.dropped }
    else .ok f
  | _ => .ok f

def decode (payload : Bytes) : Except Message.Error UtPexMessage := do
  match ← Message.liftBencode (Bencode.decode payload) with
  | .dict entries =>
    let f ← entries.foldlM readEntry ⟨.empty, .empty, false⟩
    if !f.hasPexField then throw .invalidMessage
    return ⟨(f.added.keys.filter fun a => !f.dropped.contains a).foldl HashSet.add .empty⟩
  | _ => throw .invalidMessage

def addedBytes : SocketAddr → Bytes
  | .v4 ip port => ip.val ++ u16ToBe port
  | .v6 _ _ _ _ => []

def added6Bytes : SocketAddr → Bytes
  | .v4 _ _ => []
  | .v6 ip port _ _ => ip.val ++ u16ToBe port

def encode (o : IterOrder) (m : UtPexMessage) : Bytes :=
  let addrs := o.arrange m.addrs.keys
  let added := addrs.flatMap addedBytes
  let added6 := addrs.flatMap added6Bytes
  let dict := if added ≠ [] then Bencode.dictInsert (ByteStr "added") (.bytes added) [] else []
  let dict :=
    if added6 ≠ [] then Bencode.dictInsert (ByteStr "added6") (.bytes added6) dict else dict
  (Bencode.dict dict).encode

end UtPexMessage

end Tortue
