import Tortue.Domain.Bitfield
import Tortue.Domain.Message
import Tortue.Domain.Torrent

namespace Tortue

open Collections

structure Metadata where
  infoHash : InfoHash
  totalSize : Option Nat
  pieces : List (Option Bytes)
  peers : HashMap SocketAddr UInt8

namespace Metadata

inductive Input where
  | peersDiscovered (addrs : List SocketAddr)
  | peerDisconnected (addr : SocketAddr)
  | messageReceived (addr : SocketAddr) (message : Message)

inductive Output where
  | connectPeer (addr : SocketAddr)
  | sendToPeer (addr : SocketAddr) (message : Message)
  | done (bytes : Bytes)
  deriving DecidableEq

def pieceSize : Nat := 16 * 1024

def new (infoHash : InfoHash) : Metadata where
  infoHash := infoHash
  totalSize := none
  pieces := []
  peers := .empty

def makeRequest (addr : SocketAddr) (extId : UInt8) (piece : Nat) : Output :=
  .sendToPeer addr (.extension extId (UtMetadataMessage.request piece).encode)

def missing (s : Metadata) : List Nat :=
  (List.range s.pieces.length).filter fun piece => s.pieces[piece]? = some none

def requestMissingFrom (s : Metadata) (addr : SocketAddr) : List Output :=
  match s.peers.get addr with
  | none => []
  | some extId => s.missing.map (makeRequest addr extId)

def requestPieceFrom (s : Metadata) (addr : SocketAddr) (piece : Nat) : List Output :=
  match s.peers.get addr with
  | none => []
  | some extId => [makeRequest addr extId piece]

def contents (s : Metadata) : Bytes := s.pieces.flatMap fun p => p.getD []

def discard (s : Metadata) : Metadata := { s with pieces := s.pieces.map fun _ => none }

def tryFinalize (sha1 : Sha1) (order : IterOrder) (s : Metadata) : Metadata × List Output :=
  if sha1 s.contents = s.infoHash then (s, [.done s.contents])
  else (s.discard, (order.arrange s.peers.keys).flatMap s.discard.requestMissingFrom)

def isComplete (s : Metadata) : Bool := s.pieces.all Option.isSome

def store (s : Metadata) (piece : Nat) (data : Bytes) : Metadata :=
  { s with pieces := s.pieces.set piece (some data) }

def onData (sha1 : Sha1) (order : IterOrder) (s : Metadata) (piece : Nat) (data : Bytes) :
    Metadata × List Output :=
  if s.pieces[piece]? ≠ some none then (s, [])
  else if (s.store piece data).isComplete then (s.store piece data).tryFinalize sha1 order
  else (s.store piece data, [])

def onReject (order : IterOrder) (s : Metadata) (addr : SocketAddr) (piece : Nat) : List Output :=
  match (order.arrange s.peers.keys).find? fun a => a ≠ addr with
  | some a => s.requestPieceFrom a piece
  | none => []

def onPayload (sha1 : Sha1) (order : IterOrder) (s : Metadata) (addr : SocketAddr)
    (payload : Bytes) : Metadata × List Output :=
  match UtMetadataMessage.decode payload with
  | .ok (.data piece _ data) => s.onData sha1 order piece data
  | .ok (.reject piece) => (s, s.onReject order addr piece)
  | .ok (.request _) | .ok .unimplemented | .error _ => (s, [])

def announceSize (s : Metadata) (metadataSize : Nat) : Metadata :=
  match s.totalSize with
  | some _ => s
  | none =>
    { s with
      totalSize := some metadataSize
      pieces := List.replicate (Bitfield.divCeil metadataSize pieceSize) none }

def onHandshake (s : Metadata) (addr : SocketAddr) (hs : ExtensionHandshake) :
    Metadata × List Output :=
  match hs.extensions.get "ut_metadata", hs.metadataSize with
  | some extId, some metadataSize =>
    let s := s.announceSize metadataSize
    let s := { s with peers := s.peers.insert addr extId }
    (s, s.requestMissingFrom addr)
  | _, _ => (s, [])

def onMessage (sha1 : Sha1) (order : IterOrder) (s : Metadata) (addr : SocketAddr) :
    Message → Metadata × List Output
  | .extensionHandshake hs => s.onHandshake addr hs
  | .extension extId payload =>
    if s.peers.get addr ≠ some extId then (s, []) else s.onPayload sha1 order addr payload
  | _ => (s, [])

def step (sha1 : Sha1) (s : Metadata) (i : Input × IterOrder) : Metadata × List Output :=
  match i.1 with
  | .peersDiscovered addrs => (s, addrs.map .connectPeer)
  | .peerDisconnected addr => ({ s with peers := s.peers.remove addr }, [])
  | .messageReceived addr message => s.onMessage sha1 i.2 addr message

end Metadata

end Tortue
