import Tortue.Domain.Wire

namespace Tortue

open Collections

inductive PeerEvent where
  | connected (peerId : PeerId) (direction : ConnectionDirection) (peerExtensions : PeerExtensions)
  | disconnected
  | messageReceived (message : Message)
  deriving DecidableEq

inductive SessionState where
  | connecting
  | connected
  | ended
  deriving DecidableEq, Repr

-- The task that `connect` or `accept` spawns, up to the event that ends it.
structure Session where
  addr : SocketAddr
  direction : ConnectionDirection
  state : SessionState
  cancelled : Bool
  deriving DecidableEq

inductive SessionMove where
  | connect (peerId : PeerId) (peerExtensions : PeerExtensions)
  | receive (message : Message)
  | reconnect
  | stop

namespace Session

def run (s : Session) : SessionMove → Session × Option PeerEvent
  | .connect peerId peerExtensions =>
    if s.state = .connecting then
      ({ s with state := .connected }, some (.connected peerId s.direction peerExtensions))
    else (s, none)
  | .receive message => (s, if s.state = .connected then some (.messageReceived message) else none)
  | .reconnect =>
    if s.state = .connected ∧ s.direction = .outbound then
      ({ s with state := .connecting }, none)
    else (s, none)
  | .stop =>
    if s.state = .ended then (s, none) else ({ s with state := .ended }, some .disconnected)

end Session

-- The handshake that `run_session` sends to a peer with the extension protocol.
def sessionHandshake (metadataSize : Option Nat) : ExtensionHandshake where
  extensions := (HashMap.empty.insert "ut_metadata" utMetadataExtId).insert "ut_pex" utPexExtId
  metadataSize := metadataSize

structure TcpPeerConnector where
  peerCancels : HashMap SocketAddr Nat
  sessions : List Session

namespace TcpPeerConnector

def new : TcpPeerConnector := ⟨.empty, []⟩

def spawn (c : TcpPeerConnector) (addr : SocketAddr) (direction : ConnectionDirection) :
    TcpPeerConnector where
  peerCancels := c.peerCancels.insert addr c.sessions.length
  sessions := c.sessions ++ [⟨addr, direction, .connecting, false⟩]

def connect (c : TcpPeerConnector) (addr : SocketAddr) : TcpPeerConnector := c.spawn addr .outbound

def accept (c : TcpPeerConnector) (addr : SocketAddr) : TcpPeerConnector := c.spawn addr .inbound

def disconnect (c : TcpPeerConnector) (addr : SocketAddr) : TcpPeerConnector :=
  match c.peerCancels.get addr with
  | none => c
  | some number =>
    { peerCancels := c.peerCancels.remove addr
      sessions := c.sessions.modify number fun s => { s with cancelled := true } }

end TcpPeerConnector

inductive PeerIoError where
  | io
  | messageTooLarge
  | messageDecode (e : Message.Error)
  deriving DecidableEq, Repr

-- The reader stands for the bytes that are still to come on the stream.
def readExact (n : Nat) (reader : Bytes) : Except PeerIoError (Bytes × Bytes) :=
  if reader.length < n then .error .io else .ok (reader.take n, reader.drop n)

namespace Message

def maxMessageSize : Nat := 1024 * 1024

def frame (o : IterOrder) (m : Message) : Bytes :=
  u32Bytes (m.encode o).length ++ m.encode o

def readFrom (reader : Bytes) : Except PeerIoError (Message × Bytes) := do
  let (header, reader) ← readExact 4 reader
  let len := readU32 header 0
  if len > maxMessageSize then throw .messageTooLarge
  let (payload, reader) ← readExact len reader
  match decode payload with
  | .ok message => return (message, reader)
  | .error e => throw (.messageDecode e)

end Message

end Tortue
