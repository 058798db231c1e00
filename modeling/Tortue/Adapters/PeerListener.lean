import Tortue.Domain.Handshake
import Tortue.Adapters.Framing

namespace Tortue

open Collections

structure SwarmRegistry (χ : Type) where
  inner : HashMap InfoHash χ

namespace SwarmRegistry

variable {χ : Type}

def new : SwarmRegistry χ := ⟨.empty⟩

def register (r : SwarmRegistry χ) (infoHash : InfoHash) (tx : χ) : SwarmRegistry χ :=
  if r.inner.contains infoHash then r else ⟨r.inner.insert infoHash tx⟩

def unregister (r : SwarmRegistry χ) (infoHash : InfoHash) : SwarmRegistry χ :=
  ⟨r.inner.remove infoHash⟩

def route (r : SwarmRegistry χ) (infoHash : InfoHash) : Option χ := r.inner.get infoHash

inductive Call (χ : Type) where
  | register (infoHash : InfoHash) (tx : χ)
  | unregister (infoHash : InfoHash)
  | route (infoHash : InfoHash)

def step (r : SwarmRegistry χ) : Call χ → SwarmRegistry χ × List (Option χ)
  | .register infoHash tx => (r.register infoHash tx, [])
  | .unregister infoHash => (r.unregister infoHash, [])
  | .route infoHash => (r, [r.route infoHash])

end SwarmRegistry

inductive ConnectError where
  | io
  | timeout
  | swarmChannelClosed
  | peer (e : Handshake.Error)
  | selfConnection
  | infoHashMismatch
  deriving DecidableEq, Repr

def readHandshake (reader : Bytes) : Except ConnectError (Handshake × Bytes) :=
  match readExact Handshake.handshakeLen reader with
  | .error _ => .error .io
  | .ok (buf, reader) =>
    match Handshake.decode buf with
    | .error e => .error (.peer e)
    | .ok handshake => .ok (handshake, reader)

namespace TcpPeerIo

-- What `connect` writes as soon as the connection is up.
def outbound (infoHash : InfoHash) (clientId : PeerId) : Handshake :=
  ⟨infoHash, clientId, false, true, true⟩

-- The checks of `connect` on the other side's bytes, and the bytes that follow them.
def connect (infoHash : InfoHash) (clientId : PeerId) (reader : Bytes) :
    Except ConnectError (Handshake × Bytes) := do
  let (inbound, reader) ← readHandshake reader
  if inbound.peerId = clientId then throw .selfConnection
  if inbound.infoHash ≠ infoHash then throw .infoHashMismatch
  return (inbound, reader)

end TcpPeerIo

structure InboundPeer where
  handshake : Handshake
  stream : Bytes
  deriving DecidableEq

-- How far the listener gets with its answer within `CONNECT_TIMEOUT`.
inductive Writing where
  | whole
  | cut (n : Nat)
  | late (n : Nat)

-- The channel of a swarm takes the peer, is closed, or stays full for `CONNECT_TIMEOUT`.
inductive HandOver where
  | taken
  | closed
  | full
  deriving DecidableEq

-- What the network and the swarm do to one visit; it is not timely when the handshake is late.
structure Visit where
  timely : Bool
  writing : Writing
  handOver : HandOver

structure Handled (χ : Type) where
  answer : Option Bytes
  handed : Option (χ × InboundPeer)
  result : Except ConnectError Unit

namespace TcpPeerListenner

variable {χ : Type}

def pass (tx : χ) (peer : InboundPeer) (answer : Bytes) : HandOver → Handled χ
  | .taken => ⟨some answer, some (tx, peer), .ok ()⟩
  | .closed => ⟨some answer, none, .error .swarmChannelClosed⟩
  | .full => ⟨some answer, none, .error .timeout⟩

def answer (tx : χ) (peer : InboundPeer) (outbound : Handshake) (v : Visit) : Handled χ :=
  match v.writing with
  | .whole => pass tx peer outbound.encode v.handOver
  | .cut n => ⟨some (outbound.encode.take n), none, .error .io⟩
  | .late n => ⟨some (outbound.encode.take n), none, .error .timeout⟩

end TcpPeerListenner

-- `accept` runs a session only for a peer of its own torrent.
def TcpPeerConnector.admits (infoHash : InfoHash) (inbound : InboundPeer) : Bool :=
  decide (inbound.handshake.infoHash = infoHash)

-- The event with which `run_session` opens a session.
def connectedEvent (handshake : Handshake) (direction : ConnectionDirection) : PeerEvent :=
  .connected handshake.peerId direction ⟨handshake.dhtProtocol, handshake.fastExtension⟩

end Tortue
