import Tortue.Adapters.Barrier
import Tortue.Adapters.Custody
import Tortue.Adapters.Exchange
import Tortue.Adapters.PeerListener
import Tortue.Collections.Walk

namespace Tortue

open Collections

namespace Message

def isExtension : Message → Bool
  | .extension _ _ => true
  | _ => false

end Message

structure Transfer (ι : Type) where
  leecher : Swarm
  seeders : ι → Swarm
  toLeecher : ι → List Message.Sending
  toSeeder : ι → List Message.Sending
  written : List (BlockRange × Bytes)
  closed : List SocketAddr

namespace Transfer

inductive Move (ι : Type) where
  | leecherConnected (i : ι) (direction : ConnectionDirection)
  | seederConnected (i : ι) (direction : ConnectionDirection)
  | leecherReceives (i : ι)
  | seederReceives (i : ι)
  | leecherLearns (i : ι)
  | seederLearns (i : ι)
  | readCompletes (i : ι) (range : BlockRange)
  | leecherTick (tick : Tick)
  | seederTick (i : ι) (tick : Tick)
  deriving DecidableEq

namespace Move

def isTick {ι : Type} : Move ι → Bool
  | .leecherTick _ | .seederTick _ _ => true
  | _ => false

def advances {ι : Type} : Move ι → Bool
  | .leecherTick _ | .seederTick _ _ | .leecherLearns _ | .seederLearns _ => false
  | _ => true

end Move

def sentTo (o : IterOrder) (x : SocketAddr) : Output → Option Message.Sending
  | .sendToPeer a message => if a = x then some (o, message) else none
  | .broadcast message => some (o, message)
  | _ => none

def arrival (x : Message.Sending) : Option Message :=
  ((Message.readFrom (x.2.frame x.1)).map Prod.fst).toOption

def serveRead (m : Metainfo) (files : List OutputFile) (range : BlockRange) :
    Except IoError Bytes := do
  let offset ← (DiskStorage.new m).storageOffset range
  DiskStorage.readFromFiles files offset range.len

def greeting (o : IterOrder) (m : Metainfo) : Message.Sending :=
  (o, .extensionHandshake (sessionHandshake (some m.infoBytes.length)))

def opens (m : Metainfo) (id : PeerId) (direction : ConnectionDirection) (addr : SocketAddr) :
    Input := (connectedEvent (TcpPeerIo.outbound m.infoHash id) direction).input addr

variable {ι : Type}

def leecherTook (t : Topology ι) (o : IterOrder) (e : Transfer ι) (r : Swarm × List Output) :
    Transfer ι :=
  { e with
    leecher := r.1
    toSeeder := fun i => e.toSeeder i ++ r.2.filterMap (sentTo o (t.addr i))
    written := e.written ++ r.2.filterMap Output.written
    closed := e.closed ++ disconnects r.2 }

variable [DecidableEq ι]

def seederTook (t : Topology ι) (o : IterOrder) (e : Transfer ι) (i : ι)
    (r : Swarm × List Output) : Transfer ι :=
  { e with
    seeders := Function.update e.seeders i r.1
    toLeecher := Function.update e.toLeecher i
      (e.toLeecher i ++ r.2.filterMap (sentTo o (t.own i)))
    closed := e.closed ++ disconnects r.2 }

def leecherOpens (sha1 : Sha1) (m : Metainfo) (t : Topology ι) (e : Transfer ι) (i : ι)
    (direction : ConnectionDirection) (env : Entropy) : Option (Transfer ι) :=
  if e.leecher.peerRegistry.containsAddr (t.addr i) then none
  else some (e.leecherTook t env.order (e.leecher.step sha1
    (opens m (e.seeders i).clientId direction (t.addr i), env)))

def seederOpens (sha1 : Sha1) (m : Metainfo) (t : Topology ι) (e : Transfer ι) (i : ι)
    (direction : ConnectionDirection) (env : Entropy) : Option (Transfer ι) :=
  if (e.seeders i).peerRegistry.containsAddr (t.own i) then none
  else some (e.seederTook t env.order i ((e.seeders i).step sha1
    (opens m e.leecher.clientId direction (t.own i), env)))

def atLeecher (sha1 : Sha1) (t : Topology ι) (e : Transfer ι) (i : ι) (learns : Bool)
    (env : Entropy) : Option (Transfer ι) :=
  match e.toLeecher i with
  | [] => none
  | frame :: rest =>
    if frame.2.isExtension ≠ learns then none
    else if !e.leecher.peerRegistry.containsAddr (t.addr i) then none
    else
      match arrival frame with
      | none => none
      | some message =>
        some ({ e with toLeecher := Function.update e.toLeecher i rest }.leecherTook t env.order
          (e.leecher.step sha1 (.messageReceived (t.addr i) message, env)))

def atSeeder (sha1 : Sha1) (t : Topology ι) (e : Transfer ι) (i : ι) (learns : Bool)
    (env : Entropy) : Option (Transfer ι) :=
  match e.toSeeder i with
  | [] => none
  | frame :: rest =>
    if frame.2.isExtension ≠ learns then none
    else if !(e.seeders i).peerRegistry.containsAddr (t.own i) then none
    else
      match arrival frame with
      | none => none
      | some message =>
        some ({ e with toSeeder := Function.update e.toSeeder i rest }.seederTook t env.order i
          ((e.seeders i).step sha1 (.messageReceived (t.own i) message, env)))

def completeRead (sha1 : Sha1) (m : Metainfo) (disk : ι → List OutputFile) (t : Topology ι)
    (e : Transfer ι) (i : ι) (range : BlockRange) (env : Entropy) : Option (Transfer ι) :=
  match (e.seeders i).pendingReads.get range with
  | none => none
  | some read =>
    match serveRead m (disk i) range with
    | .error _ => none
    | .ok data => some (e.seederTook t env.order i
        ((e.seeders i).step sha1 (.uploadReadCompleted read.id range data, env)))

def step (sha1 : Sha1) (m : Metainfo) (disk : ι → List OutputFile) (t : Topology ι)
    (e : Transfer ι) (i : Move ι × Entropy) : Option (Transfer ι) :=
  if e.leecher.pieces.isComplete then none
  else
    match i.1 with
    | .leecherConnected k direction => e.leecherOpens sha1 m t k direction i.2
    | .seederConnected k direction => e.seederOpens sha1 m t k direction i.2
    | .leecherReceives k => e.atLeecher sha1 t k false i.2
    | .seederReceives k => e.atSeeder sha1 t k false i.2
    | .leecherLearns k => e.atLeecher sha1 t k true i.2
    | .seederLearns k => e.atSeeder sha1 t k true i.2
    | .readCompletes k range => e.completeRead sha1 m disk t k range i.2
    | .leecherTick tick =>
      some (e.leecherTook t i.2.order (e.leecher.step sha1 (.tick tick, i.2)))
    | .seederTick k tick =>
      some (e.seederTook t i.2.order k ((e.seeders k).step sha1 (.tick tick, i.2)))

structure Seeds (sha1 : Sha1) (m : Metainfo) (s : Swarm) : Prop where
  reachable : ∃ clientId, Swarm.Reachable sha1 clientId m s
  complete : s.pieces.isComplete = true
  uploads : s.status.upload = true
  alone : s.peerRegistry = .new m.pieces.length
  idle : s.pendingReads = .empty

structure Started (sha1 : Sha1) (m : Metainfo) (content : Bytes) (disk : ι → List OutputFile)
    (e : Transfer ι) : Prop where
  reachable : ∃ clientId, Swarm.Reachable sha1 clientId m e.leecher
  matching : e.leecher.pieces.Matches sha1 (pieceBytes m content)
  downloads : e.leecher.status.download = true
  alone : e.leecher.peerRegistry = .new m.pieces.length
  unassigned : e.leecher.blockAssignments = .new
  seeders : ∀ i, Seeds sha1 m (e.seeders i)
  identities : Function.Injective fun i => (e.seeders i).clientId
  disks : ∀ i, DiskStorage.Laid m (disk i) ∧ DiskStorage.bytes (disk i) = content
  toLeecher : ∀ i, ∃ o, e.toLeecher i = [greeting o m]
  toSeeder : ∀ i, ∃ o, e.toSeeder i = [greeting o m]
  written : e.written = []
  closed : e.closed = []

end Transfer

structure Metainfo.Wired (m : Metainfo) : Prop where
  divided : m.Divided
  narrow : m.Narrow
  bits : (m.pieces.length + 7) / 8 < Message.maxMessageSize
  info : m.infoBytes.length < 2 ^ 63

def Transfer.Few (ι : Type) [Fintype ι] : Prop := 18 * Fintype.card ι + 64 ≤ Message.maxMessageSize

structure Metainfo.Describes (sha1 : Sha1) (m : Metainfo) (content : Bytes) : Prop where
  length : content.length = m.totalSize
  hashes : ∀ i < m.pieces.length, m.pieces[i]? = some (sha1 (pieceBytes m content i))

end Tortue
