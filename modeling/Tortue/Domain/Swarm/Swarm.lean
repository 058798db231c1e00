import Tortue.Domain.Swarm.BlockAssignment
import Tortue.Domain.Swarm.PeerRegistry
import Tortue.Domain.Swarm.PieceManager
import Mathlib.Data.Prod.Lex
import Mathlib.Data.List.Sort
import Mathlib.Data.Stream.Defs
import Mathlib.Order.BooleanAlgebra.Defs

namespace Tortue

open Collections

structure UploadReadId where
  value : Nat
  deriving DecidableEq, Repr

inductive SwarmStatus where
  | active
  | stopped
  | downloadOnly
  | uploadOnly
  deriving DecidableEq, Repr

namespace SwarmStatus

def download : SwarmStatus → Bool
  | .stopped | .uploadOnly => false
  | .downloadOnly | .active => true

def upload : SwarmStatus → Bool
  | .stopped | .downloadOnly => false
  | .uploadOnly | .active => true

end SwarmStatus

inductive SwarmCommand where
  | setStatus (status : SwarmStatus)
  deriving DecidableEq, Repr

inductive Tick where
  | block
  | pex
  deriving DecidableEq, Repr

inductive Input where
  | peersDiscovered (addrs : List SocketAddr)
  | peerConnected (id : PeerId) (direction : ConnectionDirection) (addr : SocketAddr)
      (extensions : PeerExtensions)
  | peerDisconnected (addr : SocketAddr)
  | messageReceived (addr : SocketAddr) (message : Message)
  | localPiece (pieceIndex : Nat) (data : Bytes)
  | uploadReadCompleted (id : UploadReadId) (range : BlockRange) (data : Bytes)
  | swarmCommand (cmd : SwarmCommand)
  | tick (tick : Tick)

inductive Output where
  | connectPeer (addr : SocketAddr)
  | disconnectPeer (addr : SocketAddr)
  | sendToPeer (addr : SocketAddr) (message : Message)
  | writePiece (range : BlockRange) (data : Bytes)
  | readForUpload (id : UploadReadId) (range : BlockRange)
  | cancelUploadRead (id : UploadReadId)
  | broadcast (message : Message)
  | completed
  deriving DecidableEq

structure PendingRead where
  id : UploadReadId
  peers : HashSet SocketAddr
  deriving DecidableEq

-- What a step takes from outside its arguments: random draws and hash iteration orders.
structure Entropy where
  rng : Stream' Nat
  order : IterOrder

structure Swarm where
  clientId : PeerId
  metainfo : Metainfo
  peerRegistry : PeerRegistry
  blockAssignments : BlockAssignments
  pieces : PieceManager
  status : SwarmStatus
  downloadedBytes : Nat
  uploadedBytes : Nat
  pendingReads : HashMap BlockRange PendingRead
  nextUploadReadId : Nat

namespace Swarm

def maxPendingUploads : Nat := 32

def new (clientId : PeerId) (metainfo : Metainfo) : Option Swarm := do
  let pieces ← PieceManager.new metainfo
  return {
    clientId, metainfo, pieces
    peerRegistry := .new metainfo.pieces.length
    blockAssignments := .new
    status := .active
    downloadedBytes := 0
    uploadedBytes := 0
    pendingReads := .empty
    nextUploadReadId := 0 }

structure SwarmSnapshot where
  status : SwarmStatus
  blocksTotal : Nat
  blocksDone : Nat
  blocksInFlight : Nat
  bytesTotal : Nat
  bytesAvailable : Nat
  bytesDownloaded : Nat
  bytesUploaded : Nat
  seeders : List SocketAddr
  leechers : List SocketAddr
  peers : List (SocketAddr × Nat × Nat)

def snapshot (s : Swarm) : SwarmSnapshot where
  status := s.status
  blocksTotal := s.pieces.blocksTotal
  blocksDone := s.pieces.blocksReceived
  blocksInFlight := s.blockAssignments.requestsInFlight
  bytesTotal := s.metainfo.totalSize
  bytesAvailable := s.pieces.availableBytes
  bytesDownloaded := s.downloadedBytes
  bytesUploaded := s.uploadedBytes
  seeders := s.peerRegistry.seeders.keys
  leechers := s.peerRegistry.leechers.keys
  peers := s.peerRegistry.peerStats

def onSwarmCommand (env : Entropy) (s : Swarm) : SwarmCommand → Swarm × List Output
  | .setStatus status =>
    let s := { s with status }
    if s.status.upload then (s, [])
    else
      ({ s with pendingReads := .empty },
        (env.order.arrange s.pendingReads.values).map fun read => .cancelUploadRead read.id)

def onUploadReadCompleted (env : Entropy) (s : Swarm) (id : UploadReadId) (range : BlockRange)
    (data : Bytes) : Swarm × List Output :=
  match s.pendingReads.get range with
  | none => (s, [])
  | some read =>
    if read.id ≠ id then (s, [])
    else
      let s := { s with pendingReads := s.pendingReads.remove range }
      if !s.status.upload then (s, [])
      else
        let addrs := (env.order.arrange read.peers.keys).filter s.peerRegistry.containsAddr
        ({ s with uploadedBytes := s.uploadedBytes + addrs.length * data.length },
          addrs.map fun addr => .sendToPeer addr (.piece range data))

def declareInterest (s : Swarm) (addr : SocketAddr) : List Output :=
  match s.peerRegistry.declareInterest addr with
  | some message => [.sendToPeer addr message]
  | none => []

def cancelUpload (s : Swarm) (addr : SocketAddr) (range : BlockRange) : Swarm × List Output :=
  match s.pendingReads.get range with
  | none => (s, [])
  | some read =>
    let peers := read.peers.remove addr
    if peers.len ≠ 0 then
      ({ s with pendingReads := s.pendingReads.insert range { read with peers } }, [])
    else ({ s with pendingReads := s.pendingReads.remove range }, [.cancelUploadRead read.id])

def withoutPeer (addr : SocketAddr) (read : PendingRead) : Option PendingRead :=
  let peers := read.peers.remove addr
  if peers.len = 0 then none else some { read with peers }

def cancelPeerUploads (env : Entropy) (s : Swarm) (addr : SocketAddr) : Swarm × List Output :=
  ({ s with pendingReads := s.pendingReads.retain (withoutPeer addr) },
    ((env.order.arrange s.pendingReads.values).filter fun read =>
      (withoutPeer addr read).isNone).map fun read => .cancelUploadRead read.id)

def onDisconnected (env : Entropy) (s : Swarm) (addr : SocketAddr) : Swarm × List Output :=
  cancelPeerUploads env
    { s with
      peerRegistry := s.peerRegistry.disconnected addr
      blockAssignments := s.blockAssignments.releasePeer addr } addr

def onDiscovered (s : Swarm) (addrs : List SocketAddr) : List Output :=
  if s.pieces.isComplete then []
  else (addrs.filter fun addr => !s.peerRegistry.containsAddr addr).map .connectPeer

def preferedDirection (s : Swarm) (peerId : PeerId) : ConnectionDirection :=
  if s.clientId.gt peerId then .outbound else .inbound

def availabilityMessage (s : Swarm) (extensions : PeerExtensions) : Message :=
  if extensions.fast && s.pieces.isComplete then .haveAll
  else if extensions.fast && s.pieces.hasNoPiece then .haveNone
  else .bitfield s.pieces.bitfieldBytes

def register (s : Swarm) (addr : SocketAddr) (direction : ConnectionDirection) (id : PeerId)
    (extensions : PeerExtensions) : Swarm × List Output :=
  let s := { s with
    blockAssignments := s.blockAssignments.releasePeer addr
    peerRegistry := s.peerRegistry.connected addr id direction extensions }
  (s, .sendToPeer addr (s.availabilityMessage extensions) :: s.declareInterest addr)

def onConnected (env : Entropy) (s : Swarm) (addr : SocketAddr) (direction : ConnectionDirection)
    (id : PeerId) (extensions : PeerExtensions) : Swarm × List Output :=
  match s.peerRegistry.connectionFor id with
  | none => s.register addr direction id extensions
  | some (oldAddr, oldDirection) =>
    if direction = oldDirection ∨ direction ≠ s.preferedDirection id then
      (s, [.disconnectPeer addr])
    else
      let (s, cancelled) := s.onDisconnected env oldAddr
      let (s, greeting) := s.register addr direction id extensions
      (s, cancelled ++ .disconnectPeer oldAddr :: greeting)

def receiveLocalBlock (sha1 : Sha1) (data : Bytes) (pm : PieceManager) (range : BlockRange) :
    PieceManager :=
  (pm.receiveBlock sha1 range ((data.drop range.pieceOffset).take range.len)).2

def localBlocks (pm : PieceManager) (pieceIndex : Nat) (data : Bytes) : List BlockRange :=
  (pm.unreceivedBlocks pieceIndex).takeWhile fun range =>
    range.pieceOffset + range.len ≤ data.length

def onLocalPiece (sha1 : Sha1) (s : Swarm) (pieceIndex : Nat) (data : Bytes) :
    Swarm × List Output :=
  ({ s with pieces :=
      (localBlocks s.pieces pieceIndex data).foldl (receiveLocalBlock sha1 data) s.pieces }, [])

def pendingUploads (s : Swarm) : Nat := (s.pendingReads.values.map fun read => read.peers.len).sum

def onMessageRequest (s : Swarm) (addr : SocketAddr) (range : BlockRange) : Swarm × List Output :=
  if !s.status.upload then (s, [])
  else if !s.pieces.validUploadRange range then (s, [])
  else if s.pendingUploads ≥ maxPendingUploads then (s, [])
  else
    match s.pendingReads.get range with
    | some read =>
      ({ s with pendingReads :=
          s.pendingReads.insert range { read with peers := read.peers.add addr } }, [])
    | none =>
      let id : UploadReadId := ⟨s.nextUploadReadId⟩
      ({ s with
          nextUploadReadId := s.nextUploadReadId + 1
          pendingReads := s.pendingReads.insert range ⟨id, HashSet.add .empty addr⟩ },
        [.readForUpload id range])

def completionOutputs (env : Entropy) (s : Swarm) : List Output :=
  if s.pieces.isComplete then
    .completed :: (env.order.arrange s.peerRegistry.seeders.keys).map .disconnectPeer
  else []

def onMessagePiece (sha1 : Sha1) (env : Entropy) (s : Swarm) (addr : SocketAddr)
    (range : BlockRange) (data : Bytes) : Swarm × List Output :=
  if !s.blockAssignments.isHolder range addr then (s, [])
  else
    let s := { s with blockAssignments := s.blockAssignments.unassign range addr }
    let (result, pieces) := s.pieces.receiveBlock sha1 range data
    let s := { s with pieces }
    match result with
    | .error _ => (s, [])
    | .ok completed =>
      let s := { s with downloadedBytes := s.downloadedBytes + data.length }
      match completed with
      | none => (s, [])
      | some piece =>
        (s, .broadcast (.havePiece piece.range.pieceIndex) :: .writePiece piece.range piece.data ::
          s.completionOutputs env)

def onExtensionMessage (env : Entropy) (s : Swarm) (addr : SocketAddr) (extId : UInt8)
    (payload : Bytes) : List Output :=
  if extId = utMetadataExtId then
    match UtMetadataMessage.decode payload with
    | .ok (.request piece) =>
      match s.peerRegistry.peerExtensionId addr "ut_metadata" with
      | none => []
      | some peerExtId =>
        let response := UtMetadataMessage.data piece s.metainfo.infoBytes.length
          (s.metainfo.infoBytesBlock piece)
        [.sendToPeer addr (.extension peerExtId response.encode)]
    | _ => []
  else if extId = utPexExtId then
    match UtPexMessage.decode payload with
    | .ok msg => s.onDiscovered (env.order.arrange msg.addrs.keys)
    | .error _ => []
  else []

-- The state of one run of the scheduler's loops.
structure Plan where
  budget : Nat
  progressed : Bool
  holders : HashMap BlockRange Nat
  assignments : BlockAssignments
  rng : Stream' Nat
  outputs : List Output

def budget (s : Swarm) : Nat :=
  (s.peerRegistry.unchoked.map s.blockAssignments.freeSlotsFor).sum

def candidates (r : PeerRegistry) (a : BlockAssignments) (range : BlockRange) : List SocketAddr :=
  (r.peersWith range.pieceIndex).filter fun addr =>
    r.canServe addr range.pieceIndex && a.freeSlotsFor addr > 0 && !a.isHolder range addr

def pickPeer (r : PeerRegistry) (a : BlockAssignments) (range : BlockRange) (draw : Nat) :
    Option SocketAddr :=
  (candidates r a range)[draw % (candidates r a range).length]?

def requestOutputs (r : PeerRegistry) (addr : SocketAddr) (block : BlockRange) : List Output :=
  (r.declareInterest addr).toList.map (.sendToPeer addr) ++ [.sendToPeer addr (.request block)]

def Plan.grant (r : PeerRegistry) (p : Plan) (block : BlockRange) (addr : SocketAddr) : Plan where
  budget := p.budget - 1
  progressed := true
  holders := p.holders.insert block (p.holders.getD block 0 + 1)
  assignments := p.assignments.assign block addr
  rng := p.rng.tail
  outputs := p.outputs ++ requestOutputs r addr block

def planBlock (r : PeerRegistry) (replication : Nat) (p : Plan) (block : BlockRange) : Plan :=
  if p.budget = 0 then p
  else if p.holders.getD block 0 ≠ replication then p
  else
    match pickPeer r p.assignments block p.rng.head with
    | none => { p with rng := p.rng.tail }
    | some addr => p.grant r block addr

def planDepth (r : PeerRegistry) (blocks : List BlockRange) (p : Plan) (replication : Nat) : Plan :=
  blocks.foldl (planBlock r replication) p

def planSweep (r : PeerRegistry) (blocks : List BlockRange) (maxDepth : Nat) (p : Plan) : Plan :=
  (List.range (maxDepth + 1)).foldl (planDepth r blocks) { p with progressed := false }

-- A sweep that makes progress spends budget, so the initial budget bounds the number of sweeps.
def planLoop (r : PeerRegistry) (blocks : List BlockRange) (maxDepth : Nat) : Nat → Plan → Plan
  | 0, p => p
  | fuel + 1, p =>
    if p.budget > 0 ∧ p.progressed = true then
      planLoop r blocks maxDepth fuel (planSweep r blocks maxDepth p)
    else p

def pieceKey (s : Swarm) (piece : Nat) : Lex (Bool × Lex (Bool × Nat)) :=
  toLex (!s.pieces.isPartial piece,
    toLex (!s.peerRegistry.isSuggested piece, s.peerRegistry.rarity piece))

def plannedBlocks (s : Swarm) : List BlockRange :=
  (s.pieces.neededPieces.insertionSort fun a b => s.pieceKey a ≤ s.pieceKey b).flatMap
    s.pieces.unreceivedBlocks

def initialPlan (env : Entropy) (s : Swarm) : Plan where
  budget := s.budget
  progressed := true
  holders := s.blockAssignments.holderCounts
  assignments := s.blockAssignments
  rng := env.rng
  outputs := []

def finalPlan (env : Entropy) (s : Swarm) : Plan :=
  planLoop s.peerRegistry s.plannedBlocks s.peerRegistry.unchoked.length s.budget
    (s.initialPlan env)

def plan (env : Entropy) (s : Swarm) : Swarm × List Output :=
  if !s.status.download then (s, [])
  else if s.budget = 0 then (s, [])
  else ({ s with blockAssignments := (s.finalPlan env).assignments }, (s.finalPlan env).outputs)

def handleMessage (sha1 : Sha1) (env : Entropy) (s : Swarm) (addr : SocketAddr) :
    Message → Swarm × List Output
  | .bitfield _ | .havePiece _ | .haveAll | .suggestPiece _ | .allowedFast _ =>
    (s, s.declareInterest addr)
  | .choke => ({ s with blockAssignments := s.blockAssignments.releasePeer addr }, [])
  | .piece range data => s.onMessagePiece sha1 env addr range data
  | .interested => (s, [.sendToPeer addr .unchoke])
  | .request range => s.onMessageRequest addr range
  | .extension extId payload => (s, s.onExtensionMessage env addr extId payload)
  | .rejectRequest range =>
    ({ s with blockAssignments := s.blockAssignments.unassign range addr }, [])
  | .cancel range => s.cancelUpload addr range
  | .haveNone | .unchoke | .notInterested | .keepAlive | .unimplemented
  | .extensionHandshake _ => (s, [])

def onMessage (sha1 : Sha1) (env : Entropy) (s : Swarm) (addr : SocketAddr) (message : Message) :
    Swarm × List Output :=
  match s.peerRegistry.apply addr message with
  | .error .unknownPeer => (s, [])
  | .error .protocolViolation => (s, [.disconnectPeer addr])
  | .ok peerRegistry =>
    let (s, outputs) := handleMessage sha1 env { s with peerRegistry } addr message
    if message.affectsScheduling then
      let (s, requests) := s.plan env
      (s, outputs ++ requests)
    else (s, outputs)

def pexOutputs (env : Entropy) (s : Swarm) : List Output :=
  let addrs : HashSet SocketAddr :=
    s.peerRegistry.leechers.keys.foldl HashSet.add s.peerRegistry.seeders
  let payload := UtPexMessage.encode env.order ⟨addrs⟩
  (env.order.arrange addrs.keys).filterMap fun addr =>
    (s.peerRegistry.peerExtensionId addr "ut_pex").map fun peerExtId =>
      .sendToPeer addr (.extension peerExtId payload)

def onTick (env : Entropy) (s : Swarm) : Tick → Swarm × List Output
  | .block => s.plan env
  | .pex => (s, s.pexOutputs env)

def step (sha1 : Sha1) (s : Swarm) (i : Input × Entropy) : Swarm × List Output :=
  match i.1 with
  | .peersDiscovered addrs => (s, s.onDiscovered addrs)
  | .peerConnected id direction addr extensions => s.onConnected i.2 addr direction id extensions
  | .peerDisconnected addr => s.onDisconnected i.2 addr
  | .messageReceived addr message => s.onMessage sha1 i.2 addr message
  | .localPiece pieceIndex data => s.onLocalPiece sha1 pieceIndex data
  | .uploadReadCompleted id range data => s.onUploadReadCompleted i.2 id range data
  | .swarmCommand cmd => s.onSwarmCommand i.2 cmd
  | .tick t => s.onTick i.2 t

end Swarm

end Tortue
