import Tortue.Adapters.DiskStorage
import Tortue.Adapters.PeerIo
import Tortue.Collections.History
import Tortue.Domain.Tracker

namespace Tortue

open Collections

inductive ReadState where
  | unsent (offset : Except IoError Nat)
  | waiting
  | finished (result : Except IoError Bytes)
  | cancelled

structure ReadTask where
  id : UploadReadId
  range : BlockRange
  aborted : Bool
  state : ReadState

namespace ReadTask

def abort (t : ReadTask) : ReadTask := { t with aborted := true }

def finish (result : Except IoError Bytes) (t : ReadTask) : ReadTask :=
  { t with state := .finished result }

def replyDropped : IoError := ⟨.other, "storage reply dropped"⟩

def dropReply (t : ReadTask) : ReadTask :=
  match t.state with
  | .waiting => t.finish (.error replyDropped)
  | _ => t

end ReadTask

namespace SwarmIo

inductive Error where
  | storage (e : IoError)
  | trackerDisconnected

inductive Phase where
  | selecting
  | handling
  | flushing
  | finished (result : Except Error Unit)

def Phase.busy : Phase → Bool
  | .handling | .flushing => true
  | .selecting | .finished _ => false

end SwarmIo

-- `outputs` is the stack of `handle_output` on top of the outputs that the loop still has to pass.
-- A peer event keeps the number of the session that sent it; no branch of the loop reads it.
structure SwarmIo where
  metainfo : Metainfo
  swarm : Swarm
  peerCmds : HashMap SocketAddr Nat
  peerEvents : List (Nat × SocketAddr × PeerEvent)
  reads : HashMap Nat ReadTask
  nextTask : Nat
  readHandles : HashMap UploadReadId Nat
  pieceStore : DiskStorage
  worker : DiskStorage.Worker
  peerConnector : TcpPeerConnector
  inboundOpen : Bool
  outputs : List Output
  phase : SwarmIo.Phase

namespace SwarmIo

inductive Move where
  | command (cmd : Option SwarmCommand)
  | peers (addrs : Option (List SocketAddr))
  | inbound (peer : Option SocketAddr)
  | peerEvent
  | joinNext (task : Nat)
  | tick (t : Tick)
  | handle (accepts : SocketAddr → Bool)
  | session (number : Nat) (move : SessionMove)
  | runRead (task : Nat)
  | dropRead (task : Nat)
  | runWorker (fault : Option DiskStorage.Fault)

inductive Effect where
  | stepped (input : Input) (outputs : List Output)
  | sent (session : Nat) (addr : SocketAddr) (message : Message)
  | executed (cmd : DiskCommand)
  | published (snapshot : Swarm.SwarmSnapshot) (stats : SessionStats)

def new (clientId : PeerId) (metainfo : Metainfo) (files : List OutputFile) : Option SwarmIo := do
  let swarm ← Swarm.new clientId metainfo
  return {
    metainfo, swarm
    peerCmds := .empty
    peerEvents := []
    reads := .empty
    nextTask := 0
    readHandles := .empty
    pieceStore := .new metainfo
    worker := ⟨files, [], true⟩
    peerConnector := .new
    inboundOpen := true
    outputs := []
    phase := .selecting }

-- Nothing else is queued while `restore` waits for its reply.
def awaitRead (io : SwarmIo) (range : BlockRange) : Except IoError Bytes := do
  let offset ← io.pieceStore.storageOffset range
  DiskStorage.readFromFiles io.worker.files offset range.len

def restoreLoop (sha1 : Sha1) (env : Entropy) : List Nat → Nat → SwarmIo → Except Error SwarmIo
  | [], _, io => .ok io
  | pieceIndex :: rest, remaining, io =>
    let len := min remaining io.metainfo.pieceLength
    match io.awaitRead { pieceIndex, pieceOffset := 0, len } with
    | .error e => .error (.storage e)
    | .ok data =>
      let swarm := (io.swarm.step sha1 (.localPiece pieceIndex data, env)).1
      restoreLoop sha1 env rest (remaining - len) { io with swarm }

def restore (sha1 : Sha1) (env : Entropy) (io : SwarmIo) : Except Error SwarmIo :=
  restoreLoop sha1 env (List.range io.metainfo.pieces.length) io.metainfo.totalSize io

def finish (io : SwarmIo) (result : Except Error Unit) : SwarmIo :=
  { io with
    phase := .finished result
    reads := io.reads.retain fun t => some t.abort
    readHandles := .empty }

def process (sha1 : Sha1) (env : Entropy) (io : SwarmIo) (input : Input) : SwarmIo × List Effect :=
  let (swarm, outputs) := io.swarm.step sha1 (input, env)
  ({ io with swarm, outputs, phase := .handling }, [.stepped input outputs])

def spawnPeer (io : SwarmIo) (addr : SocketAddr) : SwarmIo :=
  if io.peerCmds.contains addr then io
  else
    { io with
      peerCmds := io.peerCmds.insert addr io.peerConnector.sessions.length
      peerConnector := io.peerConnector.connect addr }

def acceptInbound (io : SwarmIo) (addr : SocketAddr) : SwarmIo :=
  if io.peerCmds.contains addr then io
  else
    { io with
      peerCmds := io.peerCmds.insert addr io.peerConnector.sessions.length
      peerConnector := io.peerConnector.accept addr }

def onPeerEvent (sha1 : Sha1) (env : Entropy) (io : SwarmIo) : SwarmIo × List Effect :=
  match io.peerEvents with
  | [] => (io, [])
  | (_, addr, event) :: peerEvents =>
    let io := { io with peerEvents }
    match event with
    | .connected peerId direction peerExtensions =>
      io.process sha1 env (.peerConnected peerId direction addr peerExtensions)
    | .disconnected =>
      { io with peerCmds := io.peerCmds.remove addr }.process sha1 env (.peerDisconnected addr)
    | .messageReceived message => io.process sha1 env (.messageReceived addr message)

def joinNext (sha1 : Sha1) (env : Entropy) (io : SwarmIo) (task : Nat) : SwarmIo × List Effect :=
  match io.reads.get task with
  | none => (io, [])
  | some read =>
    match read.state with
    | .unsent _ | .waiting => (io, [])
    | .cancelled => ({ io with reads := io.reads.remove task }, [])
    | .finished result =>
      let io := { io with reads := io.reads.remove task }
      if !io.readHandles.contains read.id then (io, [])
      else
        let io := { io with readHandles := io.readHandles.remove read.id }
        match result with
        | .error e => (io.finish (.error (.storage e)), [])
        | .ok data =>
          if data.length ≠ read.range.len then
            (io.finish (.error (.storage ⟨.unexpectedEof, "incomplete upload read"⟩)), [])
          else io.process sha1 env (.uploadReadCompleted read.id read.range data)

def select (sha1 : Sha1) (env : Entropy) (io : SwarmIo) : Move → SwarmIo × List Effect
  | .command (some cmd) => io.process sha1 env (.swarmCommand cmd)
  | .command none => (io.finish (.ok ()), [])
  | .peers (some addrs) => io.process sha1 env (.peersDiscovered addrs)
  | .peers none => (io.finish (.error .trackerDisconnected), [])
  | .inbound (some addr) => (if io.inboundOpen then io.acceptInbound addr else io, [])
  | .inbound none => ({ io with inboundOpen := false }, [])
  | .peerEvent => io.onPeerEvent sha1 env
  | .joinNext task => io.joinNext sha1 env task
  | .tick t => io.process sha1 env (.tick t)
  | _ => (io, [])

def enqueue (io : SwarmIo) (cmd : DiskCommand) : SwarmIo :=
  { io with worker := { io.worker with queue := io.worker.queue ++ [cmd] } }

def sendToPeer (io : SwarmIo) (accepts : SocketAddr → Bool) (addr : SocketAddr)
    (message : Message) : Option Effect :=
  match io.peerCmds.get addr with
  | none => none
  | some session => if accepts addr then some (.sent session addr message) else none

def disconnectPeer (sha1 : Sha1) (env : Entropy) (io : SwarmIo) (addr : SocketAddr) :
    SwarmIo × List Effect :=
  let (swarm, outputs) := io.swarm.step sha1 (.peerDisconnected addr, env)
  ({ io with
      swarm
      peerCmds := io.peerCmds.remove addr
      peerConnector := io.peerConnector.disconnect addr
      outputs := outputs ++ io.outputs },
    [.stepped (.peerDisconnected addr) outputs])

def broadcast (env : Entropy) (accepts : SocketAddr → Bool) (io : SwarmIo) (message : Message) :
    SwarmIo × List Effect :=
  let addrs := env.order.arrange io.peerCmds.keys
  let failed := addrs.filter fun addr => (io.sendToPeer accepts addr message).isNone
  ({ io with outputs := failed.reverse.map .disconnectPeer ++ io.outputs },
    addrs.filterMap fun addr => io.sendToPeer accepts addr message)

def flush (io : SwarmIo) : SwarmIo :=
  if io.worker.running then { io.enqueue .flush with phase := .flushing }
  else io.finish (.error (.storage ⟨.other, "storage task closed"⟩))

def writePiece (io : SwarmIo) (range : BlockRange) (data : Bytes) : SwarmIo :=
  match io.pieceStore.write range data with
  | .error e => io.finish (.error (.storage e))
  | .ok cmd =>
    if io.worker.running then io.enqueue cmd
    else io.finish (.error (.storage ⟨.other, "writer task closed"⟩))

def readForUpload (io : SwarmIo) (id : UploadReadId) (range : BlockRange) : SwarmIo :=
  let read : ReadTask := ⟨id, range, false, .unsent (io.pieceStore.storageOffset range)⟩
  { io with
    reads := io.reads.insert io.nextTask read
    nextTask := io.nextTask + 1
    readHandles := io.readHandles.insert id io.nextTask }

def cancelUploadRead (io : SwarmIo) (id : UploadReadId) : SwarmIo :=
  match io.readHandles.get id with
  | none => io
  | some task =>
    { io with
      readHandles := io.readHandles.remove id
      reads := io.reads.modify task ReadTask.abort }

def handleOutput (sha1 : Sha1) (env : Entropy) (accepts : SocketAddr → Bool) (io : SwarmIo) :
    Output → SwarmIo × List Effect
  | .connectPeer addr => (io.spawnPeer addr, [])
  | .disconnectPeer addr => io.disconnectPeer sha1 env addr
  | .sendToPeer addr message =>
    match io.sendToPeer accepts addr message with
    | some sent => (io, [sent])
    | none => ({ io with outputs := .disconnectPeer addr :: io.outputs }, [])
  | .completed => (io.flush, [])
  | .writePiece range data => (io.writePiece range data, [])
  | .broadcast message => io.broadcast env accepts message
  | .readForUpload id range => (io.readForUpload id range, [])
  | .cancelUploadRead id => (io.cancelUploadRead id, [])

def sessionStats (snapshot : Swarm.SwarmSnapshot) : SessionStats where
  swarmStatus := snapshot.status
  uploaded := snapshot.bytesUploaded
  downloaded := snapshot.bytesDownloaded
  left := snapshot.bytesTotal - snapshot.bytesAvailable

def publish (io : SwarmIo) : Effect := .published io.swarm.snapshot (sessionStats io.swarm.snapshot)

def handle (sha1 : Sha1) (env : Entropy) (accepts : SocketAddr → Bool) (io : SwarmIo) :
    SwarmIo × List Effect :=
  match io.outputs with
  | [] => ({ io with phase := .selecting }, [io.publish])
  | out :: outputs => { io with outputs }.handleOutput sha1 env accepts out

def runSession (io : SwarmIo) (number : Nat) (move : SessionMove) : SwarmIo :=
  match io.peerConnector.sessions[number]? with
  | none => io
  | some session =>
    let (session', event) := session.run move
    { io with
      peerConnector := { io.peerConnector with
        sessions := io.peerConnector.sessions.set number session' }
      peerEvents := io.peerEvents ++ event.toList.map fun event => (number, session.addr, event) }

def runRead (io : SwarmIo) (task : Nat) : SwarmIo :=
  match io.reads.get task with
  | none => io
  | some read =>
    match read.state with
    | .unsent (.error e) => { io with reads := io.reads.insert task (read.finish (.error e)) }
    | .unsent (.ok offset) =>
      if io.worker.running then
        { io.enqueue (.read offset read.range.len task) with
          reads := io.reads.insert task { read with state := .waiting } }
      else
        let read := read.finish (.error ⟨.other, "reader task closed"⟩)
        { io with reads := io.reads.insert task read }
    | _ => io

def dropRead (io : SwarmIo) (task : Nat) : SwarmIo :=
  match io.reads.get task with
  | none => io
  | some read =>
    match read.aborted, read.state with
    | true, .unsent _ | true, .waiting =>
      { io with reads := io.reads.insert task { read with state := .cancelled } }
    | _, _ => io

def replyClosed (io : SwarmIo) (task : Nat) : Bool :=
  match io.reads.get task with
  | some { state := .waiting, .. } => false
  | _ => true

def receiveReply (io : SwarmIo) : Option DiskStorage.Reply → SwarmIo
  | none => io
  | some (.read task result) => { io with reads := io.reads.modify task (ReadTask.finish result) }
  | some (.flush (.ok _)) => { io with phase := .handling }
  | some (.flush (.error e)) => io.finish (.error (.storage e))

def dropReplies (io : SwarmIo) : SwarmIo :=
  let io := { io with reads := io.reads.retain fun t => some t.dropReply }
  match io.phase with
  | .flushing => io.finish (.error (.storage ReadTask.replyDropped))
  | _ => io

def runWorker (io : SwarmIo) (fault : Option DiskStorage.Fault) : SwarmIo × List Effect :=
  let (worker, reply) := io.worker.next fault io.replyClosed
  let io' := { io with worker }.receiveReply reply
  (if worker.running then io' else io'.dropReplies,
    if fault.isSome then [] else io.worker.queue.head?.toList.map .executed)

def step (sha1 : Sha1) (io : SwarmIo) (i : Move × Entropy) : SwarmIo × List Effect :=
  match i.1 with
  | .session number move => (io.runSession number move, [])
  | .runRead task => (io.runRead task, [])
  | .dropRead task => (io.dropRead task, [])
  | .runWorker fault => io.runWorker fault
  | .handle accepts =>
    match io.phase with
    | .handling => io.handle sha1 i.2 accepts
    | _ => (io, [])
  | move =>
    match io.phase with
    | .selecting => io.select sha1 i.2 move
    | _ => (io, [])

-- The state in which `run` enters its loop: `restore` has succeeded on the torrent's files.
def Started (sha1 : Sha1) (clientId : PeerId) (metainfo : Metainfo) (io : SwarmIo) : Prop :=
  ∃ files fresh env, DiskStorage.Laid metainfo files ∧
    SwarmIo.new clientId metainfo files = some fresh ∧ fresh.restore sha1 env = .ok io

end SwarmIo

end Tortue
