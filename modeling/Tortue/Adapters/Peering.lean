import Tortue.Adapters.PeerTask
import Tortue.Adapters.Sessions

namespace Tortue

open Collections

namespace PeerStage

def session : PeerStage → SessionState
  | .talking _ _ => .connected
  | .ended _ => .ended
  | _ => .connecting

end PeerStage

def PeerAct.event? : PeerAct → Option PeerEvent
  | .event e => some e
  | _ => none

def SwarmIo.hear (io : SwarmIo) (number : Nat) (t : PeerTask) (acts : List PeerAct) : SwarmIo :=
  { io with
    peerConnector := { io.peerConnector with
      sessions := io.peerConnector.sessions.modify number fun s =>
        { s with state := t.stage.session } }
    peerEvents := io.peerEvents ++ (acts.filterMap PeerAct.event?).map (number, t.addr, ·) }

structure Peering where
  config : PeerConfig
  io : SwarmIo
  tasks : List PeerTask

namespace Peering

inductive Move where
  | loop (move : SwarmIo.Move)
  | inbound (addr : SocketAddr) (peer : InboundPeer)
  | task (number : Nat) (move : PeerMove)

inductive Output where
  | effect (e : SwarmIo.Effect)
  | act (number : Nat) (a : PeerAct)

def loopMove : Move → Option SwarmIo.Move
  | .loop (.session _ _) | .loop (.inbound (some _)) => none
  | .loop move => some move
  | .inbound addr _ => some (.inbound (some addr))
  | .task _ _ => none

def spawn (config : PeerConfig) (move : Move) (s : Session) : PeerTask :=
  match move with
  | .inbound _ peer => .accept config s.addr peer
  | _ => .connect config s.addr

def deliver (tasks : List PeerTask) : SwarmIo.Effect → List PeerTask
  | .sent number _ message =>
    tasks.modify number fun t => { t with commands := t.commands ++ [message] }
  | _ => tasks

def signals (io : SwarmIo) (number : Nat) (t : PeerTask) : PeerSignals where
  cancelled := decide (io.peerConnector.peerCancels.get t.addr ≠ some number)
  closed := decide (io.peerCmds.get t.addr ≠ some number)

def runLoop (p : Peering) (move : Move) (r : SwarmIo × List SwarmIo.Effect) :
    Peering × List Output :=
  let spawned := (r.1.peerConnector.sessions.drop p.tasks.length).map (spawn p.config move)
  ({ p with io := r.1, tasks := r.2.foldl deliver (p.tasks ++ spawned) }, r.2.map .effect)

def runTask (p : Peering) (number : Nat) (move : PeerMove) : Peering × List Output :=
  match p.tasks[number]? with
  | none => (p, [])
  | some t =>
    let (t', acts) := t.step (signals p.io number t) move
    ({ p with io := p.io.hear number t' acts, tasks := p.tasks.set number t' },
      acts.map (.act number))

def step (sha1 : Sha1) (p : Peering) (i : Move × Entropy) : Peering × List Output :=
  match i.1 with
  | .task number move => p.runTask number move
  | move =>
    match loopMove move with
    | some loop => p.runLoop move (p.io.step sha1 (loop, i.2))
    | none => (p, [])

-- What `start_download` sets up for a torrent.
structure Started (sha1 : Sha1) (clientId : PeerId) (metainfo : Metainfo) (p : Peering) : Prop where
  io : SwarmIo.Started sha1 clientId metainfo p.io
  config : p.config = ⟨clientId, metainfo.infoHash, some metainfo.infoBytes.length⟩
  tasks : p.tasks = []

end Peering

end Tortue
