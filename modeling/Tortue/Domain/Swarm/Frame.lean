import Tortue.Collections.History
import Tortue.Domain.Swarm.Swarm

namespace Tortue

open Collections

namespace Swarm

variable (sha1 : Sha1) (env : Entropy) (s : Swarm)

def Started (clientId : PeerId) (metainfo : Metainfo) (s : Swarm) : Prop :=
  Swarm.new clientId metainfo = some s

def Reachable (clientId : PeerId) (metainfo : Metainfo) (s : Swarm) : Prop :=
  History.Reachable (step sha1) (Started clientId metainfo) s

theorem Reachable.next {sha1 : Sha1} {clientId : PeerId} {metainfo : Metainfo} {s : Swarm}
    (hr : Reachable sha1 clientId metainfo s) (i : Input × Entropy) :
    Reachable sha1 clientId metainfo (step sha1 s i).1 :=
  History.reachable_next hr i

theorem started_eq {clientId : PeerId} {metainfo : Metainfo} {s : Swarm}
    (h : Started clientId metainfo s) :
    ∃ pieces, PieceManager.new metainfo = some pieces ∧ s = {
      clientId, metainfo, pieces
      peerRegistry := .new metainfo.pieces.length
      blockAssignments := .new
      status := .active
      downloadedBytes := 0
      uploadedBytes := 0
      pendingReads := .empty
      nextUploadReadId := 0 } := by
  unfold Started new at h
  cases hp : PieceManager.new metainfo with
  | none => simp [hp] at h
  | some pieces =>
    simp only [hp, Option.pure_def, Option.bind_eq_bind, Option.bind_some, Option.some.injEq] at h
    exact ⟨pieces, rfl, h.symm⟩

theorem started_fields {clientId : PeerId} {metainfo : Metainfo} {s : Swarm}
    (h : Started clientId metainfo s) :
    PieceManager.new metainfo = some s.pieces ∧ s.clientId = clientId ∧ s.metainfo = metainfo ∧
      s.peerRegistry = .new metainfo.pieces.length ∧ s.blockAssignments = .new ∧
      s.pendingReads = .empty := by
  obtain ⟨pieces, hp, rfl⟩ := started_eq h
  exact ⟨hp, rfl, rfl, rfl, rfl, rfl⟩

theorem plan_fst : ∃ a, (s.plan env).1 = { s with blockAssignments := a } := by
  unfold plan
  split_ifs
  · exact ⟨_, rfl⟩
  · exact ⟨_, rfl⟩
  · exact ⟨_, rfl⟩

@[simp] theorem plan_peerRegistry : (s.plan env).1.peerRegistry = s.peerRegistry := by
  obtain ⟨a, ha⟩ := plan_fst env s; rw [ha]

@[simp] theorem plan_pieces : (s.plan env).1.pieces = s.pieces := by
  obtain ⟨a, ha⟩ := plan_fst env s; rw [ha]

@[simp] theorem plan_pendingReads : (s.plan env).1.pendingReads = s.pendingReads := by
  obtain ⟨a, ha⟩ := plan_fst env s; rw [ha]

def origin : PeerId × Metainfo := (s.clientId, s.metainfo)

@[simp] theorem plan_origin : (s.plan env).1.origin = s.origin := by
  obtain ⟨a, ha⟩ := plan_fst env s; rw [ha]; rfl

@[simp] theorem onDisconnected_peerRegistry (x : SocketAddr) :
    (s.onDisconnected env x).1.peerRegistry = s.peerRegistry.disconnected x := rfl

@[simp] theorem onDisconnected_blockAssignments (x : SocketAddr) :
    (s.onDisconnected env x).1.blockAssignments = s.blockAssignments.releasePeer x := rfl

@[simp] theorem onDisconnected_pendingReads (x : SocketAddr) :
    (s.onDisconnected env x).1.pendingReads = s.pendingReads.retain (withoutPeer x) := rfl

@[simp] theorem register_peerRegistry (x : SocketAddr) (d : ConnectionDirection) (id : PeerId)
    (e : PeerExtensions) :
    (s.register x d id e).1.peerRegistry = s.peerRegistry.connected x id d e := rfl

@[simp] theorem register_blockAssignments (x : SocketAddr) (d : ConnectionDirection) (id : PeerId)
    (e : PeerExtensions) :
    (s.register x d id e).1.blockAssignments = s.blockAssignments.releasePeer x := rfl

def Refused (d : ConnectionDirection) (id : PeerId) : Prop :=
  ∃ old, s.peerRegistry.connectionFor id = some old ∧ (d = old.2 ∨ d ≠ s.preferedDirection id)

theorem not_refused {d : ConnectionDirection} {id : PeerId} {old : SocketAddr × ConnectionDirection}
    (hb : s.peerRegistry.byId.get id = some old) (hd : ¬ (d = old.2 ∨ d ≠ s.preferedDirection id)) :
    ¬ s.Refused d id := by
  rintro ⟨old', hold', hd'⟩
  rw [PeerRegistry.connectionFor, hb, Option.some.injEq] at hold'
  exact hd (hold' ▸ hd')

theorem onConnected_cases (x : SocketAddr) (d : ConnectionDirection) (id : PeerId)
    (e : PeerExtensions) :
    (s.peerRegistry.byId.get id = none ∧
      s.onConnected env x d id e = s.register x d id e) ∨
    (∃ old, s.peerRegistry.byId.get id = some old ∧ (d = old.2 ∨ d ≠ s.preferedDirection id) ∧
      s.onConnected env x d id e = (s, [.disconnectPeer x])) ∨
    (∃ old, s.peerRegistry.byId.get id = some old ∧
      ¬ (d = old.2 ∨ d ≠ s.preferedDirection id) ∧
      s.onConnected env x d id e =
        (((s.onDisconnected env old.1).1.register x d id e).1,
          (s.onDisconnected env old.1).2 ++ .disconnectPeer old.1 ::
            ((s.onDisconnected env old.1).1.register x d id e).2)) := by
  unfold onConnected PeerRegistry.connectionFor
  cases hb : s.peerRegistry.byId.get id with
  | none => exact .inl ⟨rfl, rfl⟩
  | some old =>
    by_cases hd : d = old.2 ∨ d ≠ s.preferedDirection id
    · exact .inr (.inl ⟨old, rfl, hd, by simp [hd]⟩)
    · exact .inr (.inr ⟨old, rfl, hd, by simp [hd]⟩)

theorem onMessageRequest_fst (x : SocketAddr) (range : BlockRange) :
    ∃ reads next, (s.onMessageRequest x range).1 =
      { s with pendingReads := reads, nextUploadReadId := next } := by
  unfold onMessageRequest
  split_ifs
  · exact ⟨_, _, rfl⟩
  · exact ⟨_, _, rfl⟩
  · exact ⟨_, _, rfl⟩
  · split <;> exact ⟨_, _, rfl⟩

theorem cancelUpload_fst (x : SocketAddr) (range : BlockRange) :
    ∃ reads, (s.cancelUpload x range).1 = { s with pendingReads := reads } := by
  simp only [cancelUpload]
  split
  · exact ⟨_, rfl⟩
  · split <;> exact ⟨_, rfl⟩

theorem onMessagePiece_fst (x : SocketAddr) (range : BlockRange) (data : Bytes) :
    (s.blockAssignments.isHolder range x = false ∧
      (s.onMessagePiece sha1 env x range data).1 = s) ∨
    (s.blockAssignments.isHolder range x = true ∧ ∃ downloadedBytes,
      (s.onMessagePiece sha1 env x range data).1 = { s with
        blockAssignments := s.blockAssignments.unassign range x
        pieces := (s.pieces.receiveBlock sha1 range data).2
        downloadedBytes }) := by
  unfold onMessagePiece
  cases hheld : s.blockAssignments.isHolder range x with
  | false => exact .inl ⟨rfl, rfl⟩
  | true =>
    refine .inr ⟨rfl, ?_⟩
    simp only [Bool.not_true, Bool.false_eq_true, if_false]
    split
    · exact ⟨_, rfl⟩
    · split <;> exact ⟨_, rfl⟩

theorem handleMessage_frame (x : SocketAddr) (m : Message) :
    (s.handleMessage sha1 env x m).1.peerRegistry = s.peerRegistry ∧
    (s.handleMessage sha1 env x m).1.clientId = s.clientId ∧
    (s.handleMessage sha1 env x m).1.metainfo = s.metainfo ∧
    (s.handleMessage sha1 env x m).1.status = s.status ∧
    (s.handleMessage sha1 env x m).1.uploadedBytes = s.uploadedBytes := by
  cases m with
  | piece range data =>
    rcases onMessagePiece_fst sha1 env s x range data with ⟨-, hs⟩ | ⟨-, _, hs⟩
    · simp only [handleMessage, hs, and_self]
    · simp only [handleMessage, hs, and_self]
  | request range =>
    obtain ⟨_, _, hs⟩ := onMessageRequest_fst s x range
    simp only [handleMessage, hs, and_self]
  | cancel range =>
    obtain ⟨_, hs⟩ := cancelUpload_fst s x range
    simp only [handleMessage, hs, and_self]
  | _ => exact ⟨rfl, rfl, rfl, rfl, rfl⟩

@[simp] theorem handleMessage_peerRegistry (x : SocketAddr) (m : Message) :
    (s.handleMessage sha1 env x m).1.peerRegistry = s.peerRegistry :=
  (handleMessage_frame sha1 env s x m).1

@[simp] theorem handleMessage_origin (x : SocketAddr) (m : Message) :
    (s.handleMessage sha1 env x m).1.origin = s.origin := by
  obtain ⟨-, hid, hmetainfo, -, -⟩ := handleMessage_frame sha1 env s x m
  rw [origin, hid, hmetainfo, origin]

theorem onMessage_cases (x : SocketAddr) (m : Message) :
    (∃ r, s.peerRegistry.apply x m = .error r ∧ (s.onMessage sha1 env x m).1 = s ∧
      ∀ o ∈ (s.onMessage sha1 env x m).2, o = .disconnectPeer x) ∨
    (∃ r, s.peerRegistry.apply x m = .ok r ∧ m.affectsScheduling = false ∧
      s.onMessage sha1 env x m = handleMessage sha1 env { s with peerRegistry := r } x m) ∨
    (∃ r, s.peerRegistry.apply x m = .ok r ∧ m.affectsScheduling = true ∧
      s.onMessage sha1 env x m =
        (((handleMessage sha1 env { s with peerRegistry := r } x m).1.plan env).1,
          (handleMessage sha1 env { s with peerRegistry := r } x m).2 ++
            ((handleMessage sha1 env { s with peerRegistry := r } x m).1.plan env).2)) := by
  unfold onMessage
  cases ha : s.peerRegistry.apply x m with
  | error r =>
    refine .inl ⟨r, rfl, ?_⟩
    cases r <;> simp
  | ok r =>
    refine .inr ?_
    cases hm : m.affectsScheduling with
    | false => exact .inl ⟨r, rfl, rfl, by simp⟩
    | true => exact .inr ⟨r, rfl, rfl, by simp⟩

theorem onMessage_peerRegistry (x : SocketAddr) (m : Message) :
    (s.onMessage sha1 env x m).1.peerRegistry = s.peerRegistry ∨
    s.peerRegistry.apply x m = .ok (s.onMessage sha1 env x m).1.peerRegistry := by
  rcases onMessage_cases sha1 env s x m with ⟨_, -, h, -⟩ | ⟨r, hr, -, h⟩ | ⟨r, hr, -, h⟩
  · exact .inl (by rw [h])
  · exact .inr (by rw [h, handleMessage_peerRegistry]; exact hr)
  · exact .inr (by rw [h, plan_peerRegistry, handleMessage_peerRegistry]; exact hr)

theorem onUploadReadCompleted_cases (id : UploadReadId) (range : BlockRange) (data : Bytes) :
    s.onUploadReadCompleted env id range data = (s, []) ∨
    ∃ uploadedBytes, ∃ addrs : List SocketAddr, s.onUploadReadCompleted env id range data =
      ({ s with pendingReads := s.pendingReads.remove range, uploadedBytes },
        addrs.map fun addr => .sendToPeer addr (.piece range data)) := by
  simp only [onUploadReadCompleted]
  split
  · exact .inl rfl
  · split_ifs
    · exact .inl rfl
    · exact .inr ⟨s.uploadedBytes, [], rfl⟩
    · exact .inr ⟨_, _, rfl⟩

theorem onSwarmCommand_cases (cmd : SwarmCommand) :
    ∃ status pendingReads, ∃ ids : List UploadReadId,
      (pendingReads = s.pendingReads ∨ pendingReads = .empty) ∧ s.onSwarmCommand env cmd =
        ({ s with status, pendingReads }, ids.map Output.cancelUploadRead) := by
  cases cmd with
  | setStatus status =>
    simp only [onSwarmCommand]
    split
    · exact ⟨status, s.pendingReads, [], .inl rfl, rfl⟩
    · refine ⟨status, .empty, (env.order.arrange s.pendingReads.values).map PendingRead.id,
        .inr rfl, ?_⟩
      rw [List.map_map]
      rfl

theorem step_peerRegistry (i : Input × Entropy) :
    (step sha1 s i).1.peerRegistry = s.peerRegistry ∨
    (∃ x m, i.1 = .messageReceived x m ∧
      s.peerRegistry.apply x m = .ok (step sha1 s i).1.peerRegistry) ∨
    (∃ x, i.1 = .peerDisconnected x ∧
      (step sha1 s i).1.peerRegistry = s.peerRegistry.disconnected x) ∨
    (∃ id d x e, i.1 = .peerConnected id d x e ∧
      step sha1 s i = s.onConnected i.2 x d id e) := by
  obtain ⟨input, env⟩ := i
  cases input with
  | peerConnected id d x e => exact .inr (.inr (.inr ⟨id, d, x, e, rfl, rfl⟩))
  | peerDisconnected x => exact .inr (.inr (.inl ⟨x, rfl, rfl⟩))
  | messageReceived x m =>
    rcases onMessage_peerRegistry sha1 env s x m with h | h
    · exact .inl h
    · exact .inr (.inl ⟨x, m, rfl, h⟩)
  | peersDiscovered _ => exact .inl rfl
  | localPiece _ _ => exact .inl rfl
  | uploadReadCompleted id range data =>
    rcases onUploadReadCompleted_cases env s id range data with hs | ⟨_, _, hs⟩ <;>
      exact .inl (by simp only [step, hs])
  | swarmCommand cmd =>
    obtain ⟨_, _, _, -, hs⟩ := onSwarmCommand_cases env s cmd
    exact .inl (by simp only [step, hs])
  | tick t => cases t <;> simp [step, onTick]

theorem onConnected_origin (x : SocketAddr) (d : ConnectionDirection) (id : PeerId)
    (e : PeerExtensions) : (s.onConnected env x d id e).1.origin = s.origin := by
  rcases onConnected_cases env s x d id e with ⟨-, h⟩ | ⟨_, -, -, h⟩ | ⟨_, -, -, h⟩
  · rw [h]
    rfl
  · rw [h]
  · rw [h]
    rfl

theorem step_origin (i : Input × Entropy) : (step sha1 s i).1.origin = s.origin := by
  obtain ⟨input, env⟩ := i
  cases input with
  | peerConnected id d x e => exact onConnected_origin env s x d id e
  | messageReceived x m =>
    rcases onMessage_cases sha1 env s x m with ⟨_, -, h, -⟩ | ⟨r, -, -, h⟩ | ⟨r, -, -, h⟩
    · simp only [step]; rw [h]
    · simp only [step]; rw [h, handleMessage_origin]; rfl
    · simp only [step]; rw [h, plan_origin, handleMessage_origin]; rfl
  | uploadReadCompleted id range data =>
    rcases onUploadReadCompleted_cases env s id range data with hs | ⟨_, _, hs⟩ <;>
      simp only [step, hs, origin]
  | swarmCommand cmd =>
    obtain ⟨_, _, _, -, hs⟩ := onSwarmCommand_cases env s cmd
    simp only [step, hs, origin]
  | tick t => cases t <;> simp [step, onTick]
  | _ => rfl

theorem reachable_origin {clientId : PeerId} {metainfo : Metainfo} {s : Swarm}
    (hr : Reachable sha1 clientId metainfo s) : s.origin = (clientId, metainfo) :=
  History.reachable_invariant (P := fun s => s.origin = (clientId, metainfo))
    (fun _ h => by
      obtain ⟨-, hid, hmetainfo, -⟩ := started_fields h
      rw [origin, hid, hmetainfo])
    (fun s i h => (step_origin sha1 s i).trans h) hr

theorem reachable_clientId {clientId : PeerId} {metainfo : Metainfo} {s : Swarm}
    (hr : Reachable sha1 clientId metainfo s) : s.clientId = clientId :=
  congrArg Prod.fst (reachable_origin sha1 hr)

theorem reachable_metainfo {clientId : PeerId} {metainfo : Metainfo} {s : Swarm}
    (hr : Reachable sha1 clientId metainfo s) : s.metainfo = metainfo :=
  congrArg Prod.snd (reachable_origin sha1 hr)

end Swarm

namespace Sample

def octets (n : UInt8) : Octets 20 := ⟨List.replicate 20 n, List.length_replicate⟩

def peerId (n : UInt8) : PeerId := ⟨octets n⟩

def addr (n : UInt16) : SocketAddr := .v4 ⟨[127, 0, 0, 1], rfl⟩ n

def sha1 : Sha1 := fun _ => octets 0

def env : Entropy := ⟨fun _ => 0, .insertion⟩

def extensions : PeerExtensions := ⟨false, true⟩

def metainfo : Metainfo where
  name := "sample"
  announce := []
  comment := none
  createdBy := none
  createdAt := none
  urlList := none
  infoBytes := []
  infoHash := octets 0
  pieceLength := 4
  pieces := [octets 0]
  mode := .single 2

def swarm : Swarm where
  clientId := peerId 1
  metainfo := metainfo
  peerRegistry := .new 1
  blockAssignments := .new
  pieces := ⟨[.new (octets 0) 2], .new 1⟩
  status := .active
  downloadedBytes := 0
  uploadedBytes := 0
  pendingReads := .empty
  nextUploadReadId := 0

theorem swarm_started : Swarm.Started (peerId 1) metainfo swarm := rfl

theorem swarm_reachable : Swarm.Reachable sha1 (peerId 1) metainfo swarm :=
  History.reachable_start swarm_started

def connect (id : UInt8) (d : ConnectionDirection) (a : UInt16) : Input × Entropy :=
  (.peerConnected (peerId id) d (addr a) extensions, env)

def message (a : UInt16) (m : Message) : Input × Entropy := (.messageReceived (addr a) m, env)

def requesting : List (Input × Entropy) :=
  [connect 2 .outbound 80, message 80 (.havePiece 0), message 80 .unchoke]

def requested : Swarm := (History.run (Swarm.step sha1) swarm requesting).1

theorem run_history {m : Metainfo} {s : Swarm} (h : Swarm.Started (peerId 1) m s)
    (inputs : List (Input × Entropy)) :
    History (Swarm.step sha1) (Swarm.Started (peerId 1) m)
      (History.events (Swarm.step sha1) s inputs) (History.run (Swarm.step sha1) s inputs).1 := by
  have hstart : History (Swarm.step sha1) (Swarm.Started (peerId 1) m) [] s := .start h
  have hrun := hstart.run_events inputs
  rwa [List.append_nil] at hrun

theorem history (inputs : List (Input × Entropy)) :
    History (Swarm.step sha1) (Swarm.Started (peerId 1) metainfo)
      (History.events (Swarm.step sha1) swarm inputs)
      (History.run (Swarm.step sha1) swarm inputs).1 := run_history swarm_started inputs

def pairMetainfo : Metainfo :=
  { metainfo with pieceLength := 32768, pieces := [octets 0, octets 0], mode := .single 40000 }

def pair : Swarm := { swarm with
  metainfo := pairMetainfo
  peerRegistry := .new 2
  pieces := ⟨[.new (octets 0) 32768, .new (octets 0) 7232], .new 2⟩ }

theorem pair_started : Swarm.Started (peerId 1) pairMetainfo pair := rfl

def pairRequesting : List (Input × Entropy) :=
  [connect 2 .outbound 80, connect 3 .inbound 81, message 80 (.havePiece 0),
    message 81 (.havePiece 1), message 80 .unchoke, message 81 .unchoke]

def pairRequested : Swarm := (History.run (Swarm.step sha1) pair pairRequesting).1

def twoBlocks : Bytes := List.replicate 16384 0 ++ [1]

theorem length_twoBlocks : twoBlocks.length = 16385 := by
  rw [twoBlocks, List.length_append, List.length_replicate]
  rfl

theorem twoBlocks_count : Bitfield.divCeil twoBlocks.length blockSize = 2 := by
  rw [length_twoBlocks]
  rfl

def blockSha1 : Sha1 := fun b => if b = twoBlocks then octets 0 else octets 1

theorem twoBlocks_ne : twoBlocks ≠ [] :=
  List.ne_nil_of_length_pos (by rw [length_twoBlocks]; decide)

end Sample

end Tortue
