import Tortue.Adapters.Effects
import Tortue.Adapters.Links
import Tortue.Domain.Swarm.Frame

namespace Tortue

open Collections

namespace SwarmIo

def links (io : SwarmIo) : Links := ⟨io.peerCmds, io.peerEvents, io.peerConnector⟩

def action (io : SwarmIo) : Move → Links.Action
  | .session number move => .run number move
  | .handle _ =>
    match io.phase, io.outputs with
    | .handling, .connectPeer addr :: _ =>
      if io.peerCmds.contains addr then .keep else .spawn addr .outbound
    | .handling, .disconnectPeer addr :: _ => .disconnect addr
    | _, _ => .keep
  | .inbound (some addr) =>
    match io.phase with
    | .selecting =>
      if io.inboundOpen && !io.peerCmds.contains addr then .spawn addr .inbound else .keep
    | _ => .keep
  | .peerEvent =>
    match io.phase with
    | .selecting => .receive
    | _ => .keep
  | _ => .keep

def received (io : SwarmIo) (move : Move) : Option (Nat × SocketAddr × PeerEvent) :=
  match io.action move with
  | .receive => io.peerEvents.head?
  | _ => none

variable {sha1 : Sha1} {env : Entropy} {io : SwarmIo}

theorem action_spawn {move : Move} {addr : SocketAddr} {direction : ConnectionDirection}
    (h : io.action move = .spawn addr direction) : io.links.peerCmds.contains addr = false := by
  unfold action at h
  split at h
  · contradiction
  · split at h
    · split_ifs at h with hc
      rw [Links.Action.spawn.injEq] at h
      rw [← h.1]
      exact Bool.eq_false_iff.mpr hc
    · contradiction
    · contradiction
  · split at h
    · split_ifs at h with hc
      rw [Links.Action.spawn.injEq] at h
      rw [Bool.and_eq_true, Bool.not_eq_true'] at hc
      rw [← h.1]
      exact hc.2
    · contradiction
  · split at h <;> contradiction
  · contradiction

structure Offstage (io io' : SwarmIo) : Prop where
  links : io'.links = io.links
  swarm : io'.swarm = io.swarm
  outputs : io'.outputs = io.outputs

theorem offstage_refl (io : SwarmIo) : Offstage io io := ⟨rfl, rfl, rfl⟩

theorem offstage_finish (io : SwarmIo) (result : Except Error Unit) :
    Offstage io (io.finish result) := ⟨rfl, rfl, rfl⟩

theorem writePiece_offstage (io : SwarmIo) (range : BlockRange) (data : Bytes) :
    Offstage io (io.writePiece range data) := by
  unfold writePiece
  split
  · exact offstage_finish io _
  · split_ifs
    · exact ⟨rfl, rfl, rfl⟩
    · exact offstage_finish io _

theorem flush_offstage (io : SwarmIo) : Offstage io io.flush := by
  unfold flush
  split_ifs
  · exact ⟨rfl, rfl, rfl⟩
  · exact offstage_finish io _

theorem cancelUploadRead_offstage (io : SwarmIo) (id : UploadReadId) :
    Offstage io (io.cancelUploadRead id) := by
  unfold cancelUploadRead
  split <;> exact ⟨rfl, rfl, rfl⟩

theorem runRead_offstage (io : SwarmIo) (task : Nat) : Offstage io (io.runRead task) := by
  unfold runRead
  split
  · exact offstage_refl io
  · split
    · exact ⟨rfl, rfl, rfl⟩
    · split_ifs <;> exact ⟨rfl, rfl, rfl⟩
    · exact offstage_refl io

theorem dropRead_offstage (io : SwarmIo) (task : Nat) : Offstage io (io.dropRead task) := by
  unfold dropRead
  split
  · exact offstage_refl io
  · split <;> exact ⟨rfl, rfl, rfl⟩

theorem receiveReply_offstage (io : SwarmIo) (reply : Option DiskStorage.Reply) :
    Offstage io (io.receiveReply reply) := by
  unfold receiveReply
  split <;> exact ⟨rfl, rfl, rfl⟩

theorem dropReplies_offstage (io : SwarmIo) : Offstage io io.dropReplies := by
  unfold dropReplies
  dsimp only
  split <;> exact ⟨rfl, rfl, rfl⟩

theorem runWorker_offstage (io : SwarmIo) (fault : Option DiskStorage.Fault) :
    Offstage io (io.runWorker fault).1 := by
  unfold runWorker
  simp only
  obtain ⟨hlinks, hswarm, houtputs⟩ := receiveReply_offstage
    { io with worker := (io.worker.next fault io.replyClosed).1 }
    (io.worker.next fault io.replyClosed).2
  split_ifs
  · exact ⟨hlinks, hswarm, houtputs⟩
  · obtain ⟨hlinks', hswarm', houtputs'⟩ := dropReplies_offstage (SwarmIo.receiveReply
      { io with worker := (io.worker.next fault io.replyClosed).1 }
      (io.worker.next fault io.replyClosed).2)
    exact ⟨hlinks'.trans hlinks, hswarm'.trans hswarm, houtputs'.trans houtputs⟩

theorem Selected.joinNext_links {task : Nat} {r : SwarmIo × List Effect}
    (hr : Selected sha1 env io (.joinNext task) r) : r.1.links = io.links := by
  cases hr with
  | _ => rfl

theorem handle_links (accepts : SocketAddr → Bool) (hphase : io.phase = .handling) :
    (io.handle sha1 env accepts).1.links = io.links.apply (io.action (.handle accepts)) := by
  unfold handle action
  rw [hphase]
  cases houtputs : io.outputs with
  | nil => rfl
  | cons out outputs =>
    cases out with
    | connectPeer addr =>
      simp only [handleOutput, spawnPeer]
      split_ifs <;> rfl
    | disconnectPeer addr => rfl
    | sendToPeer addr message =>
      simp only [handleOutput]
      split <;> rfl
    | completed => exact (flush_offstage _).links
    | writePiece range data => exact (writePiece_offstage _ range data).links
    | broadcast message => rfl
    | readForUpload id range => rfl
    | cancelUploadRead id => exact (cancelUploadRead_offstage _ id).links

theorem select_links (move : Move) (hphase : io.phase = .selecting)
    (hmove : ∀ number m, move ≠ .session number m) :
    (io.select sha1 env move).1.links = io.links.apply (io.action move) := by
  cases move with
  | command cmd => cases cmd <;> rfl
  | peers addrs => cases addrs <;> rfl
  | inbound peer =>
    cases peer with
    | none => rfl
    | some addr =>
      simp only [select, action, hphase, acceptInbound]
      cases io.inboundOpen <;> cases io.peerCmds.contains addr <;> rfl
  | peerEvent =>
    simp only [select, onPeerEvent, action, hphase, Links.apply]
    split
    · next hevents => simp only [Links.receive, links, hevents]
    · next k x event rest hevents =>
      rw [Links.receive_eq (l := io.links) hevents]
      cases event <;> rfl
  | joinNext task => exact (selected_joinNext sha1 env io task).joinNext_links
  | session number m => exact absurd rfl (hmove number m)
  | handle accepts => simp only [select, action, hphase, Links.apply]
  | _ => rfl

theorem action_waiting {move : Move} (hphase : io.phase = .selecting → False)
    (hsession : ∀ number m, move ≠ .session number m)
    (hhandle : ∀ accepts, move ≠ .handle accepts) :
    io.action move = .keep := by
  unfold action
  split
  · exact absurd rfl (hsession _ _)
  · exact absurd rfl (hhandle _)
  · split
    · exact absurd ‹_› hphase
    · rfl
  · split
    · exact absurd ‹_› hphase
    · rfl
  · rfl

theorem step_links (sha1 : Sha1) (io : SwarmIo) (i : Move × Entropy) :
    (io.step sha1 i).1.links = io.links.apply (io.action i.1) := by
  obtain ⟨move, env⟩ := i
  cases move with
  | session number m =>
    have hsession : io.links.peerConnector.sessions[number]? =
        io.peerConnector.sessions[number]? := rfl
    simp only [step, action, Links.apply, runSession, Links.run, hsession]
    cases io.peerConnector.sessions[number]? <;> rfl
  | runRead task => exact (runRead_offstage io task).links
  | dropRead task => exact (dropRead_offstage io task).links
  | runWorker fault => exact (runWorker_offstage io fault).links
  | handle accepts =>
    simp only [step]
    split
    · next hphase => exact handle_links accepts hphase
    · next hphase =>
      simp only [action]
      split
      · exact absurd ‹_› hphase
      · exact absurd ‹_› hphase
      · rfl
  | _ =>
    simp only [step]
    split
    · next hphase => exact select_links _ hphase (by simp)
    · next hphase =>
      rw [action_waiting hphase (by simp) (by simp)]
      rfl

theorem handle_swarm (sha1 : Sha1) (env : Entropy) (io : SwarmIo) (accepts : SocketAddr → Bool) :
    (io.handle sha1 env accepts).1.swarm = io.swarm ∨
      ∃ x, (io.handle sha1 env accepts).1.swarm =
        (io.swarm.step sha1 (.peerDisconnected x, env)).1 := by
  unfold handle
  split
  · exact .inl rfl
  · next out outputs _ =>
    cases out with
    | connectPeer addr =>
      simp only [handleOutput, spawnPeer]
      split_ifs <;> exact .inl rfl
    | disconnectPeer addr => exact .inr ⟨addr, rfl⟩
    | sendToPeer addr message =>
      simp only [handleOutput]
      split <;> exact .inl rfl
    | completed => exact .inl (flush_offstage _).swarm
    | writePiece range data => exact .inl (writePiece_offstage _ range data).swarm
    | broadcast message => exact .inl rfl
    | readForUpload id range => exact .inl rfl
    | cancelUploadRead id => exact .inl (cancelUploadRead_offstage _ id).swarm

theorem Selected.swarm {move : Move} {r : SwarmIo × List Effect}
    (hr : Selected sha1 env io move r) (hmove : move ≠ .peerEvent) :
    r.1.swarm = io.swarm ∨ ∃ input, (∀ id d x e, input ≠ .peerConnected id d x e) ∧
      r.1.swarm = (io.swarm.step sha1 (input, env)).1 := by
  cases hr with
  | process _ input hpolled => exact .inr ⟨input, by cases hpolled <;> simp, rfl⟩
  | event => exact absurd rfl hmove
  | leave => exact absurd rfl hmove
  | read task read data =>
    exact .inr ⟨.uploadReadCompleted read.id read.range data, by simp, rfl⟩
  | _ => exact .inl rfl

theorem received_peerEvent (sha1 : Sha1) (io : SwarmIo) (env : Entropy) :
    (io.received .peerEvent = none ∧ (io.step sha1 (.peerEvent, env)).1.swarm = io.swarm) ∨
    ∃ k x event, io.received .peerEvent = some (k, x, event) ∧
      (io.step sha1 (.peerEvent, env)).1.swarm = (io.swarm.step sha1 (event.input x, env)).1 := by
  cases hphase : io.phase with
  | selecting =>
    simp only [step, received, action, hphase, select, onPeerEvent]
    cases hevents : io.peerEvents with
    | nil => exact .inl ⟨rfl, rfl⟩
    | cons e rest =>
      obtain ⟨k, x, event⟩ := e
      refine .inr ⟨k, x, event, rfl, ?_⟩
      cases event <;> rfl
  | _ =>
    refine .inl ⟨?_, ?_⟩
    · simp only [received, action, hphase]
    · simp only [step, hphase]

theorem received_other {io : SwarmIo} {move : Move} (hmove : move ≠ .peerEvent) :
    io.received move = none := by
  unfold received
  split
  · next haction =>
    unfold action at haction
    split at haction
    · contradiction
    · split at haction
      · split_ifs at haction
      · contradiction
      · contradiction
    · split at haction
      · split_ifs at haction
      · contradiction
    · exact absurd rfl hmove
    · contradiction
  · rfl

theorem step_swarm (sha1 : Sha1) (io : SwarmIo) (i : Move × Entropy) :
    (io.received i.1 = none ∧ (io.step sha1 i).1.swarm = io.swarm) ∨
    (∃ k x event, io.received i.1 = some (k, x, event) ∧
      (io.step sha1 i).1.swarm = (io.swarm.step sha1 (event.input x, i.2)).1) ∨
    (io.received i.1 = none ∧ ∃ input, (∀ id d x e, input ≠ .peerConnected id d x e) ∧
      (io.step sha1 i).1.swarm = (io.swarm.step sha1 (input, i.2)).1) := by
  obtain ⟨move, env⟩ := i
  by_cases hmove : move = .peerEvent
  · subst hmove
    exact (received_peerEvent sha1 io env).imp_right .inl
  have hquiet : io.received move = none := received_other hmove
  have hstep : (io.step sha1 (move, env)).1.swarm = io.swarm ∨
      ∃ input, (∀ id d x e, input ≠ .peerConnected id d x e) ∧
        (io.step sha1 (move, env)).1.swarm = (io.swarm.step sha1 (input, env)).1 := by
    cases move with
    | session number m =>
      refine .inl ?_
      simp only [step, runSession]
      split <;> rfl
    | runRead task => exact .inl (runRead_offstage io task).swarm
    | dropRead task => exact .inl (dropRead_offstage io task).swarm
    | runWorker fault => exact .inl (runWorker_offstage io fault).swarm
    | handle accepts =>
      simp only [step]
      split
      · rcases handle_swarm sha1 env io accepts with h | ⟨x, h⟩
        · exact .inl h
        · exact .inr ⟨_, by simp, h⟩
      · exact .inl rfl
    | peerEvent => exact absurd rfl hmove
    | _ =>
      simp only [step]
      split
      · exact (selected sha1 env io _).swarm hmove
      · exact .inl rfl
  rcases hstep with h | h
  · exact .inl ⟨hquiet, h⟩
  · exact .inr (.inr ⟨hquiet, h⟩)

theorem restoreLoop_frame {pieces : List Nat} {remaining : Nat} {io io' : SwarmIo}
    (h : restoreLoop sha1 env pieces remaining io = .ok io') :
    io'.links = io.links ∧ io'.outputs = io.outputs ∧
      io'.swarm.peerRegistry = io.swarm.peerRegistry := by
  induction pieces generalizing remaining io with
  | nil =>
    rw [restoreLoop, Except.ok.injEq] at h
    rw [h]
    exact ⟨rfl, rfl, rfl⟩
  | cons piece pieces ih =>
    simp only [restoreLoop] at h
    split at h
    · contradiction
    · obtain ⟨hlinks, houtputs, hregistry⟩ := ih h
      exact ⟨hlinks, houtputs, hregistry⟩

theorem started_frame {clientId : PeerId} {metainfo : Metainfo}
    (h : Started sha1 clientId metainfo io) :
    io.links = ⟨.empty, [], .new⟩ ∧ io.outputs = [] ∧
      io.swarm.peerRegistry = .new metainfo.pieces.length := by
  obtain ⟨files, fresh, env, -, hnew, hrestore⟩ := h
  unfold SwarmIo.new at hnew
  obtain ⟨swarm, hswarm, hfresh⟩ := Option.bind_eq_some_iff.mp hnew
  rw [Option.pure_def, Option.some.injEq] at hfresh
  subst hfresh
  obtain ⟨hlinks, houtputs, hregistry⟩ := restoreLoop_frame hrestore
  exact ⟨hlinks, houtputs, hregistry.trans (Swarm.started_fields hswarm).2.2.2.1⟩

variable {clientId : PeerId} {metainfo : Metainfo}
  {trace : List (Event SwarmIo (Move × Entropy) Effect)}

theorem history_tracked (hist : History (step sha1) (Started sha1 clientId metainfo) trace io) :
    io.links.Tracked := by
  refine hist.invariant (P := fun io => io.links.Tracked) (fun io hio => ?_) fun io i h => ?_
  · rw [(started_frame hio).1]
    exact .new
  · rw [step_links]
    exact h.apply _

def Effect.messageOn (k : Nat) : Effect → Option Message
  | .sent j _ m => if j = k then some m else none
  | _ => none

variable {k : Nat}

theorem mem_messageOn {effects : List Effect} {m : Message} :
    m ∈ effects.filterMap (Effect.messageOn k) ↔ ∃ x, .sent k x m ∈ effects := by
  rw [List.mem_filterMap]
  constructor
  · rintro ⟨effect, heffect, hm⟩
    cases effect with
    | sent j x m' =>
      simp only [Effect.messageOn] at hm
      split_ifs at hm with hj
      rw [Option.some.injEq] at hm
      exact ⟨x, hj ▸ hm ▸ heffect⟩
    | _ => contradiction
  · rintro ⟨x, hsent⟩
    exact ⟨_, hsent, if_pos rfl⟩

end SwarmIo

end Tortue
