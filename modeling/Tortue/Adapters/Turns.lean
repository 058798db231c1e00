import Tortue.Adapters.Sessions

namespace Tortue

open Collections

namespace SwarmIo

variable {sha1 : Sha1} {io io' : SwarmIo} {env : Entropy}

def Silent (effects : List Effect) : Prop := ∀ k x m, .sent k x m ∉ effects

structure Still (io io' : SwarmIo) : Prop where
  swarm : io'.swarm = io.swarm
  peerCmds : io'.peerCmds = io.peerCmds

inductive Turn (sha1 : Sha1) (io : SwarmIo) (i : Move × Entropy) (io' : SwarmIo)
    (effects : List Effect) : Prop
  | rest : Still io io' → io'.outputs = io.outputs → Silent effects → Turn sha1 io i io' effects
  | input (input : Input) : io.phase = .selecting →
      io'.swarm = (io.swarm.step sha1 (input, i.2)).1 →
      io'.outputs = (io.swarm.step sha1 (input, i.2)).2 →
      (io'.peerCmds = io.peerCmds ∨
        ∃ x, input = .peerDisconnected x ∧ io'.peerCmds = io.peerCmds.remove x) →
      Silent effects → Turn sha1 io i io' effects
  | spawn (x : SocketAddr) (k : Nat) : io.peerCmds.contains x = false → io'.swarm = io.swarm →
      io'.peerCmds = io.peerCmds.insert x k →
      (io.phase = .selecting ∧ io'.outputs = io.outputs ∨
        io.outputs = .connectPeer x :: io'.outputs) →
      Silent effects → Turn sha1 io i io' effects
  | pass (o : Output) : io.outputs = o :: io'.outputs → (∀ x, o ≠ .disconnectPeer x) →
      (∀ x m, o ≠ .sendToPeer x m) → Still io io' → Silent effects → Turn sha1 io i io' effects
  | disconnect (x : SocketAddr) (rest : List Output) : io.outputs = .disconnectPeer x :: rest →
      io'.swarm = (io.swarm.step sha1 (.peerDisconnected x, i.2)).1 →
      io'.peerCmds = io.peerCmds.remove x →
      io'.outputs = (io.swarm.step sha1 (.peerDisconnected x, i.2)).2 ++ rest →
      Silent effects → Turn sha1 io i io' effects
  | send (x : SocketAddr) (m : Message) (k : Nat) : io.outputs = .sendToPeer x m :: io'.outputs →
      io.peerCmds.get x = some k → Still io io' → effects = [.sent k x m] →
      Turn sha1 io i io' effects
  | refuse (x : SocketAddr) (m : Message) (rest : List Output) :
      io.outputs = .sendToPeer x m :: rest → io'.outputs = .disconnectPeer x :: rest →
      Still io io' → Silent effects → Turn sha1 io i io' effects
  | broadcast (accepts : SocketAddr → Bool) (m : Message) (rest : List Output)
      (failed : List SocketAddr) : i.1 = .handle accepts → io.phase = .handling →
      io.outputs = .broadcast m :: rest → io'.outputs = failed.map .disconnectPeer ++ rest →
      Still io io' →
      (∀ k x m', .sent k x m' ∈ effects →
        m' = m ∧ io.peerCmds.get x = some k ∧ accepts x = true) → Turn sha1 io i io' effects

theorem silent_nil : Silent [] := by simp [Silent]

theorem silent_stepped (input : Input) (outputs : List Output) :
    Silent [.stepped input outputs] := by
  simp [Silent]

theorem still_refl (io : SwarmIo) : Still io io := ⟨rfl, rfl⟩

theorem Offstage.turn (h : Offstage io io') {i : Move × Entropy} {effects : List Effect}
    (hsilent : Silent effects) : Turn sha1 io i io' effects :=
  .rest ⟨h.swarm, congrArg Links.peerCmds h.links⟩ h.outputs hsilent

theorem Offstage.pass {o : Output} {rest : List Output}
    (h : Offstage { io with outputs := rest } io') (hout : io.outputs = o :: rest)
    (hdrop : ∀ x, o ≠ .disconnectPeer x) (hsend : ∀ x m, o ≠ .sendToPeer x m)
    {i : Move × Entropy} : Turn sha1 io i io' [] := by
  refine .pass o ?_ hdrop hsend ⟨h.swarm, congrArg Links.peerCmds h.links⟩ silent_nil
  rw [hout, h.outputs]

theorem turn_handleOutput {accepts : SocketAddr → Bool} {o : Output} {rest : List Output}
    (hphase : io.phase = .handling) (hout : io.outputs = o :: rest) :
    Turn sha1 io (.handle accepts, env)
      ({ io with outputs := rest }.handleOutput sha1 env accepts o).1
      ({ io with outputs := rest }.handleOutput sha1 env accepts o).2 := by
  cases o with
  | connectPeer x =>
    simp only [handleOutput, spawnPeer]
    split
    · exact .pass _ hout (by simp) (by simp) ⟨rfl, rfl⟩ silent_nil
    · next hfree =>
      exact .spawn x _ (Bool.eq_false_iff.mpr hfree) rfl rfl (.inr hout) silent_nil
  | disconnectPeer x => exact .disconnect x rest hout rfl rfl rfl (silent_stepped _ _)
  | sendToPeer x m =>
    simp only [handleOutput]
    split
    · next effect heffect =>
      obtain ⟨k, rfl, hget, -⟩ := sendToPeer_some heffect
      exact .send x m k hout hget ⟨rfl, rfl⟩ rfl
    · exact .refuse x m rest hout rfl ⟨rfl, rfl⟩ silent_nil
  | writePiece range data =>
    exact (writePiece_offstage _ range data).pass hout (by simp) (by simp)
  | completed => exact (flush_offstage _).pass hout (by simp) (by simp)
  | broadcast m =>
    refine .broadcast accepts m rest _ rfl hphase hout rfl ⟨rfl, rfl⟩ fun k x m' hsent => ?_
    obtain ⟨y, -, heffect⟩ := List.mem_filterMap.mp hsent
    obtain ⟨k', heq, hget, haccepts⟩ := sendToPeer_some heffect
    rw [Effect.sent.injEq] at heq
    obtain ⟨rfl, rfl, rfl⟩ := heq
    exact ⟨rfl, hget, haccepts⟩
  | readForUpload id range => exact .pass _ hout (by simp) (by simp) ⟨rfl, rfl⟩ silent_nil
  | cancelUploadRead id => exact (cancelUploadRead_offstage _ id).pass hout (by simp) (by simp)

theorem Selected.turn {move : Move} {r : SwarmIo × List Effect} (hr : Selected sha1 env io move r)
    (hphase : io.phase = .selecting) : Turn sha1 io (move, env) r.1 r.2 := by
  cases hr with
  | pass => exact .rest (still_refl io) rfl silent_nil
  | accept x hfree => exact .spawn x _ hfree rfl rfl (.inl ⟨hphase, rfl⟩) silent_nil
  | process _ input => exact .input input hphase rfl rfl (.inl rfl) (silent_stepped _ _)
  | event k x event rest =>
    exact .input (event.input x) hphase rfl rfl (.inl rfl) (silent_stepped _ _)
  | leave k x rest =>
    exact .input (.peerDisconnected x) hphase rfl rfl (.inr ⟨x, rfl, rfl⟩) (silent_stepped _ _)
  | read task read data =>
    exact .input (.uploadReadCompleted read.id read.range data) hphase rfl rfl (.inl rfl)
      (silent_stepped _ _)
  | _ => exact .rest ⟨rfl, rfl⟩ rfl silent_nil

theorem runWorker_silent (fault : Option DiskStorage.Fault) :
    Silent (io.runWorker fault).2 := by
  intro k x m hsent
  simp only [runWorker] at hsent
  split at hsent
  · contradiction
  · obtain ⟨cmd, -, hcmd⟩ := List.mem_map.mp hsent
    contradiction

theorem turn_step (sha1 : Sha1) (io : SwarmIo) (i : Move × Entropy) :
    Turn sha1 io i (io.step sha1 i).1 (io.step sha1 i).2 := by
  obtain ⟨move, env⟩ := i
  cases move with
  | session number move =>
    simp only [step, runSession]
    split
    · exact .rest (still_refl io) rfl silent_nil
    · exact .rest ⟨rfl, rfl⟩ rfl silent_nil
  | runRead task => exact (runRead_offstage io task).turn silent_nil
  | dropRead task => exact (dropRead_offstage io task).turn silent_nil
  | runWorker fault => exact (runWorker_offstage io fault).turn (runWorker_silent fault)
  | handle accepts =>
    simp only [step]
    split
    · next hphase =>
      unfold handle
      split
      · exact .rest ⟨rfl, rfl⟩ rfl (by simp [Silent, publish])
      · next o rest hout => exact turn_handleOutput hphase hout
    · exact .rest (still_refl io) rfl silent_nil
  | _ =>
    simp only [step]
    split
    · next hphase => exact (selected sha1 env io _).turn hphase
    · exact .rest (still_refl io) rfl silent_nil

def Idle (io : SwarmIo) : Prop := io.phase = .selecting → io.outputs = []

theorem idle_busy (h : io.phase ≠ .selecting) : Idle io := fun hphase => absurd hphase h

theorem idle_finish (result : Except Error Unit) : Idle (io.finish result) :=
  idle_busy (by simp [finish])

theorem idle_handle {accepts : SocketAddr → Bool} (hphase : io.phase = .handling) :
    Idle (io.handle sha1 env accepts).1 := by
  have hbusy : io.phase ≠ .selecting := by
    rw [hphase]
    exact Phase.noConfusion
  unfold handle
  split
  · next hout => exact fun _ => hout
  · next o rest _ =>
    cases o with
    | connectPeer x =>
      simp only [handleOutput, spawnPeer]
      split <;> exact idle_busy hbusy
    | disconnectPeer x => exact idle_busy hbusy
    | sendToPeer x m =>
      simp only [handleOutput]
      split <;> exact idle_busy hbusy
    | writePiece range data =>
      simp only [handleOutput, writePiece]
      split
      · exact idle_finish _
      · split
        · exact idle_busy hbusy
        · exact idle_finish _
    | completed =>
      simp only [handleOutput, flush]
      split
      · exact idle_busy Phase.noConfusion
      · exact idle_finish _
    | broadcast m => exact idle_busy hbusy
    | readForUpload id range => exact idle_busy hbusy
    | cancelUploadRead id =>
      simp only [handleOutput, cancelUploadRead]
      split <;> exact idle_busy hbusy

theorem idle_process (input : Input) : Idle (io.process sha1 env input).1 :=
  idle_busy Phase.noConfusion

theorem Selected.idle {move : Move} {r : SwarmIo × List Effect}
    (hr : Selected sha1 env io move r) (h : Idle io) : Idle r.1 := by
  cases hr with
  | pass => exact h
  | deaf => exact h
  | accept => exact h
  | reap => exact h
  | stop => exact idle_finish _
  | fail => exact idle_finish _
  | _ => exact idle_process _

theorem idle_receiveReply (h : Idle io) (reply : Option DiskStorage.Reply) :
    Idle (io.receiveReply reply) := by
  unfold receiveReply
  split
  · exact h
  · exact h
  · exact idle_busy Phase.noConfusion
  · exact idle_finish _

theorem idle_dropReplies (h : Idle io) : Idle io.dropReplies := by
  unfold dropReplies
  dsimp only
  split
  · exact idle_finish _
  · exact h

theorem idle_step (sha1 : Sha1) (io : SwarmIo) (i : Move × Entropy) (h : Idle io) :
    Idle (io.step sha1 i).1 := by
  obtain ⟨move, env⟩ := i
  cases move with
  | session number move =>
    simp only [step, runSession]
    split <;> exact h
  | runRead task =>
    simp only [step, runRead]
    split
    · exact h
    · split
      · exact h
      · split <;> exact h
      · exact h
  | dropRead task =>
    simp only [step, dropRead]
    split
    · exact h
    · split <;> exact h
  | runWorker fault =>
    have hreplied : Idle (SwarmIo.receiveReply
        { io with worker := (io.worker.next fault io.replyClosed).1 }
        (io.worker.next fault io.replyClosed).2) := by
      refine idle_receiveReply ?_ _
      exact h
    simp only [step, runWorker]
    split
    · exact hreplied
    · exact idle_dropReplies hreplied
  | handle accepts =>
    simp only [step]
    split
    · next hphase => exact idle_handle hphase
    · exact h
  | _ =>
    simp only [step]
    split
    · exact (selected sha1 env io _).idle h
    · exact h

end SwarmIo

end Tortue
