import Tortue.Adapters.SwarmIo

namespace Tortue

open Collections

def PeerEvent.input (addr : SocketAddr) : PeerEvent → Input
  | .connected peerId direction peerExtensions =>
    .peerConnected peerId direction addr peerExtensions
  | .disconnected => .peerDisconnected addr
  | .messageReceived message => .messageReceived addr message

namespace SwarmIo

variable {sha1 : Sha1} {io : SwarmIo} {env : Entropy}

theorem sendToPeer_some {accepts : SocketAddr → Bool} {x : SocketAddr} {m : Message}
    {effect : Effect} (h : io.sendToPeer accepts x m = some effect) :
    ∃ k, effect = .sent k x m ∧ io.peerCmds.get x = some k ∧ accepts x = true := by
  unfold sendToPeer at h
  split at h
  · contradiction
  · next k hget =>
    split_ifs at h with haccepts
    rw [Option.some.injEq] at h
    exact ⟨k, h.symm, hget, haccepts⟩

def Sourced (io : SwarmIo) (i : Input) : Prop :=
  ∀ id range data, i = .uploadReadCompleted id range data →
    ∃ k t, io.reads.get k = some t ∧ t.id = id ∧ t.range = range ∧ t.state = .finished (.ok data)

theorem handleOutput_stepped {accepts : SocketAddr → Bool} {out : Output} {i : Input}
    {outputs : List Output}
    (h : .stepped i outputs ∈ (io.handleOutput sha1 env accepts out).2) :
    outputs = (io.swarm.step sha1 (i, env)).2 ∧ Sourced io i := by
  cases out with
  | disconnectPeer addr =>
    simp only [handleOutput, disconnectPeer, List.mem_singleton, Effect.stepped.injEq] at h
    obtain ⟨rfl, rfl⟩ := h
    exact ⟨rfl, by simp [Sourced]⟩
  | sendToPeer addr message =>
    simp only [handleOutput] at h
    split at h
    · next effect heffect =>
      obtain ⟨k, rfl, -⟩ := sendToPeer_some heffect
      simp at h
    · contradiction
  | broadcast message =>
    obtain ⟨addr, -, heffect⟩ := List.mem_filterMap.mp h
    obtain ⟨k, hsent, -⟩ := sendToPeer_some heffect
    contradiction
  | _ => contradiction

theorem process_stepped {i j : Input} {outputs : List Output}
    (h : .stepped j outputs ∈ (io.process sha1 env i).2) :
    j = i ∧ outputs = (io.swarm.step sha1 (j, env)).2 := by
  simp only [process, List.mem_singleton, Effect.stepped.injEq] at h
  obtain ⟨rfl, rfl⟩ := h
  exact ⟨rfl, rfl⟩

inductive Polled : Input → Prop
  | command (cmd : SwarmCommand) : Polled (.swarmCommand cmd)
  | peers (addrs : List SocketAddr) : Polled (.peersDiscovered addrs)
  | tick (t : Tick) : Polled (.tick t)

inductive Selected (sha1 : Sha1) (env : Entropy) (io : SwarmIo) :
    Move → SwarmIo × List Effect → Prop
  | pass (move : Move) : Selected sha1 env io move (io, [])
  | deaf : Selected sha1 env io (.inbound none) ({ io with inboundOpen := false }, [])
  | accept (x : SocketAddr) : io.peerCmds.contains x = false →
      Selected sha1 env io (.inbound (some x))
        ({ io with
            peerCmds := io.peerCmds.insert x io.peerConnector.sessions.length
            peerConnector := io.peerConnector.accept x }, [])
  | stop (move : Move) (result : Except Error Unit) :
      Selected sha1 env io move (io.finish result, [])
  | process (move : Move) (input : Input) : Polled input →
      Selected sha1 env io move (io.process sha1 env input)
  | event (k : Nat) (x : SocketAddr) (event : PeerEvent)
      (rest : List (Nat × SocketAddr × PeerEvent)) : io.peerEvents = (k, x, event) :: rest →
      event ≠ .disconnected →
      Selected sha1 env io .peerEvent
        ({ io with peerEvents := rest }.process sha1 env (event.input x))
  | leave (k : Nat) (x : SocketAddr) (rest : List (Nat × SocketAddr × PeerEvent)) :
      io.peerEvents = (k, x, .disconnected) :: rest →
      Selected sha1 env io .peerEvent
        ({ io with peerCmds := io.peerCmds.remove x, peerEvents := rest }.process sha1 env
          (.peerDisconnected x))
  | reap (task : Nat) :
      Selected sha1 env io (.joinNext task) ({ io with reads := io.reads.remove task }, [])
  | fail (task : Nat) (readHandles : HashMap UploadReadId Nat) (result : Except Error Unit) :
      Selected sha1 env io (.joinNext task)
        ({ io with reads := io.reads.remove task, readHandles }.finish result, [])
  | read (task : Nat) (read : ReadTask) (data : Bytes) : io.reads.get task = some read →
      read.state = .finished (.ok data) →
      Selected sha1 env io (.joinNext task)
        ({ io with
            reads := io.reads.remove task
            readHandles := io.readHandles.remove read.id }.process sha1 env
          (.uploadReadCompleted read.id read.range data))

theorem selected_peerEvent (sha1 : Sha1) (env : Entropy) (io : SwarmIo) :
    Selected sha1 env io .peerEvent (io.onPeerEvent sha1 env) := by
  unfold onPeerEvent
  split
  · exact .pass _
  · next k x event rest hevents =>
    cases event with
    | disconnected => exact .leave k x rest hevents
    | connected _ _ _ => exact .event k x _ rest hevents (by simp)
    | messageReceived _ => exact .event k x _ rest hevents (by simp)

theorem selected_joinNext (sha1 : Sha1) (env : Entropy) (io : SwarmIo) (task : Nat) :
    Selected sha1 env io (.joinNext task) (io.joinNext sha1 env task) := by
  unfold joinNext
  split
  · exact .pass _
  · next read hget =>
    split
    · exact .pass _
    · exact .pass _
    · exact .reap task
    · next result hstate =>
      dsimp only
      split
      · exact .reap task
      · split
        · exact .fail task _ _
        · next data =>
          split
          · exact .fail task _ _
          · exact .read task read data hget hstate

theorem selected (sha1 : Sha1) (env : Entropy) (io : SwarmIo) (move : Move) :
    Selected sha1 env io move (io.select sha1 env move) := by
  cases move with
  | command cmd =>
    cases cmd with
    | none => exact .stop _ _
    | some cmd => exact .process _ _ (.command cmd)
  | peers addrs =>
    cases addrs with
    | none => exact .stop _ _
    | some addrs => exact .process _ _ (.peers addrs)
  | inbound peer =>
    cases peer with
    | none => exact .deaf
    | some x =>
      simp only [select, acceptInbound]
      split
      · split
        · exact .pass _
        · next hfree => exact .accept x (Bool.eq_false_iff.mpr hfree)
      · exact .pass _
  | peerEvent => exact selected_peerEvent sha1 env io
  | joinNext task => exact selected_joinNext sha1 env io task
  | tick t => exact .process _ _ (.tick t)
  | _ => exact .pass _

theorem Selected.stepped {move : Move} {r : SwarmIo × List Effect} {i : Input}
    {outputs : List Output} (hr : Selected sha1 env io move r) (h : .stepped i outputs ∈ r.2) :
    outputs = (io.swarm.step sha1 (i, env)).2 ∧ Sourced io i := by
  cases hr with
  | process _ input hpolled =>
    obtain ⟨rfl, hout⟩ := process_stepped h
    exact ⟨hout, by cases hpolled <;> simp [Sourced]⟩
  | event k x event rest =>
    obtain ⟨rfl, hout⟩ := process_stepped h
    exact ⟨hout, by cases event <;> simp [Sourced, PeerEvent.input]⟩
  | leave k x rest =>
    obtain ⟨rfl, hout⟩ := process_stepped h
    exact ⟨hout, by simp [Sourced]⟩
  | read task read data hget hstate =>
    obtain ⟨rfl, hout⟩ := process_stepped h
    refine ⟨hout, fun id range data' heq => ?_⟩
    rw [Input.uploadReadCompleted.injEq] at heq
    obtain ⟨rfl, rfl, rfl⟩ := heq
    exact ⟨task, read, hget, rfl, rfl, hstate⟩
  | _ => contradiction

theorem step_stepped {move : Move} {i : Input} {outputs : List Output}
    (h : .stepped i outputs ∈ (io.step sha1 (move, env)).2) :
    outputs = (io.swarm.step sha1 (i, env)).2 ∧ Sourced io i := by
  cases move with
  | runWorker fault =>
    simp only [step, runWorker] at h
    split at h
    · contradiction
    · obtain ⟨cmd, -, hcmd⟩ := List.mem_map.mp h
      contradiction
  | handle accepts =>
    simp only [step] at h
    split at h
    · unfold handle at h
      split at h
      · simp [publish] at h
      · have hhandled := handleOutput_stepped h
        exact hhandled
    · contradiction
  | session number move => contradiction
  | runRead task => contradiction
  | dropRead task => contradiction
  | _ =>
    simp only [step] at h
    split at h
    · exact (selected sha1 env io _).stepped h
    · contradiction

end SwarmIo

end Tortue
