import Tortue.Adapters.Faults

namespace Tortue

open Collections

def Custody.pending (m : Metainfo) (c : Custody) : List (Nat × Bytes) :=
  writesOf c.queue ++ handedOut m c.outputs

namespace SwarmIo

variable {sha1 : Sha1} {clientId : PeerId} {m : Metainfo} {io : SwarmIo} {env : Entropy}

inductive Passage (sha1 : Sha1) (m : Metainfo) (env : Entropy) (io io' : SwarmIo) : Prop
  | keep : io'.swarm.pieces = io.swarm.pieces → io'.worker.files = io.worker.files →
      io'.custody.pending m = io.custody.pending m → Passage sha1 m env io io'
  | step (input : Input) : (∀ j data, input ≠ .localPiece j data) →
      io'.swarm.pieces = (io.swarm.step sha1 (input, env)).1.pieces →
      io'.worker.files = io.worker.files →
      io'.custody.pending m =
        io.custody.pending m ++ handedOut m (io.swarm.step sha1 (input, env)).2 →
      Passage sha1 m env io io'
  | store (offset : Nat) (data : Bytes) : io'.swarm.pieces = io.swarm.pieces →
      io'.worker.files = DiskStorage.writeToFiles io.worker.files offset data →
      io.custody.pending m = (offset, data) :: io'.custody.pending m → Passage sha1 m env io io'

theorem passage_refl : Passage sha1 m env io io := .keep rfl rfl rfl

theorem pending_process (io : SwarmIo) (hnil : io.outputs = []) {input : Input} :
    (io.process sha1 env input).1.custody.pending m =
      io.custody.pending m ++ handedOut m (io.swarm.step sha1 (input, env)).2 := by
  simp only [Custody.pending, custody, process, hnil]
  rw [show handedOut m [] = [] from rfl, List.append_nil]

theorem passage_process (hnil : io.outputs = []) {input : Input}
    (hlocal : ∀ j data, input ≠ .localPiece j data) :
    Passage sha1 m env io (io.process sha1 env input).1 :=
  .step input hlocal rfl rfl (pending_process io hnil)

theorem passage_select (hnil : io.outputs = []) {move : Move} {r : SwarmIo × List Effect}
    (hr : Selected sha1 env io move r) : Passage sha1 m env io r.1 := by
  cases hr with
  | process _ input hpolled => exact passage_process hnil (by cases hpolled <;> simp)
  | event k x event rest =>
    refine .step (event.input x) ?_ rfl rfl
      (pending_process { io with peerEvents := rest } hnil)
    cases event <;> simp [PeerEvent.input]
  | leave k x rest =>
    exact .step (.peerDisconnected x) (by simp) rfl rfl (pending_process
      { io with peerCmds := io.peerCmds.remove x, peerEvents := rest } hnil)
  | read task read data =>
    exact .step (.uploadReadCompleted read.id read.range data) (by simp) rfl rfl (pending_process
      { io with
        reads := io.reads.remove task
        readHandles := io.readHandles.remove read.id } hnil)
  | _ => exact .keep rfl rfl rfl

theorem pending_pop {out : Output} {rest : List Output} (hout : io.outputs = out :: rest)
    (hwrite : ∀ range data, out ≠ .writePiece range data) :
    ({ io with outputs := rest }).custody.pending m = io.custody.pending m := by
  simp only [Custody.pending, custody, hout]
  cases out with
  | writePiece range data => exact absurd rfl (hwrite range data)
  | _ => rfl

theorem pending_push (io : SwarmIo) (addrs : List SocketAddr) :
    ({ io with outputs := addrs.map Output.disconnectPeer ++ io.outputs }).custody.pending m =
      io.custody.pending m := by
  simp only [Custody.pending, custody]
  rw [handedOut_append, handedOut_silent (by simp), List.nil_append]

theorem passage_disconnect {x : SocketAddr} {rest : List Output}
    (hout : io.outputs = .disconnectPeer x :: rest) :
    Passage sha1 m env io ({ io with outputs := rest }.disconnectPeer sha1 env x).1 := by
  have hcancels := Swarm.onDisconnected_outputs env io.swarm x
  have hsilent : handedOut m (io.swarm.step sha1 (.peerDisconnected x, env)).2 = [] := by
    refine handedOut_silent fun range data hin => ?_
    obtain ⟨id, hid⟩ := hcancels _ hin
    contradiction
  refine .step (.peerDisconnected x) (by simp) rfl rfl ?_
  simp only [Custody.pending, custody, disconnectPeer]
  rw [handedOut_append, hsilent, hout, List.append_nil]
  rfl

theorem passage_writePiece (h : Secured sha1 clientId m io) (hd : m.Divided) {range : BlockRange}
    {data : Bytes} {rest : List Output} (hout : io.outputs = .writePiece range data :: rest) :
    Passage sha1 m env io ({ io with outputs := rest }.writePiece range data) := by
  have hwhole : WholePiece m range data := h.intact.handed range data (by
    unfold custody
    rw [hout]
    exact List.mem_cons_self ..)
  unfold writePiece
  simp only [h.store, hwhole.write_ok hd, h.running, if_true]
  refine .keep rfl rfl ?_
  simp only [Custody.pending, custody, enqueue, hout]
  rw [writesOf_append, List.append_assoc]
  rfl

theorem passage_flush (h : Secured sha1 clientId m io) {rest : List Output}
    (hout : io.outputs = .completed :: rest) :
    Passage sha1 m env io { io with outputs := rest }.flush := by
  unfold flush
  simp only [h.running, if_true]
  refine .keep rfl rfl ?_
  simp only [Custody.pending, custody, enqueue, hout]
  rw [writesOf_append]
  exact congrArg (· ++ _) (List.append_nil _)

theorem passage_handle (h : Secured sha1 clientId m io) (hd : m.Divided)
    (accepts : SocketAddr → Bool) : Passage sha1 m env io (io.handle sha1 env accepts).1 := by
  unfold handle
  split
  · exact .keep rfl rfl rfl
  · next out rest hout =>
    cases out with
    | disconnectPeer x => exact passage_disconnect hout
    | completed => exact passage_flush h hout
    | writePiece range data => exact passage_writePiece h hd hout
    | connectPeer x =>
      simp only [handleOutput, spawnPeer]
      split
      · exact .keep rfl rfl (pending_pop hout (by simp))
      · exact .keep rfl rfl (pending_pop hout (by simp))
    | sendToPeer x message =>
      have hpopped : ({ io with outputs := rest }).custody.pending m = io.custody.pending m :=
        pending_pop hout (by simp)
      simp only [handleOutput]
      split
      · exact .keep rfl rfl hpopped
      · exact .keep rfl rfl ((pending_push { io with outputs := rest } [x]).trans hpopped)
    | broadcast message =>
      have hpopped : ({ io with outputs := rest }).custody.pending m = io.custody.pending m :=
        pending_pop hout (by simp)
      exact .keep rfl rfl ((pending_push { io with outputs := rest } _).trans hpopped)
    | readForUpload id range => exact .keep rfl rfl (pending_pop hout (by simp))
    | cancelUploadRead id =>
      simp only [handleOutput, cancelUploadRead]
      split
      · exact .keep rfl rfl (pending_pop hout (by simp))
      · exact .keep rfl rfl (pending_pop hout (by simp))

theorem passage_runRead (task : Nat) : Passage sha1 m env io (io.runRead task) := by
  unfold runRead
  split
  · exact passage_refl
  · split
    · exact .keep rfl rfl rfl
    · split
      · refine .keep rfl rfl ?_
        simp only [Custody.pending, custody, enqueue]
        rw [writesOf_append]
        exact congrArg (· ++ _) (List.append_nil _)
      · exact .keep rfl rfl rfl
    · exact passage_refl

theorem passage_runWorker (h : Secured sha1 clientId m io) :
    Passage sha1 m env io (io.runWorker none).1 := by
  unfold runWorker DiskStorage.Worker.next
  cases hqueue : io.worker.queue with
  | nil =>
    simp only [h.running, if_true, receiveReply]
    exact .keep rfl rfl rfl
  | cons cmd queue =>
    cases cmd with
    | write offset data =>
      simp only [DiskStorage.Worker.execute, h.running, if_true, receiveReply]
      refine .store offset data rfl rfl ?_
      simp only [Custody.pending, custody, hqueue]
      rfl
    | read offset len reply =>
      simp only [DiskStorage.Worker.execute]
      split
      · simp only [h.running, if_true, receiveReply]
        refine .keep rfl rfl ?_
        simp only [Custody.pending, custody, hqueue]
        rfl
      · simp only [h.running, if_true, receiveReply]
        refine .keep rfl rfl ?_
        simp only [Custody.pending, custody, hqueue]
        rfl
    | flush =>
      simp only [DiskStorage.Worker.execute, h.running, if_true, receiveReply]
      refine .keep rfl rfl ?_
      simp only [Custody.pending, custody, hqueue]
      rfl

theorem passage_step (h : Secured sha1 clientId m io) (hd : m.Divided) {move : Move}
    (hmove : move.faultless = true) :
    Passage sha1 m env io (io.step sha1 (move, env)).1 := by
  cases move with
  | session number move =>
    simp only [step, runSession]
    split
    · exact passage_refl
    · exact .keep rfl rfl rfl
  | runRead task => exact passage_runRead task
  | dropRead task =>
    simp only [step, dropRead]
    split
    · exact passage_refl
    · split
      · exact .keep rfl rfl rfl
      · exact .keep rfl rfl rfl
      · exact passage_refl
  | runWorker fault =>
    cases fault with
    | none => exact passage_runWorker h
    | some fault => contradiction
  | handle accepts =>
    simp only [step]
    split
    · exact passage_handle h hd accepts
    · exact passage_refl
  | _ =>
    simp only [step]
    split
    · next hphase => exact passage_select (h.idle (by rw [hphase]; rfl)) (selected sha1 _ io _)
    · exact passage_refl

end SwarmIo

end Tortue
