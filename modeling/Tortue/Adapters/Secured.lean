import Tortue.Adapters.CustodySteps
import Tortue.Adapters.Effects

namespace Tortue

open Collections PieceManager

namespace SwarmIo

structure Secured (sha1 : Sha1) (clientId : PeerId) (m : Metainfo) (io : SwarmIo) : Prop where
  metainfo : io.metainfo = m
  store : io.pieceStore = .new m
  running : io.worker.running = true
  reachable : Swarm.Reachable sha1 clientId m io.swarm
  intact : Intact sha1 m io.custody
  idle : io.phase.busy = false → io.outputs = []

variable {sha1 : Sha1} {clientId : PeerId} {m : Metainfo} {io : SwarmIo} {env : Entropy}

theorem Restored.secured (h : Restored sha1 clientId m io) : Secured sha1 clientId m io := by
  obtain ⟨trace, hist⟩ := h.reachable
  have hdescribed : Described m io.swarm.pieces :=
    delivered_described (Swarm.deliveries_delivered hist)
  refine ⟨h.metainfo, h.store, h.running, h.reachable, ?_, fun _ => h.outputs⟩
  have hsettled : Custody.settled m io.custody = DiskStorage.bytes io.worker.files := by
    unfold Custody.settled custody
    rw [h.queue, h.outputs]
    rfl
  refine ⟨h.laid, ?_, ?_, fun i hi => ?_, ?_, ?_, ?_, ?_⟩
  · simp [custody, h.queue, writesOf]
  · simp [custody, h.outputs]
  · obtain ⟨p, hp, hcomplete⟩ := hi
    rw [hsettled, (h.matched i p hp).complete hcomplete]
    exact (hdescribed.piece i p hp).2
  · simp [custody, h.outputs]
  · simp [custody, h.outputs]
  · simp [custody, h.reads]
  · simp [custody, h.queue]

namespace Secured

theorem process (h : Secured sha1 clientId m io) (hd : m.Divided) (hnil : io.outputs = [])
    {i : Input} (hlocal : ∀ j data, i ≠ .localPiece j data) :
    Secured sha1 clientId m (io.process sha1 env i).1 :=
  ⟨h.metainfo, h.store, h.running, h.reachable.next _,
    h.intact.step hd h.reachable rfl hnil (i, env) hlocal, fun hphase => by contradiction⟩

theorem revise (h : Secured sha1 clientId m io) {reads : HashMap Nat ReadTask}
    (hsub : ∀ k t', reads.get k = some t' → ∃ t, io.reads.get k = some t ∧ t'.range = t.range ∧
      (∀ r, t'.state = .unsent r → t.state = .unsent r) ∧
        ∀ data, t'.state = .finished (.ok data) → t.state = .finished (.ok data)) :
    Secured sha1 clientId m { io with reads } :=
  ⟨h.metainfo, h.store, h.running, h.reachable, h.intact.revise hsub, h.idle⟩

theorem remove (h : Secured sha1 clientId m io) (task : Nat) :
    Secured sha1 clientId m { io with reads := io.reads.remove task } := by
  refine h.revise fun k t ht => ?_
  rw [HashMap.get_remove] at ht
  split at ht
  · contradiction
  · exact ⟨t, ht, rfl, fun _ hr => hr, fun _ hr => hr⟩

theorem settle (h : Secured sha1 clientId m io) {task : Nat} {read read' : ReadTask}
    (hget : io.reads.get task = some read) (hrange : read'.range = read.range)
    (hunsent : ∀ r, read'.state ≠ .unsent r) (hdone : ∀ data, read'.state ≠ .finished (.ok data)) :
    Secured sha1 clientId m { io with reads := io.reads.insert task read' } := by
  refine h.revise fun k t ht => ?_
  rw [HashMap.get_insert] at ht
  split at ht
  · next heq =>
    rw [Option.some.injEq] at ht
    subst heq ht
    exact ⟨read, hget, hrange, fun r hr => absurd hr (hunsent r), fun d hr => absurd hr (hdone d)⟩
  · exact ⟨t, ht, rfl, fun _ hr => hr, fun _ hr => hr⟩

theorem finish (h : Secured sha1 clientId m io) (hnil : io.outputs = [])
    (result : Except Error Unit) : Secured sha1 clientId m (io.finish result) := by
  have hrevised : Secured sha1 clientId m
      { io with reads := io.reads.retain fun t => some t.abort } := by
    refine h.revise fun k t ht => ?_
    rw [HashMap.get_retain] at ht
    obtain ⟨read, hget, habort⟩ := Option.bind_eq_some_iff.mp ht
    rw [Option.some.injEq] at habort
    subst habort
    exact ⟨read, hget, rfl, fun _ hr => hr, fun _ hr => hr⟩
  exact ⟨h.metainfo, h.store, h.running, h.reachable, hrevised.intact, fun _ => hnil⟩

theorem restack (h : Secured sha1 clientId m io) {outputs : List Output}
    (hbusy : io.phase.busy = true)
    (hwrites : handedOut m outputs = handedOut m io.outputs)
    (hsub : ∀ o ∈ outputs,
      o ∈ io.outputs ∨ ∃ x, o = .disconnectPeer x ∨ ∃ id, o = .cancelUploadRead id) :
    Secured sha1 clientId m { io with outputs } :=
  ⟨h.metainfo, h.store, h.running, h.reachable, h.intact.restack hwrites hsub,
    fun hidle => (Bool.eq_false_iff.mp hidle hbusy).elim⟩

theorem pop (h : Secured sha1 clientId m io) (hbusy : io.phase.busy = true) {out : Output}
    {rest : List Output} (hout : io.outputs = out :: rest)
    (hwrite : ∀ range data, out ≠ .writePiece range data) :
    Secured sha1 clientId m { io with outputs := rest } := by
  refine h.restack hbusy ?_ fun o ho => .inl ?_
  · rw [hout]
    cases out with
    | writePiece range data => exact absurd rfl (hwrite range data)
    | _ => rfl
  · rw [hout]
    exact List.mem_cons_of_mem _ ho

theorem push (h : Secured sha1 clientId m io) (hbusy : io.phase.busy = true)
    (addrs : List SocketAddr) :
    Secured sha1 clientId m { io with outputs := addrs.map .disconnectPeer ++ io.outputs } := by
  refine h.restack hbusy ?_ fun o ho => ?_
  · rw [handedOut_append, handedOut_silent, List.nil_append]
    simp
  · rcases List.mem_append.mp ho with ho | ho
    · obtain ⟨x, -, rfl⟩ := List.mem_map.mp ho
      exact .inr ⟨x, .inl rfl⟩
    · exact .inl ho

theorem spawnPeer (h : Secured sha1 clientId m io) (addr : SocketAddr) :
    Secured sha1 clientId m (io.spawnPeer addr) := by
  unfold SwarmIo.spawnPeer
  split
  · exact h
  · exact ⟨h.metainfo, h.store, h.running, h.reachable, h.intact, h.idle⟩

theorem disconnectPeer (h : Secured sha1 clientId m io) (hbusy : io.phase.busy = true)
    (addr : SocketAddr) : Secured sha1 clientId m (io.disconnectPeer sha1 env addr).1 := by
  have hstack : Secured sha1 clientId m { io with
      outputs := (io.swarm.step sha1 (.peerDisconnected addr, env)).2 ++ io.outputs } := by
    have hcancels := Swarm.onDisconnected_outputs env io.swarm addr
    refine h.restack hbusy ?_ fun o ho => ?_
    · rw [handedOut_append, handedOut_silent, List.nil_append]
      intro range data hin
      obtain ⟨id, hid⟩ := hcancels _ hin
      contradiction
    · rcases List.mem_append.mp ho with ho | ho
      · obtain ⟨id, rfl⟩ := hcancels o ho
        exact .inr ⟨addr, .inr ⟨id, rfl⟩⟩
      · exact .inl ho
  exact ⟨h.metainfo, h.store, h.running, h.reachable.next (.peerDisconnected addr, env),
    hstack.intact, fun hp => hstack.idle hp⟩

theorem broadcast (h : Secured sha1 clientId m io) (hbusy : io.phase.busy = true)
    (accepts : SocketAddr → Bool) (message : Message) :
    Secured sha1 clientId m (io.broadcast env accepts message).1 := by
  have hpushed := h.push hbusy ((env.order.arrange io.peerCmds.keys).filter fun addr =>
    (io.sendToPeer accepts addr message).isNone).reverse
  exact hpushed

theorem flush (h : Secured sha1 clientId m io) : Secured sha1 clientId m io.flush := by
  unfold SwarmIo.flush
  rw [if_pos h.running]
  have hqueued : Intact sha1 m { io.custody with
      queue := io.worker.queue ++ [.flush]
      outputs := io.outputs } := h.intact.enqueue (by simp) rfl fun o ho => ho
  exact ⟨h.metainfo, h.store, h.running, h.reachable, hqueued, fun hp => by contradiction⟩

theorem writePiece (h : Secured sha1 clientId m io) (hd : m.Divided)
    (hbusy : io.phase.busy = true) {range : BlockRange} {data : Bytes} {rest : List Output}
    (hout : io.outputs = .writePiece range data :: rest) :
    Secured sha1 clientId m ({ io with outputs := rest }.writePiece range data) := by
  have hwhole : WholePiece m range data := h.intact.handed range data (by
    unfold custody
    rw [hout]
    exact List.mem_cons_self ..)
  have hqueued : Intact sha1 m { io.custody with
      queue := io.worker.queue ++ [.write (position m range) data]
      outputs := rest } := by
    refine h.intact.enqueue (by simp) ?_ fun o ho => ?_
    · unfold custody
      rw [hout]
      rfl
    · unfold custody
      rw [hout]
      exact List.mem_cons_of_mem _ ho
  unfold SwarmIo.writePiece
  simp only [h.store, hwhole.write_ok hd, h.running, if_true]
  exact ⟨h.metainfo, rfl, h.running, h.reachable, hqueued, fun hidle =>
    (Bool.eq_false_iff.mp hidle hbusy).elim⟩

theorem readForUpload (h : Secured sha1 clientId m io) (hbusy : io.phase.busy = true)
    {id : UploadReadId} {range : BlockRange} {rest : List Output}
    (hout : io.outputs = .readForUpload id range :: rest) :
    Secured sha1 clientId m ({ io with outputs := rest }.readForUpload id range) := by
  have hstarted := h.intact.startRead (c := io.custody) hout
  rw [← h.store] at hstarted
  exact ⟨h.metainfo, h.store, h.running, h.reachable, hstarted, fun hidle =>
    (Bool.eq_false_iff.mp hidle hbusy).elim⟩

theorem cancelUploadRead (h : Secured sha1 clientId m io) (id : UploadReadId) :
    Secured sha1 clientId m (io.cancelUploadRead id) := by
  unfold SwarmIo.cancelUploadRead
  split
  · exact h
  · next task _ =>
    have hrevised : Secured sha1 clientId m
        { io with reads := io.reads.modify task ReadTask.abort } := by
      refine h.revise fun k t ht => ?_
      rw [HashMap.get_modify] at ht
      split at ht
      · obtain ⟨read, hget, rfl⟩ := Option.map_eq_some_iff.mp ht
        exact ⟨read, hget, rfl, fun _ hr => hr, fun _ hr => hr⟩
      · exact ⟨t, ht, rfl, fun _ hr => hr, fun _ hr => hr⟩
    exact ⟨h.metainfo, h.store, h.running, h.reachable, hrevised.intact, h.idle⟩

theorem handle (h : Secured sha1 clientId m io) (hd : m.Divided) (hbusy : io.phase.busy = true)
    (accepts : SocketAddr → Bool) : Secured sha1 clientId m (io.handle sha1 env accepts).1 := by
  unfold SwarmIo.handle
  split
  · next hout =>
    exact ⟨h.metainfo, h.store, h.running, h.reachable, h.intact, fun _ => hout⟩
  · next out rest hout =>
    cases out with
    | connectPeer addr => exact (h.pop hbusy hout (by simp)).spawnPeer addr
    | disconnectPeer addr => exact (h.pop hbusy hout (by simp)).disconnectPeer hbusy addr
    | sendToPeer addr message =>
      have hpopped := h.pop hbusy hout (by simp)
      simp only [handleOutput]
      split
      · exact hpopped
      · exact hpopped.push hbusy [addr]
    | completed => exact (h.pop hbusy hout (by simp)).flush
    | writePiece range data => exact h.writePiece hd hbusy hout
    | broadcast message => exact (h.pop hbusy hout (by simp)).broadcast hbusy accepts message
    | readForUpload id range => exact h.readForUpload hbusy hout
    | cancelUploadRead id => exact (h.pop hbusy hout (by simp)).cancelUploadRead id

theorem select (h : Secured sha1 clientId m io) (hd : m.Divided) (hnil : io.outputs = [])
    {move : Move} {r : SwarmIo × List Effect} (hr : Selected sha1 env io move r) :
    Secured sha1 clientId m r.1 := by
  have hevents : ∀ peerCmds peerEvents,
      Secured sha1 clientId m { io with peerCmds, peerEvents } :=
    fun _ _ => ⟨h.metainfo, h.store, h.running, h.reachable, h.intact, h.idle⟩
  have hreads : ∀ task readHandles, Secured sha1 clientId m
      { io with reads := io.reads.remove task, readHandles } := fun task _ =>
    have hremoved := h.remove task
    ⟨hremoved.metainfo, hremoved.store, hremoved.running, hremoved.reachable, hremoved.intact,
      hremoved.idle⟩
  cases hr with
  | pass => exact h
  | deaf => exact ⟨h.metainfo, h.store, h.running, h.reachable, h.intact, h.idle⟩
  | accept => exact ⟨h.metainfo, h.store, h.running, h.reachable, h.intact, h.idle⟩
  | stop _ result => exact h.finish hnil result
  | process _ input hpolled => exact h.process hd hnil (by cases hpolled <;> simp)
  | event k x event rest =>
    exact (hevents io.peerCmds rest).process hd hnil (by cases event <;> simp [PeerEvent.input])
  | leave k x rest => exact (hevents (io.peerCmds.remove x) rest).process hd hnil (by simp)
  | reap task => exact h.remove task
  | fail task handles result => exact (hreads task handles).finish hnil result
  | read task read data => exact (hreads task _).process hd hnil (by simp)

theorem runSession (h : Secured sha1 clientId m io) (number : Nat) (move : SessionMove) :
    Secured sha1 clientId m (io.runSession number move) := by
  unfold SwarmIo.runSession
  split
  · exact h
  · exact ⟨h.metainfo, h.store, h.running, h.reachable, h.intact, h.idle⟩

theorem runRead (h : Secured sha1 clientId m io) (hd : m.Divided) (task : Nat) :
    Secured sha1 clientId m (io.runRead task) := by
  unfold SwarmIo.runRead
  split
  · exact h
  · next read hget =>
    split
    · exact h.settle hget rfl (by simp [ReadTask.finish]) (by simp [ReadTask.finish])
    · next offset hstate =>
      rw [if_pos h.running]
      exact ⟨h.metainfo, h.store, h.running, h.reachable, h.intact.send hd hget hstate, h.idle⟩
    · exact h

theorem dropRead (h : Secured sha1 clientId m io) (task : Nat) :
    Secured sha1 clientId m (io.dropRead task) := by
  unfold SwarmIo.dropRead
  split
  · exact h
  · next read hget =>
    split
    · exact h.settle hget rfl (by simp) (by simp)
    · exact h.settle hget rfl (by simp) (by simp)
    · exact h

theorem runWorker (h : Secured sha1 clientId m io) (hd : m.Divided) :
    Secured sha1 clientId m (io.runWorker none).1 := by
  unfold SwarmIo.runWorker DiskStorage.Worker.next
  cases hq : io.worker.queue with
  | nil =>
    simp only [h.running, if_true, receiveReply]
    exact h
  | cons cmd queue =>
    cases cmd with
    | write offset data =>
      simp only [DiskStorage.Worker.execute, h.running, if_true, receiveReply]
      exact ⟨h.metainfo, h.store, rfl, h.reachable, h.intact.write hd hq, h.idle⟩
    | read offset len reply =>
      simp only [DiskStorage.Worker.execute]
      split
      · simp only [h.running, if_true, receiveReply]
        exact ⟨h.metainfo, h.store, rfl, h.reachable, h.intact.drop hq rfl, h.idle⟩
      · simp only [h.running, if_true, receiveReply]
        exact ⟨h.metainfo, h.store, rfl, h.reachable, h.intact.reply hd hq, h.idle⟩
    | flush =>
      simp only [DiskStorage.Worker.execute, h.running, if_true, receiveReply]
      exact ⟨h.metainfo, h.store, rfl, h.reachable, h.intact.drop hq rfl,
        fun hp => by contradiction⟩

theorem step (h : Secured sha1 clientId m io) (hd : m.Divided) {move : Move}
    (hmove : ∀ fault, move ≠ .runWorker (some fault)) :
    Secured sha1 clientId m (io.step sha1 (move, env)).1 := by
  cases move with
  | session number move => exact h.runSession number move
  | runRead task => exact h.runRead hd task
  | dropRead task => exact h.dropRead task
  | runWorker fault =>
    cases fault with
    | none => exact h.runWorker hd
    | some fault => exact absurd rfl (hmove fault)
  | handle accepts =>
    simp only [SwarmIo.step]
    split
    · next hphase => exact h.handle hd (by rw [hphase]; rfl) accepts
    · exact h
  | _ =>
    simp only [SwarmIo.step]
    split
    · next hphase => exact h.select hd (h.idle (by rw [hphase]; rfl)) (selected sha1 _ io _)
    · exact h

end Secured

def Move.faultless : Move → Bool
  | .runWorker (some _) => false
  | _ => true

end SwarmIo

end Tortue
